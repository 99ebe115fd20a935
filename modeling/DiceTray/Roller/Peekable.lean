import DiceTray.Roller

/-!
# Outcomes with a look ahead

A list of outcomes that can be asked whether it can serve another die. To answer, it takes the next
outcome from the list and keeps it in a slot, and a die that is rolled afterwards finds it there.

What is still to be handed out is what the slot holds and then the list (`Peekable.remaining`). A
look ahead leaves that as it is, a die takes the first of it, and so a roller with a look ahead has
the outcomes that `Roller.listed` has (`Roller.die_peekable`).
-/

namespace DiceTray

/-- Outcomes to be handed out. The slot is empty, or it holds what a look ahead has found: the next
outcome, or that there is none. -/
structure Peekable where
  slot : Option (Option UInt32)
  rest : List UInt32
  rest_eq_nil : slot = some none → rest = []
deriving DecidableEq

namespace Peekable

/-- Nobody has looked ahead yet. -/
def ofList (outcomes : List UInt32) : Peekable :=
  ⟨none, outcomes, nofun⟩

/-- The next outcome, if there is one, which stays in the slot. -/
def peek (it : Peekable) : Option UInt32 × Peekable :=
  match it.slot with
  | some found => (found, it)
  | none =>
    match it.rest with
    | [] => (none, ⟨some none, [], fun _ => rfl⟩)
    | outcome :: rest => (some outcome, ⟨some (some outcome), rest, nofun⟩)

/-- The next outcome, if there is one, which is handed out. -/
def next (it : Peekable) : Option UInt32 × Peekable :=
  match it.slot with
  | some found => (found, ⟨none, it.rest, nofun⟩)
  | none =>
    match it.rest with
    | [] => (none, it)
    | outcome :: rest => (some outcome, ⟨none, rest, nofun⟩)

/-- Whether another die can be served. -/
def canRoll (it : Peekable) : Bool × Peekable :=
  (it.peek.1.isSome, it.peek.2)

/-- What is still to be handed out. -/
def remaining (it : Peekable) : List UInt32 :=
  it.slot.join.toList ++ it.rest

@[simp] theorem remaining_ofList (outcomes : List UInt32) :
    (ofList outcomes).remaining = outcomes := rfl

/-- An outcome that was found is the first of those that remain. -/
theorem head?_remaining_of_slot {it : Peekable} {found : Option UInt32}
    (h : it.slot = some found) : it.remaining.head? = found := by
  cases found with
  | none => simp [remaining, h, it.rest_eq_nil h]
  | some outcome => simp [remaining, h]

theorem fst_peek (it : Peekable) : it.peek.1 = it.remaining.head? := by
  unfold peek
  split
  · rename_i found h
    exact (head?_remaining_of_slot h).symm
  · rename_i h
    split <;> simp [remaining, *]

theorem remaining_peek (it : Peekable) : it.peek.2.remaining = it.remaining := by
  unfold peek
  split
  · rfl
  · split <;> simp [remaining, *]

theorem fst_next (it : Peekable) : it.next.1 = it.remaining.head? := by
  unfold next
  split
  · rename_i found h
    exact (head?_remaining_of_slot h).symm
  · split <;> simp [remaining, *]

theorem remaining_next (it : Peekable) : it.next.2.remaining = it.remaining.tail := by
  unfold next
  split
  · rename_i found h
    cases found with
    | none => simp [remaining, h, it.rest_eq_nil h]
    | some outcome => simp [remaining, h]
  · split <;> simp [remaining, *]

/-- The question is answered as by the list of what remains. -/
theorem fst_canRoll (it : Peekable) : it.canRoll.1 = Roller.canRoll it.remaining := by
  show it.peek.1.isSome = _
  rw [fst_peek]
  cases it.remaining <;> rfl

theorem remaining_canRoll (it : Peekable) : it.canRoll.2.remaining = it.remaining :=
  it.remaining_peek

end Peekable

namespace Roller

/-- The outcomes are handed out whatever the sides. At the end the roller stays as it was: a slot
that says so and an empty one in front of nothing are the same to all who ask later. -/
def peekable : Roller Peekable where
  die _ it := it.next.1.map fun outcome => (outcome, it.next.2)

/-- A look ahead, or none, shows in no outcome. -/
theorem die_peekable (n : UInt32) (it : Peekable) :
    (peekable.die n it).map (Prod.map id Peekable.remaining) = listed.die n it.remaining := by
  have hnext := it.remaining_next
  show (it.next.1.map _).map _ = _
  rw [it.fst_next]
  cases h : it.remaining with
  | nil => rfl
  | cons outcome rest =>
    rw [h] at hnext
    show some (outcome, it.next.2.remaining) = some (outcome, rest)
    rw [hnext, List.tail_cons]

/-- A die takes the first of what remains. -/
theorem remaining_of_die_peekable {n outcome : UInt32} {it it' : Peekable}
    (h : peekable.die n it = some (outcome, it')) : it.remaining = outcome :: it'.remaining := by
  have hview := die_peekable n it
  rw [h] at hview
  cases hremaining : it.remaining with
  | nil =>
    rw [hremaining] at hview
    cases hview
  | cons v rest =>
    rw [hremaining] at hview
    cases hview
    rfl

end Roller

end DiceTray
