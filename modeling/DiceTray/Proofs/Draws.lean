import DiceTray.Roller

/-!
# Draws

`Draws R s sides outcomes s'` is the history of a roller: asked for dice of
these sides one after the other from state `s`, it gives these outcomes and is
in state `s'` then. Everything a session does to its roller is such a history.

That a session makes certain calls and no others shows on a roller that writes
them down. `Roller.traced` does so and changes nothing else.
-/

namespace DiceTray

variable {σ ε : Type} {R : Roller σ} {s s' s'' : σ}
  {sides more outcomes outcomes' : List UInt32}

namespace Session

variable {α β : Type} {f : Session ε σ α} {g : α → Session ε σ β}

/-- A session of two parts has a value if both parts do, the second from the state
that the first has left. -/
theorem run_bind_eq_ok_iff {b : β} :
    (f >>= g).run s = .ok b s'' ↔ ∃ a s', f.run s = .ok a s' ∧ (g a).run s' = .ok b s'' := by
  rw [EStateM.run_bind]
  cases f.run s <;> simp [and_assoc]

/-- It stops where the first part stops, or after the first where the second does. -/
theorem run_bind_eq_error_iff {halt : Halt ε} :
    (f >>= g).run s = .error halt s'' ↔
      f.run s = .error halt s'' ∨
        ∃ a s', f.run s = .ok a s' ∧ (g a).run s' = .error halt s'' := by
  rw [EStateM.run_bind]
  cases f.run s <;> simp [and_assoc]

end Session

/-- The outcomes of a series of dice, and the state they leave. -/
inductive Draws (R : Roller σ) : σ → List UInt32 → List UInt32 → σ → Prop
  | nil {s : σ} : Draws R s [] [] s
  | cons {s s' s'' : σ} {n outcome : UInt32} {sides outcomes : List UInt32} :
      R.die n s = some (outcome, s') → Draws R s' sides outcomes s'' →
        Draws R s (n :: sides) (outcome :: outcomes) s''

namespace Draws

theorem length_eq (h : Draws R s sides outcomes s') :
    outcomes.length = sides.length := by
  induction h with
  | nil => rfl
  | cons _ _ ih => rw [List.length_cons, List.length_cons, ih]

theorem append (h : Draws R s sides outcomes s')
    (h' : Draws R s' more outcomes' s'') :
    Draws R s (sides ++ more) (outcomes ++ outcomes') s'' := by
  induction h with
  | nil => exact h'
  | cons hdie _ ih => exact .cons hdie (ih h')

/-- A history can be cut between any two dice. -/
theorem exists_of_append (h : Draws R s (sides ++ more) outcomes s'') :
    ∃ front back s', outcomes = front ++ back ∧ Draws R s sides front s' ∧
      Draws R s' more back s'' := by
  induction sides generalizing s outcomes with
  | nil => exact ⟨[], outcomes, s, rfl, .nil, h⟩
  | cons n sides ih =>
      cases h with
      | cons hdie hrest =>
          obtain ⟨front, back, s', rfl, hfront, hback⟩ := ih hrest
          exact ⟨_ :: front, back, s', rfl, .cons hdie hfront, hback⟩

/-- A roller has no choice: what it is asked for fixes the outcomes. -/
theorem unique (h : Draws R s sides outcomes s')
    (h' : Draws R s sides outcomes' s'') : outcomes = outcomes' ∧ s' = s'' := by
  induction h generalizing outcomes' with
  | nil =>
      cases h'
      exact ⟨rfl, rfl⟩
  | cons hdie _ ih =>
      cases h' with
      | cons hdie' hrest =>
          rw [hdie] at hdie'
          cases hdie'
          obtain ⟨rfl, rfl⟩ := ih hrest
          exact ⟨rfl, rfl⟩

end Draws

namespace Roller

/-- A roller that gives an outcome for every die that has a side, from every
state. No other dice are ever asked for. -/
def Serves (R : Roller σ) : Prop :=
  ∀ n s, 0 < n → ∃ outcome s', R.die n s = some (outcome, s')

theorem Serves.exists_draws (h : R.Serves) (s : σ) (pos : ∀ n ∈ sides, 0 < n) :
    ∃ outcomes s', Draws R s sides outcomes s' := by
  induction sides generalizing s with
  | nil => exact ⟨[], s, .nil⟩
  | cons n sides ih =>
      obtain ⟨hn, hsides⟩ := List.forall_mem_cons.mp pos
      obtain ⟨outcome, s', hdie⟩ := h n s hn
      obtain ⟨outcomes, s'', hrest⟩ := ih s' hsides
      exact ⟨outcome :: outcomes, s'', .cons hdie hrest⟩

/-- A roller that always shows a side of the die. -/
def Proper (R : Roller σ) : Prop :=
  ∀ n s, 0 < n → ∃ outcome s', R.die n s = some (outcome, s') ∧ 1 ≤ outcome ∧ outcome ≤ n

theorem Proper.serves (h : R.Proper) : R.Serves := by
  intro n s pos
  obtain ⟨outcome, s', hdie, -⟩ := h n s pos
  exact ⟨outcome, s', hdie⟩

theorem run_draw_eq_ok_iff {n outcome : UInt32} :
    (R.draw n : Session ε σ _).run s = .ok outcome s' ↔ R.die n s = some (outcome, s') := by
  rw [run_draw]
  cases R.die n s <;> simp [Prod.ext_iff]

theorem run_draw_eq_error_iff {n : UInt32} {halt : Halt ε} :
    (R.draw n : Session ε σ _).run s = .error halt s' ↔
      R.die n s = none ∧ halt = .dry ∧ s' = s := by
  rw [run_draw]
  cases R.die n s <;> simp [eq_comm]

/-- What a roller is asked for in a session is a history of it. -/
theorem run_drawAll_eq_ok_iff :
    (R.drawAll sides : Session ε σ _).run s = .ok outcomes s' ↔
      Draws R s sides outcomes s' := by
  constructor
  · intro h
    induction sides generalizing s outcomes with
    | nil =>
        cases h
        exact .nil
    | cons n sides ih =>
        rw [drawAll_cons] at h
        obtain ⟨outcome, t, hdraw, h⟩ := Session.run_bind_eq_ok_iff.mp h
        obtain ⟨rest, t', hrest, h⟩ := Session.run_bind_eq_ok_iff.mp h
        cases h
        exact .cons (run_draw_eq_ok_iff.mp hdraw) (ih hrest)
  · intro h
    induction h with
    | nil => rfl
    | cons hdie _ ih =>
        rw [drawAll_cons]
        exact Session.run_bind_eq_ok_iff.mpr ⟨_, _, run_draw_eq_ok_iff.mpr hdie,
          Session.run_bind_eq_ok_iff.mpr ⟨_, _, ih, rfl⟩⟩

/-- A series that comes to no end has come to a die for which there is no
outcome. -/
theorem draws_of_run_drawAll_eq_error {halt : Halt ε}
    (h : (R.drawAll sides : Session ε σ _).run s = .error halt s') :
    halt = .dry ∧ ∃ front n back outcomes, sides = front ++ n :: back ∧
      Draws R s front outcomes s' ∧ R.die n s' = none := by
  induction sides generalizing s with
  | nil => cases h
  | cons n sides ih =>
      rw [drawAll_cons] at h
      rcases Session.run_bind_eq_error_iff.mp h with hdraw | ⟨outcome, t, hdraw, h⟩
      · obtain ⟨hnone, rfl, rfl⟩ := run_draw_eq_error_iff.mp hdraw
        exact ⟨rfl, [], n, sides, [], rfl, .nil, hnone⟩
      · have hdie := run_draw_eq_ok_iff.mp hdraw
        rcases Session.run_bind_eq_error_iff.mp h with hrest | ⟨rest, t', -, h⟩
        · obtain ⟨rfl, front, m, back, outcomes, rfl, hdraws, hnone⟩ := ih hrest
          exact ⟨rfl, n :: front, m, back, _, rfl, .cons hdie hdraws, hnone⟩
        · cases h

/-! ## Calls -/

/-- The same roller, which notes every call: the sides asked for and the outcome
given. -/
def traced (R : Roller σ) : Roller (σ × List (UInt32 × UInt32)) where
  die n s := (R.die n s.1).map fun drawn =>
    (drawn.1, drawn.2, s.2 ++ [(n, drawn.1)])

theorem die_traced_eq_some {n outcome : UInt32} (calls : List (UInt32 × UInt32))
    (h : R.die n s = some (outcome, s')) :
    R.traced.die n (s, calls) = some (outcome, s', calls ++ [(n, outcome)]) := by
  simp [traced, h]

theorem Serves.traced (h : R.Serves) : R.traced.Serves := by
  rintro n ⟨s, calls⟩ pos
  obtain ⟨outcome, s', hdie⟩ := h n s pos
  exact ⟨outcome, _, die_traced_eq_some calls hdie⟩

/-- The note of a history is its dice with their outcomes, in order. -/
theorem draws_traced (calls : List (UInt32 × UInt32))
    (h : Draws R s sides outcomes s') :
    Draws R.traced (s, calls) sides outcomes
      (s', calls ++ sides.zip outcomes) := by
  induction h generalizing calls with
  | nil =>
      rw [List.zip_nil_left, List.append_nil]
      exact .nil
  | @cons _ _ _ n outcome _ _ hdie _ ih =>
      have hrest := ih (calls ++ [(n, outcome)])
      rw [List.append_assoc, List.singleton_append] at hrest
      exact .cons (die_traced_eq_some calls hdie) hrest

end Roller

end DiceTray
