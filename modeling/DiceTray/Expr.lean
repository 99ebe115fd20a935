import DiceTray.Dice

/-!
# Expressions

Dice joined with `&`: a tree whose leaves are dice. The text of a join is that of its two sides, so
the text of a tree is that of its leaves in order and does not show how the tree was bracketed. A
text that is read back gives the tree nested to the right, which `Expr.chain` builds from the
leaves. There is only one such tree over some leaves (`rightNested_iff`), and joining the dice one
by one from the last to the first gives it (`chain_concat`).
-/

namespace DiceTray

/-- Dice, or two expressions rolled one after the other. -/
inductive Expr where
  | dice (dice : Dice)
  | both (left right : Expr)
deriving DecidableEq

namespace Expr

instance : Inhabited Expr := ⟨.dice default⟩

/-- The dice of an expression, in the order in which they are rolled. -/
def leaves : Expr → List Dice
  | .dice d => [d]
  | .both left right => left.leaves ++ right.leaves

/-- Dice joined in order, nested to the right. -/
def chain : Dice → List Dice → Expr
  | d, [] => .dice d
  | d, e :: more => .both (.dice d) (chain e more)

/-- No join has a join on its left side. -/
def RightNested : Expr → Prop
  | .dice _ => True
  | .both left right =>
    (∀ a b, left ≠ .both a b) ∧ left.RightNested ∧ right.RightNested

/-- An expression always gives the same total exactly when each of its dice do. -/
def isDeterministic : Expr → Bool
  | .dice d => d.isDeterministic
  | .both left right => left.isDeterministic && right.isDeterministic

/-- An expression is written as its dice in order, joined with `&`. -/
protected def toString (e : Expr) : String :=
  " & ".intercalate (e.leaves.map toString)

instance : ToString Expr := ⟨Expr.toString⟩

/-! ## Leaves -/

theorem leaves_ne_nil (e : Expr) : e.leaves ≠ [] := by
  induction e with
  | dice d => simp [leaves]
  | both left right ihl _ => simp [leaves, ihl]

theorem exists_leaves_eq_cons (e : Expr) : ∃ d more, e.leaves = d :: more :=
  List.exists_cons_of_ne_nil e.leaves_ne_nil

@[simp] theorem leaves_chain (d : Dice) (more : List Dice) :
    (chain d more).leaves = d :: more := by
  induction more generalizing d with
  | nil => rfl
  | cons e more ih => simp [chain, leaves, ih]

/-! ## Nested to the right -/

theorem rightNested_chain (d : Dice) (more : List Dice) : (chain d more).RightNested := by
  induction more generalizing d with
  | nil => trivial
  | cons d' more ih => exact ⟨by simp, trivial, ih d'⟩

/-- Nested to the right, an expression is told by its dice. -/
theorem rightNested_iff {e : Expr} {d : Dice} {more : List Dice} (h : e.leaves = d :: more) :
    e.RightNested ↔ e = chain d more := by
  constructor
  · intro hnested
    induction e generalizing d more with
    | dice d' =>
      cases h
      rfl
    | both left right _ ihr =>
      obtain ⟨hleft, -, hright⟩ := hnested
      cases left with
      | both a b => exact absurd rfl (hleft a b)
      | dice d' =>
        obtain ⟨rfl, hmore⟩ := List.cons.inj h
        cases more with
        | nil => exact absurd hmore (leaves_ne_nil right)
        | cons d'' more => rw [ihr hmore hright, chain]
  · rintro rfl
    exact rightNested_chain d more

/-- Dice behind the first are joined from the last on: each is put in front of those behind it. -/
theorem chain_concat (d : Dice) (between : List Dice) (last : Dice) :
    chain d (between ++ [last]) =
      both (dice d) ((between.reverse.map dice).foldl (fun tail e => both e tail) (dice last)) := by
  induction between generalizing d with
  | nil => rfl
  | cons e between ih =>
    rw [List.cons_append, chain, ih, List.reverse_cons, List.map_append, List.foldl_append]
    rfl

/-! ## Texts -/

theorem toString_dice (d : Dice) : toString (dice d) = toString d := by
  show " & ".intercalate [toString d] = _
  rw [String.intercalate_singleton]

/-- The text of a join is that of its sides, without brackets. -/
theorem toString_both (left right : Expr) :
    toString (both left right) = toString left ++ " & " ++ toString right := by
  have ne (e : Expr) : e.leaves.map toString ≠ [] := by simp [leaves_ne_nil]
  show " & ".intercalate ((left.leaves ++ right.leaves).map toString) = _
  rw [List.map_append, String.intercalate_append_of_ne_nil (ne left) (ne right)]
  rfl

/-! ## Determinism -/

theorem isDeterministic_eq_all (e : Expr) :
    e.isDeterministic = e.leaves.all Dice.isDeterministic := by
  induction e with
  | dice d => simp [isDeterministic, leaves]
  | both left right ihl ihr => simp [isDeterministic, leaves, ihl, ihr]

end Expr

end DiceTray
