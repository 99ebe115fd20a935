import DiceTray.Proofs.Draws
import DiceTray.Expr.Eval

/-!
# Rollers in step

Two rollers are in step under a relation between their states if, from related
states, they give the same outcome for any die, or both none, and their states
stay related. Sets of dice, expressions and lists of expressions are built on
single draws and on nothing else. So with two rollers in step they come to the
same, be it a result, a fault or a dry roller, and leave related states.

A roller that carries something along, such as notes of what it was asked for, is
compared in this way with one that does not, and one that keeps its outcomes in
some special form with a plain list of them.
-/

namespace DiceTray

variable {σ τ ε α β : Type} {rel : σ → τ → Prop} {R : Roller σ} {Q : Roller τ}

namespace Session

/-! ## Ends of sessions -/

/-- A session from a state: what comes of it, and the state it leaves, whatever
that is. -/
def settle (p : Session ε σ α) (s : σ) : Except (Halt ε) α × σ :=
  match p.run s with
  | .ok a s' => (.ok a, s')
  | .error halt s' => (.error halt, s')

section Settle

variable {p : Session ε σ α} {f : α → Session ε σ β} {s s' : σ}

theorem settle_of_ok {a : α} (h : p.run s = .ok a s') : p.settle s = (.ok a, s') := by
  rw [settle, h]

theorem settle_of_error {halt : Halt ε} (h : p.run s = .error halt s') :
    p.settle s = (.error halt, s') := by
  rw [settle, h]

/-- The second part of a session goes on where the first has ended. -/
theorem settle_bind_of_ok {a : α} (h : p.settle s = (.ok a, s')) :
    (p >>= f).settle s = (f a).settle s' := by
  unfold settle at h ⊢
  rw [EStateM.run_bind]
  cases hrun : p.run s <;> rw [hrun] at h <;> cases h
  rfl

theorem settle_bind_of_error {halt : Halt ε} (h : p.settle s = (.error halt, s')) :
    (p >>= f).settle s = (.error halt, s') := by
  unfold settle at h ⊢
  rw [EStateM.run_bind]
  cases hrun : p.run s <;> rw [hrun] at h <;> cases h
  rfl

theorem settle_adaptExcept {δ : Type} (g : Halt ε → Halt δ) (p : Session ε σ α) (s : σ) :
    settle (EStateM.adaptExcept g p : Session δ σ α) s =
      ((p.settle s).1.mapError g, (p.settle s).2) := by
  simp only [settle, EStateM.run, EStateM.adaptExcept]
  cases p s <;> rfl

end Settle

/-! ## Sessions in step -/

/-- From related states the two sessions come to the same and leave related
states. -/
def InStep (rel : σ → τ → Prop) (p : Session ε σ α) (q : Session ε τ α) : Prop :=
  ∀ s t, rel s t → (p.settle s).1 = (q.settle t).1 ∧ rel (p.settle s).2 (q.settle t).2

theorem inStep_pure (a : α) :
    InStep rel (pure a : Session ε σ α) (pure a : Session ε τ α) :=
  fun _ _ h => ⟨rfl, h⟩

theorem inStep_throw (halt : Halt ε) :
    InStep rel (throw halt : Session ε σ α) (throw halt : Session ε τ α) :=
  fun _ _ h => ⟨rfl, h⟩

section Combine

variable {p : Session ε σ α} {q : Session ε τ α}

/-- Both go on to the second part, in related states, or neither does. -/
theorem InStep.bind {f : α → Session ε σ β} {g : α → Session ε τ β} (hp : InStep rel p q)
    (hf : ∀ a, InStep rel (f a) (g a)) : InStep rel (p >>= f) (q >>= g) := by
  intro s t h
  obtain ⟨same, hrel⟩ := hp s t h
  rcases hps : p.settle s with ⟨result, s'⟩
  rcases hqt : q.settle t with ⟨result', t'⟩
  rw [hps, hqt] at same hrel
  obtain rfl : result = result' := same
  cases result with
  | error halt =>
      rw [settle_bind_of_error hps, settle_bind_of_error hqt]
      exact ⟨rfl, hrel⟩
  | ok a =>
      rw [settle_bind_of_ok hps, settle_bind_of_ok hqt]
      exact hf a s' t' hrel

theorem InStep.adaptExcept {δ : Type} (g : Halt ε → Halt δ) (h : InStep rel p q) :
    InStep rel (EStateM.adaptExcept g p : Session δ σ α)
      (EStateM.adaptExcept g q : Session δ τ α) := by
  intro s t hst
  obtain ⟨same, hrel⟩ := h s t hst
  rw [settle_adaptExcept, settle_adaptExcept, same]
  exact ⟨rfl, hrel⟩

end Combine

end Session

/-! ## Rollers in step -/

namespace Roller

/-- From related states the two rollers have the same outcome for a die, and
related states afterwards, or they are both dry. -/
def InStep (rel : σ → τ → Prop) (R : Roller σ) (Q : Roller τ) : Prop :=
  ∀ n s t, rel s t →
    Option.Rel (fun drawn drawn' => drawn.1 = drawn'.1 ∧ rel drawn.2 drawn'.2)
      (R.die n s) (Q.die n t)

namespace InStep

open Session (inStep_pure inStep_throw)

theorem draw (h : R.InStep rel Q) (n : UInt32) :
    Session.InStep rel (R.draw n : Session ε σ _) (Q.draw n : Session ε τ _) := by
  intro s t hst
  have hdie := h n s t hst
  simp only [Session.settle, run_draw]
  cases hR : R.die n s <;> cases hQ : Q.die n t <;> rw [hR, hQ] at hdie <;> cases hdie
  case none.none => exact ⟨rfl, hst⟩
  case some.some hdrawn => exact ⟨congrArg _ hdrawn.1, hdrawn.2⟩

theorem drawAll (h : R.InStep rel Q) (sides : List UInt32) :
    Session.InStep rel (R.drawAll sides : Session ε σ _) (Q.drawAll sides : Session ε τ _) := by
  induction sides with
  | nil =>
      rw [drawAll_nil, drawAll_nil]
      exact inStep_pure []
  | cons n sides ih =>
      rw [drawAll_cons, drawAll_cons]
      exact (h.draw n).bind fun _ => ih.bind fun _ => inStep_pure _

theorem roll (h : R.InStep rel Q) (d : Dice) : Session.InStep rel (R.roll d) (Q.roll d) := by
  unfold Roller.roll
  by_cases hmany : Dice.maxCount < d.count
  · rw [if_pos hmany, if_pos hmany]
    exact inStep_throw _
  · rw [if_neg hmany, if_neg hmany]
    refine (h.drawAll d.sidesOfEach).bind fun outcomes => ?_
    cases Rolled.ofOutcomes d outcomes with
    | ok rolled => exact inStep_pure rolled
    | error error => exact inStep_throw _

theorem eval (h : R.InStep rel Q) (e : Expr) : Session.InStep rel (e.eval R) (e.eval Q) := by
  induction e with
  | dice d => exact (h.roll d).adaptExcept _
  | both left right ihl ihr =>
      refine ihl.bind fun first => ihr.bind fun second => ?_
      cases first.merge second with
      | some rolled => exact inStep_pure rolled
      | none => exact inStep_throw _

theorem evalAll (h : R.InStep rel Q) (es : List Expr) :
    Session.InStep rel (Expr.evalAll R es) (Expr.evalAll Q es) := by
  induction es with
  | nil =>
      rw [Expr.evalAll_nil, Expr.evalAll_nil]
      exact inStep_pure []
  | cons e es ih =>
      rw [Expr.evalAll_cons, Expr.evalAll_cons]
      exact (h.eval e).bind fun _ => ih.bind fun _ => inStep_pure _

end InStep

end Roller

end DiceTray
