import DiceTray.Proofs.Flat
import DiceTray.Proofs.Recognition

/-!
# What parses can be rolled

The limits of the grammar are tighter than those of evaluation. A chain has at
most 1024 terms of at most 10000 dice each, so no sum over it leaves 64 bits,
whatever the outcomes are. Only a roller that runs dry can keep the expressions
of a roll from their results.
-/

namespace DiceTray.Expr

variable {σ : Type} {R : Roller σ} {s s' : σ} {es : List Expr} {rs : List Rolled}

/-- Expressions with their results, each evaluated in the state that the one
before it has left. -/
inductive InOrder (R : Roller σ) : σ → List Expr → List Rolled → σ → Prop
  | nil {s : σ} : InOrder R s [] [] s
  | cons {s s' s'' : σ} {e : Expr} {r : Rolled} {es : List Expr}
      {rs : List Rolled} :
      (e.eval R).run s = .ok r s' → InOrder R s' es rs s'' →
        InOrder R s (e :: es) (r :: rs) s''

theorem InOrder.length_eq (h : InOrder R s es rs s') : rs.length = es.length := by
  induction h with
  | nil => rfl
  | cons _ _ ih => rw [List.length_cons, List.length_cons, ih]

/-- What holds of every single result holds of all of them. -/
theorem InOrder.forall₂ {P : Expr → Rolled → Prop} (h : InOrder R s es rs s')
    (hP : ∀ e r t t', (e.eval R).run t = .ok r t' → P e r) : List.Forall₂ P es rs := by
  induction h with
  | nil => exact .nil
  | cons heval _ ih => exact .cons (hP _ _ _ _ heval) ih

theorem run_evalAll_eq_ok_iff :
    (evalAll R es).run s = .ok rs s' ↔ InOrder R s es rs s' := by
  constructor
  · intro h
    induction es generalizing s rs with
    | nil =>
        cases h
        exact .nil
    | cons e es ih =>
        rw [evalAll_cons] at h
        obtain ⟨r, t, heval, h⟩ := Session.run_bind_eq_ok_iff.mp h
        obtain ⟨more, t', hrest, h⟩ := Session.run_bind_eq_ok_iff.mp h
        cases h
        exact .cons heval (ih hrest)
  · intro h
    induction h with
    | nil => rfl
    | cons heval _ ih =>
        rw [evalAll_cons]
        exact Session.run_bind_eq_ok_iff.mpr
          ⟨_, _, heval, Session.run_bind_eq_ok_iff.mpr ⟨_, _, ih, rfl⟩⟩

/-- Expressions of moderate size have results with a roller that never stops. -/
theorem exists_inOrder (hR : R.Serves)
    (hes : ∀ e ∈ es, e.leaves.length ≤ 200000 ∧
      ∀ d ∈ e.leaves, d.count ≤ Dice.maxCount) (s : σ) :
    ∃ rs s', InOrder R s es rs s' := by
  induction es generalizing s with
  | nil => exact ⟨[], s, .nil⟩
  | cons e es ih =>
      obtain ⟨hsmall, hcount⟩ := hes e List.mem_cons_self
      obtain ⟨r, s', hr⟩ := exists_run_eval hR hsmall hcount s
      obtain ⟨rs, s'', hrs⟩ := ih (fun e' he' => hes e' (List.mem_cons_of_mem e he')) s'
      exact ⟨r :: rs, s'', .cons hr hrs⟩

/-- What parses is of moderate size. -/
theorem moderate_of_parse {text : String} (hparse : Roll.parse text = .ok es) :
    ∀ e ∈ es, e.leaves.length ≤ 200000 ∧ ∀ d ∈ e.leaves, d.count ≤ Dice.maxCount := by
  intro e he
  obtain ⟨us, hchain⟩ := (Roll.parse_eq_ok_iff.mp hparse).exists_chain he
  obtain ⟨hlength, hcount⟩ := hchain.within
  exact ⟨Nat.le_trans hlength (by decide), hcount⟩

/-- **What parses can be rolled.** With a roller that always has an outcome, be
it in range or not, every expression of a roll has its result, in order. -/
theorem evalAll_of_parse {text : String} (hparse : Roll.parse text = .ok es)
    (hR : R.Serves) (s : σ) :
    ∃ rs s', (evalAll R es).run s = .ok rs s' ∧ rs.length = es.length ∧
      InOrder R s es rs s' := by
  obtain ⟨rs, s', hrs⟩ := exists_inOrder hR (moderate_of_parse hparse) s
  exact ⟨rs, s', run_evalAll_eq_ok_iff.mpr hrs, hrs.length_eq, hrs⟩

/-- Outcomes far beyond the sides, for the largest dice with the largest
modifier. -/
theorem evalAll_largest_twice :
    ∃ es, Roll.parse "2x 10000d4294967295+2147483647 & D1" = .ok es ∧
      (Roller.constant 4294967295).Serves ∧
      ∃ rs s', (evalAll (Roller.constant 4294967295) es).run () = .ok rs s' ∧
        rs.length = es.length ∧
        InOrder (Roller.constant 4294967295) () es rs s' := by
  have hparse : Roll.parse "2x 10000d4294967295+2147483647 & D1" =
      .ok (List.replicate 2 (.chain
        ⟨10000, 4294967295, 2147483647, by decide, by decide⟩
        [⟨1, 1, 0, by decide, by decide⟩])) := by
    decide +kernel
  have hR : (Roller.constant 4294967295).Serves := fun _ _ _ => ⟨_, _, rfl⟩
  exact ⟨_, hparse, hR, evalAll_of_parse hparse hR ()⟩

end DiceTray.Expr
