import DiceTray.Proofs.InStep
import Mathlib.Data.List.Forall2

/-!
# A roller and its clones

A roller is used for dice and expressions, it is asked whether it can serve
another die, and clones are made of it, which are rollers like it and may be
cloned again. All of them make up a pool, in which they are numbered as they were
made, and a step is what is done with one of them (`Pool.run`).

What a roller answers to its uses is a matter of these uses alone. Steps with
others do not touch its state. A question may change the state, but if the roller
is still in step with one that was not asked, that has no part in the answers
either (`Pool.answersOf_run`).
-/

namespace DiceTray

variable {σ τ : Type} {rel : σ → τ → Prop} {R : Roller σ} {Q : Roller τ}
  {look : σ → Bool × σ} {look' : τ → Bool × τ}

/-! ## Uses of one roller -/

/-- What a roller can be used for. -/
inductive Use where
  | die (sides : UInt32)
  | roll (dice : Dice)
  | diceRoll (dice : Dice)
  | eval (expr : Expr)
  | evalAll (exprs : List Expr)

/-- What a use comes to. -/
inductive Answer where
  | outcome (result : Except (Halt DiceError) UInt32)
  | rolled (result : Except (Halt DiceError) Rolled)
  | evaluated (result : Except (Halt EvalError) Rolled)
  | allEvaluated (result : Except (Halt EvalError) (List Rolled))

namespace Use

/-- One use of a roller in some state. -/
def on (R : Roller σ) : Use → σ → Answer × σ
  | .die sides, s => Prod.map .outcome id ((R.draw sides).settle s)
  | .roll dice, s => Prod.map .rolled id ((R.roll dice).settle s)
  | .diceRoll dice, s => Prod.map .rolled id ((dice.roll R).settle s)
  | .eval expr, s => Prod.map .evaluated id ((expr.eval R).settle s)
  | .evalAll exprs, s => Prod.map .allEvaluated id ((Expr.evalAll R exprs).settle s)

/-- Uses one after the other, with their answers and the last state. -/
def inTurn (R : Roller σ) : List Use → σ → List Answer × σ
  | [], s => ([], s)
  | use :: uses, s =>
    ((use.on R s).1 :: (inTurn R uses (use.on R s).2).1, (inTurn R uses (use.on R s).2).2)

/-- Rollers in step answer alike. -/
theorem on_inStep (h : R.InStep rel Q) (use : Use) {s : σ} {t : τ} (hst : rel s t) :
    (use.on R s).1 = (use.on Q t).1 ∧ rel (use.on R s).2 (use.on Q t).2 := by
  cases use with
  | die sides => exact (h.draw sides s t hst).imp_left (congrArg _)
  | roll dice => exact (h.roll dice s t hst).imp_left (congrArg _)
  | diceRoll dice => exact (h.roll dice s t hst).imp_left (congrArg _)
  | eval expr => exact (h.eval expr s t hst).imp_left (congrArg _)
  | evalAll exprs => exact (h.evalAll exprs s t hst).imp_left (congrArg _)

end Use

/-! ## Steps in a pool -/

/-- What can be done with a roller of the pool. -/
inductive Act where
  | use (u : Use)
  | canRoll
  | clone

/-- What is heard of it. -/
inductive Reply where
  | answer (answer : Answer)
  | canRoll (yes : Bool)
  | cloned

/-- The reply, the state of the roller afterwards, and the clones that were made:
a clone begins in the state in which its roller is. -/
def Act.on (R : Roller σ) (look : σ → Bool × σ) : Act → σ → Reply × σ × List σ
  | .use u, s => (.answer (u.on R s).1, (u.on R s).2, [])
  | .canRoll, s => (.canRoll (look s).1, (look s).2, [])
  | .clone, s => (.cloned, s, [s])

/-- What is done with two rollers in step leaves them in step, and their clones
too. -/
theorem Act.on_inStep (h : R.InStep rel Q)
    (hlook : ∀ s t, rel s t → (look s).1 = (look' t).1 ∧ rel (look s).2 (look' t).2) (act : Act)
    {s : σ} {t : τ} (hst : rel s t) :
    (act.on R look s).1 = (act.on Q look' t).1 ∧
      rel (act.on R look s).2.1 (act.on Q look' t).2.1 ∧
      List.Forall₂ rel (act.on R look s).2.2 (act.on Q look' t).2.2 := by
  cases act with
  | use u =>
      obtain ⟨same, hrel⟩ := u.on_inStep h hst
      exact ⟨congrArg _ same, hrel, .nil⟩
  | canRoll =>
      obtain ⟨same, hrel⟩ := hlook s t hst
      exact ⟨congrArg _ same, hrel, .nil⟩
  | clone => exact ⟨rfl, hst, .cons hst .nil⟩

namespace Pool

/-- Steps one after the other, each with the number of the roller it is taken with.
Where there is no such roller there is no step. -/
def run (R : Roller σ) (look : σ → Bool × σ) :
    List (Nat × Act) → List σ → List (Nat × Reply) × List σ
  | [], pool => ([], pool)
  | (k, act) :: steps, pool =>
    match pool[k]? with
    | none => run R look steps pool
    | some s =>
      let (reply, s', clones) := act.on R look s
      let (replies, last) := run R look steps (pool.set k s' ++ clones)
      ((k, reply) :: replies, last)

section Run

variable {k : Nat} {act : Act} {steps : List (Nat × Act)} {pool : List σ} {s : σ}

theorem run_cons_of_none (h : pool[k]? = none) :
    run R look ((k, act) :: steps) pool = run R look steps pool := by
  rw [run, h]

theorem run_cons_of_some (h : pool[k]? = some s) :
    run R look ((k, act) :: steps) pool =
      ((k, (act.on R look s).1) ::
          (run R look steps (pool.set k (act.on R look s).2.1 ++ (act.on R look s).2.2)).1,
        (run R look steps (pool.set k (act.on R look s).2.1 ++ (act.on R look s).2.2)).2) := by
  rw [run, h]

end Run

/-! ## Two pools in step -/

section Forall₂

variable {pool : List σ} {pool' : List τ}

theorem forall₂_getElem? (h : List.Forall₂ rel pool pool') (k : Nat) :
    Option.Rel rel pool[k]? pool'[k]? := by
  induction h generalizing k with
  | nil => exact .none
  | cons hst _ ih =>
      cases k with
      | zero => exact .some hst
      | succ k => exact ih k

theorem forall₂_set (h : List.Forall₂ rel pool pool') {s : σ} {t : τ} (hst : rel s t) (k : Nat) :
    List.Forall₂ rel (pool.set k s) (pool'.set k t) := by
  induction h generalizing k with
  | nil => exact .nil
  | cons hst' hrest ih =>
      cases k with
      | zero => exact .cons hst hrest
      | succ k => exact .cons hst' (ih k)

end Forall₂

/-- In pools of rollers that are in step the same is heard of all steps. -/
theorem run_inStep (h : R.InStep rel Q)
    (hlook : ∀ s t, rel s t → (look s).1 = (look' t).1 ∧ rel (look s).2 (look' t).2)
    (steps : List (Nat × Act)) {pool : List σ} {pool' : List τ}
    (hpool : List.Forall₂ rel pool pool') :
    (run R look steps pool).1 = (run Q look' steps pool').1 ∧
      List.Forall₂ rel (run R look steps pool).2 (run Q look' steps pool').2 := by
  induction steps generalizing pool pool' with
  | nil => exact ⟨rfl, hpool⟩
  | cons step steps ih =>
      obtain ⟨k, act⟩ := step
      have hk := forall₂_getElem? hpool k
      rcases hs : pool[k]? with _ | s <;> rcases ht : pool'[k]? with _ | t <;>
        rw [hs, ht] at hk <;> cases hk
      case none.none =>
        rw [run_cons_of_none hs, run_cons_of_none ht]
        exact ih hpool
      case some.some hst =>
        obtain ⟨same, hrel, hclones⟩ := act.on_inStep h hlook hst
        obtain ⟨replies, hlast⟩ := ih (List.rel_append (forall₂_set hpool hrel k) hclones)
        rw [run_cons_of_some hs, run_cons_of_some ht, same, replies]
        exact ⟨rfl, hlast⟩

/-! ## One roller among others -/

/-- The uses of one roller among all steps. -/
def usesOf (k : Nat) : List (Nat × Act) → List Use
  | [] => []
  | (j, .use u) :: steps => if j = k then u :: usesOf k steps else usesOf k steps
  | _ :: steps => usesOf k steps

/-- What one roller has answered to its uses. -/
def answersOf (k : Nat) : List (Nat × Reply) → List Answer
  | [] => []
  | (j, .answer answer) :: replies =>
    if j = k then answer :: answersOf k replies else answersOf k replies
  | _ :: replies => answersOf k replies

theorem usesOf_cons_of_ne {j k : Nat} (h : j ≠ k) (act : Act) (steps : List (Nat × Act)) :
    usesOf k ((j, act) :: steps) = usesOf k steps := by
  cases act with
  | use u => rw [usesOf, if_neg h]
  | canRoll => rfl
  | clone => rfl

theorem answersOf_cons_of_ne {j k : Nat} (h : j ≠ k) (reply : Reply)
    (replies : List (Nat × Reply)) :
    answersOf k ((j, reply) :: replies) = answersOf k replies := by
  cases reply with
  | answer answer => rw [answersOf, if_neg h]
  | canRoll yes => rfl
  | cloned => rfl

/-- **A roller among others.** A roller of the pool answers its uses as one that is
in step with it and is used for nothing else, whatever is done in between with
others, clones of it among them, and however often it is asked whether it can
serve another die. -/
theorem answersOf_run (h : R.InStep rel Q) (hlook : ∀ s t, rel s t → rel (look s).2 t) {k : Nat}
    (steps : List (Nat × Act)) {pool : List σ} {s : σ} {t : τ} (hs : pool[k]? = some s)
    (hst : rel s t) :
    answersOf k (run R look steps pool).1 = (Use.inTurn Q (usesOf k steps) t).1 ∧
      ∃ s', (run R look steps pool).2[k]? = some s' ∧
        rel s' (Use.inTurn Q (usesOf k steps) t).2 := by
  induction steps generalizing pool s t with
  | nil => exact ⟨rfl, s, hs, hst⟩
  | cons step steps ih =>
      obtain ⟨j, act⟩ := step
      obtain ⟨hk, -⟩ := List.getElem?_eq_some_iff.mp hs
      by_cases hj : j = k
      · subst hj
        have here (s' : σ) (clones : List σ) : (pool.set j s' ++ clones)[j]? = some s' := by
          rw [List.getElem?_append_left (by rwa [List.length_set]), List.getElem?_set_self hk]
        rw [run_cons_of_some hs]
        cases act with
        | use u =>
            obtain ⟨same, hrel⟩ := u.on_inStep h hst
            obtain ⟨answers, hlast⟩ := ih (here (u.on R s).2 []) hrel
            simp only [Act.on, answersOf, usesOf, if_pos, answers, same]
            exact ⟨rfl, hlast⟩
        | canRoll =>
            simp only [Act.on, answersOf, usesOf]
            exact ih (here _ []) (hlook s t hst)
        | clone =>
            simp only [Act.on, answersOf, usesOf]
            exact ih (here s [s]) hst
      · rw [usesOf_cons_of_ne hj]
        cases hpool : pool[j]? with
        | none =>
            rw [run_cons_of_none hpool]
            exact ih hs hst
        | some u =>
            have there (u' : σ) (clones : List σ) : (pool.set j u' ++ clones)[k]? = some s := by
              rw [List.getElem?_append_left (by rwa [List.length_set]),
                List.getElem?_set_ne hj, hs]
            rw [run_cons_of_some hpool, answersOf_cons_of_ne hj]
            exact ih (there _ _) hst

end Pool

end DiceTray
