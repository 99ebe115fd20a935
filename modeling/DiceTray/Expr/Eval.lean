import DiceTray.Expr
import DiceTray.Roller

/-!
# Evaluation

An expression is evaluated by rolling its dice from left to right with one roller. The results of
both sides are merged once the right side has been rolled. Whatever stops an evaluation, the draws
made up to there have been made.
-/

namespace DiceTray

/-- Why an expression has no result: it is a set of dice that could not be rolled, or the results of
its two sides do not add up within range. -/
inductive EvalError where
  | dice (expr : Expr) (cause : DiceError)
  | overflow (expr : Expr)
deriving DecidableEq

def EvalError.message : EvalError → String
  | .dice expr cause => s!"dice error while evaluating \"{expr}\": {cause.message}"
  | .overflow expr => s!"integer overflow while evaluating \"{expr}\""

namespace Expr

variable {σ : Type}

/-- The result of an expression: all of the left side is rolled before the right side. -/
def eval (R : Roller σ) : Expr → Session EvalError σ Rolled
  | .dice d => EStateM.adaptExcept (Halt.map (EvalError.dice (.dice d))) (R.roll d)
  | .both left right => do
    let first ← left.eval R
    let second ← right.eval R
    match first.merge second with
    | some rolled => return rolled
    | none => throw (.fault (.overflow (.both left right)))

/-- The results of expressions in order, up to the first that has none. -/
def evalAll (R : Roller σ) (exprs : List Expr) : Session EvalError σ (List Rolled) :=
  exprs.mapM (eval R)

@[simp] theorem evalAll_nil (R : Roller σ) : evalAll R [] = pure [] := List.mapM_nil

theorem evalAll_cons (R : Roller σ) (e : Expr) (exprs : List Expr) :
    evalAll R (e :: exprs) = do
      let rolled ← e.eval R
      let more ← evalAll R exprs
      return rolled :: more := List.mapM_cons

/-- Expressions can be evaluated in two parts with one roller. -/
theorem evalAll_append (R : Roller σ) (first second : List Expr) :
    evalAll R (first ++ second) = do
      let front ← evalAll R first
      let back ← evalAll R second
      return front ++ back := List.mapM_append

end Expr

end DiceTray
