import DiceTray.Dice
import DiceTray.Width

/-!
# Results

What a roll gave: every outcome in the order drawn, the modifiers together, and the total of both.
Totals and modifiers are 64-bit. A sum that leaves this range is refused and never wrapped, so a
result that exists holds the exact sums.
-/

namespace DiceTray

/-- The result of rolling dice, or of several such results taken together: the outcomes in the order
drawn, the sum of the modifiers, and the sum of all of these. -/
structure Rolled where
  outcomes : List UInt32
  modifier : Int64
  total : Int64
deriving DecidableEq

namespace Rolled

/-- Outcomes are added to a total one by one, as long as it stays in range. -/
def addOutcomes (total : Int64) (outcomes : List UInt32) : Option Int64 :=
  outcomes.foldlM (fun sum outcome => Width.signed64 (sum.toInt + outcome.toNat)) total

/-- The result of dice that gave these outcomes. -/
def ofOutcomes (dice : Dice) (outcomes : List UInt32) : Except DiceError Rolled :=
  let modifier := dice.modifier.toInt64
  match addOutcomes modifier outcomes with
  | some total => .ok ⟨outcomes, modifier, total⟩
  | none => .error (.overflow dice)

/-- Two results as one: the outcomes of the first and then those of the second, with totals and
modifiers added. There is none if a sum leaves its range. -/
def merge (first second : Rolled) : Option Rolled := do
  let total ← Width.signed64 (first.total.toInt + second.total.toInt)
  let modifier ← Width.signed64 (first.modifier.toInt + second.modifier.toInt)
  return ⟨first.outcomes ++ second.outcomes, modifier, total⟩

/-! ## Text -/

/-- The outcomes that a limit lets through: the first ones, or all where there is no limit. -/
def shown (rolled : Rolled) : Option Nat → List UInt32
  | none => rolled.outcomes
  | some limit => rolled.outcomes.take limit

/-- Outcomes that are not shown are counted, after a comma if some are shown. -/
def hiddenText (listed hidden : Nat) : String :=
  if hidden = 0 then "" else if listed = 0 then s!"{hidden} more..." else s!", {hidden} more..."

/-- A modifier other than zero stands after the outcomes. -/
def modifierText (n : Int) : String :=
  if n = 0 then "" else s!" (modifier: {n})"

/-- A result is written as its total, its outcomes up to the limit and its modifier. -/
def describe (rolled : Rolled) (limit : Option Nat) : String :=
  let shown := rolled.shown limit
  let listed := ", ".intercalate (shown.map fun outcome => toString outcome.toNat)
  let hidden := hiddenText shown.length (rolled.outcomes.length - shown.length)
  s!"{rolled.total.toInt} <= [{listed}{hidden}]" ++ modifierText rolled.modifier.toInt

protected def toString (rolled : Rolled) : String :=
  rolled.describe none

instance : ToString Rolled := ⟨Rolled.toString⟩

end Rolled

end DiceTray
