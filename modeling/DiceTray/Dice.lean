/-!
# Dice

A set of like dice, `3d8-5`: how many there are, how many sides each has, and what is added to the
sum of their outcomes. There is at least one die and each has at least one side, by the type. The
limit on the number of dice is not part of the type: dice above it can be written down, and it is
rolling that refuses them. Dice that come from outside are a `Dice.Request` first, and `check`
decides what becomes of it.
-/

namespace DiceTray

/-- A number of like dice with a flat modifier, which is added to the sum of the outcomes. -/
structure Dice where
  count : UInt32
  sides : UInt32
  modifier : Int32
  count_pos : 0 < count
  sides_pos : 0 < sides
deriving DecidableEq

/-- What can be wrong with dice: their number, their sides, or a total that is out of range. -/
inductive DiceError where
  | tooFewDice (got : UInt32)
  | tooFewSides (got : UInt32)
  | tooManyDice (got : UInt32)
  | overflow (dice : Dice)
deriving DecidableEq

namespace Dice

/-- The most dice that can be rolled as one set. -/
def maxCount : UInt32 := 10000

/-- The usual die: one of twenty sides, nothing added. -/
instance : Inhabited Dice where
  default := ⟨1, 20, 0, by decide, by decide⟩

/-- The number of sides of each single die, in the order in which they are rolled. -/
def sidesOfEach (d : Dice) : List UInt32 :=
  List.replicate d.count.toNat d.sides

/-- Dice always give the same total exactly when they have one side. -/
def isDeterministic (d : Dice) : Bool :=
  d.sides == 1

/-- A modifier is written with its sign, and a modifier of zero is not written. -/
def modifierText (n : Int) : String :=
  if 0 < n then s!"+{n}" else if n < 0 then s!"{n}" else ""

/-- Dice are written as their count, the letter `d`, their sides and their modifier. -/
protected def toString (d : Dice) : String :=
  s!"{d.count.toNat}d{d.sides.toNat}" ++ modifierText d.modifier.toInt

instance : ToString Dice := ⟨Dice.toString⟩

/-! ## Asking for dice -/

/-- What is asked for, before it is checked. What is left out is that of the usual die. -/
structure Request where
  count : UInt32 := 1
  sides : UInt32 := 20
  modifier : Int32 := 0
deriving DecidableEq

/-- Dice are given out for a count from one up to the limit and at least one side. The count is
looked at first, so it is blamed where both are wrong. -/
def Request.check (asked : Request) : Except DiceError Dice :=
  if count_pos : 0 < asked.count then
    if maxCount < asked.count then
      .error (.tooManyDice asked.count)
    else if sides_pos : 0 < asked.sides then
      .ok ⟨asked.count, asked.sides, asked.modifier, count_pos, sides_pos⟩
    else
      .error (.tooFewSides asked.sides)
  else
    .error (.tooFewDice asked.count)

/-- What was asked for when these dice were given out. -/
def request (d : Dice) : Request :=
  ⟨d.count, d.sides, d.modifier⟩

/-- Exactly the dice within the limit can be asked for. -/
theorem Request.check_eq_ok_iff {asked : Request} {d : Dice} :
    asked.check = .ok d ↔ asked = d.request ∧ d.count ≤ maxCount := by
  obtain ⟨count, sides, modifier⟩ := asked
  unfold check request
  constructor
  · intro h
    split at h
    · split at h
      · cases h
      · rename_i within
        split at h
        · cases h
          exact ⟨rfl, UInt32.not_lt.1 within⟩
        · cases h
    · cases h
  · rintro ⟨h, within⟩
    cases h
    rw [dif_pos d.count_pos, if_neg (UInt32.not_lt.2 within), dif_pos d.sides_pos]

end Dice

/-- The text of what is wrong with dice. -/
def DiceError.message : DiceError → String
  | .tooFewDice got => s!"dice count must be at least 1, got {got.toNat}"
  | .tooFewSides got => s!"dice must have at least 1 side, got {got.toNat}"
  | .tooManyDice got =>
    s!"cannot roll more than {Dice.maxCount.toNat} dice at once, got {got.toNat}"
  | .overflow dice => s!"integer overflow while totalling {dice}"

end DiceTray
