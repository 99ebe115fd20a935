import DiceTray.Rolled

/-!
# Rollers

A roller is a source of outcomes with a state: asked for a die of so many sides it gives an outcome
and its next state, or nothing when it has run dry. All else is built on single draws. Rolling is a
`Session`, which keeps the state it has reached also when it stops early: what was drawn before a
fault stays drawn.

The sources here know their outcomes beforehand. `Roller.constant` always gives one value,
`Roller.highest` the number of sides, and `Roller.listed` hands out a list of values and is the one
that runs dry.
-/

namespace DiceTray

/-- A source of outcomes, by number of sides and state. -/
structure Roller (σ : Type) where
  die (sides : UInt32) : σ → Option (UInt32 × σ)

/-- Why a session stopped: its roller had no outcome left, or rolling itself was at fault. -/
inductive Halt (ε : Type) where
  | dry
  | fault (error : ε)
deriving DecidableEq

/-- Rolling over the states `σ` of a roller. -/
abbrev Session (ε σ : Type) := EStateM (Halt ε) σ

namespace Halt

/-- A fault in the words of whoever asked for the roll. -/
def map {ε δ : Type} (f : ε → δ) : Halt ε → Halt δ
  | .dry => .dry
  | .fault error => .fault (f error)

end Halt

namespace Roller

variable {σ ε : Type}

/-- One die is rolled. A roller that is dry stays as it was. -/
def draw (R : Roller σ) (sides : UInt32) : Session ε σ UInt32 := fun s =>
  match R.die sides s with
  | some (outcome, s') => .ok outcome s'
  | none => .error .dry s

/-- Dice of these numbers of sides are rolled one after the other. -/
def drawAll (R : Roller σ) (sides : List UInt32) : Session ε σ (List UInt32) :=
  sides.mapM R.draw

/-- A set of dice is rolled: too many are refused before the first draw, and the total is taken
after the last. -/
def roll (R : Roller σ) (dice : Dice) : Session DiceError σ Rolled := do
  if Dice.maxCount < dice.count then
    throw (.fault (.tooManyDice dice.count))
  let outcomes ← R.drawAll dice.sidesOfEach
  match Rolled.ofOutcomes dice outcomes with
  | .ok rolled => return rolled
  | .error error => throw (.fault error)

/-! ## Sources known beforehand -/

/-- Every die shows the same value, whatever its sides. -/
def constant (value : UInt32) : Roller Unit where
  die _ s := some (value, s)

/-- Every die shows its highest side. -/
def highest : Roller Unit where
  die sides s := some (sides, s)

/-- The outcomes are taken from the front of a list, whatever the sides. -/
def listed : Roller (List UInt32) where
  die _
    | [] => none
    | outcome :: rest => some (outcome, rest)

/-- A list of outcomes can serve another die while it holds one. -/
def canRoll (left : List UInt32) : Bool :=
  !left.isEmpty

/-! ## Draws -/

theorem run_draw (R : Roller σ) (sides : UInt32) (s : σ) :
    (R.draw sides : Session ε σ UInt32).run s =
      match R.die sides s with
      | some (outcome, s') => .ok outcome s'
      | none => .error .dry s := rfl

@[simp] theorem drawAll_nil (R : Roller σ) :
    (R.drawAll [] : Session ε σ _) = pure [] := List.mapM_nil

theorem drawAll_cons (R : Roller σ) (sides : UInt32) (more : List UInt32) :
    (R.drawAll (sides :: more) : Session ε σ _) = do
      let outcome ← R.draw sides
      let outcomes ← R.drawAll more
      return outcome :: outcomes := List.mapM_cons

end Roller

/-- Dice are rolled with a roller as the roller rolls them. -/
def Dice.roll {σ : Type} (d : Dice) (R : Roller σ) : Session DiceError σ Rolled :=
  R.roll d

end DiceTray
