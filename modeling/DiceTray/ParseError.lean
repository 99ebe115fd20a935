import DiceTray.Dice

/-!
# Faults in a text

What is wrong with a text that is no roll, and which bytes of it are to blame.
-/

namespace DiceTray

/-- The most terms that can be joined with `&` in one clause. -/
def maxTerms : Nat := 1024

/-- The most often that a clause can be repeated. -/
def maxRepeats : Nat := 1024

/-- The bytes of a text from one offset up to another. -/
structure Span where
  start : Nat
  stop : Nat
deriving DecidableEq

namespace ParseError

/-- What can be wrong with a text: something is missing, something follows the end, a number is out
of range, a clause joins too many terms or asks for too many copies, or a term describes dice that
cannot be. -/
inductive Kind where
  | expected (what : String)
  | trailingInput
  | overflow
  | chainTooLong
  | tooManyRepeats
  | dice (cause : DiceError)
deriving DecidableEq

def Kind.message : Kind → String
  | .expected what => s!"expected {what}"
  | .trailingInput => "unexpected trailing input"
  | .overflow => "number out of range"
  | .chainTooLong => s!"more than {maxTerms} dice terms joined with '&'"
  | .tooManyRepeats => s!"more than {maxRepeats} repetitions of a clause"
  | .dice cause => s!"invalid dice: {cause.message}"

end ParseError

/-- What is wrong with a text, and where. -/
structure ParseError where
  kind : ParseError.Kind
  span : Span
deriving DecidableEq

/-- The text of what is wrong, with its place. -/
def ParseError.message (error : ParseError) : String :=
  s!"{error.kind.message} at {error.span.start}..{error.span.stop}"

end DiceTray
