import DiceTray.Reader.Roll
import DiceTray.Text.LowerCase

/-!
# Reading whole texts

A text is read in lower case and to its end. It may be a whole roll, one expression, or one set of
dice. Lower case moves no byte (`byteLength_lowerCase`), so the offsets of a fault are those of the
text as it was given.
-/

namespace DiceTray

open Text

/-- What a reader makes of a whole text. -/
def Reader.parse {α : Type} (p : Reader α) (text : String) : Except ParseError α :=
  let text := lowerCase text.toList
  match (complete p).run text with
  | .ok value _ => .ok value
  | .error fault _ => .error (fault.toError (byteLength text))

theorem Reader.parse_eq {α : Type} (p : Reader α) (text : String) :
    p.parse text =
      match complete p (lowerCase text.toList) with
      | .ok value _ => .ok value
      | .error fault _ => .error (fault.toError text.utf8ByteSize) := by
  rw [← byteLength_toList, ← byteLength_lowerCase]
  rfl

theorem Reader.parse_eq_ok {α : Type} {p : Reader α} {text : String} {value : α} :
    p.parse text = .ok value ↔
      ∃ rest, complete p (lowerCase text.toList) = .ok value rest := by
  rw [Reader.parse_eq]
  cases complete p (lowerCase text.toList) <;> simp

theorem Reader.parse_eq_error {α : Type} {p : Reader α} {text : String}
    {error : ParseError} :
    p.parse text = .error error ↔
      ∃ fault rest, complete p (lowerCase text.toList) = .error fault rest ∧
        fault.toError text.utf8ByteSize = error := by
  rw [Reader.parse_eq]
  cases complete p (lowerCase text.toList) <;> simp

/-- The expressions of a roll, in the order of its clauses. -/
def Roll.parse (text : String) : Except ParseError (List Expr) :=
  Reader.clauses.parse text

/-- The expression of a text that is one chain of terms. -/
def Expr.parse (text : String) : Except ParseError Expr :=
  Reader.chain.parse text

/-- The dice of a text that is one term. -/
def Dice.parse (text : String) : Except ParseError Dice :=
  Reader.term.parse text

end DiceTray
