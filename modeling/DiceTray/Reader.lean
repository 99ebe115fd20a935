import DiceTray.ParseError
import DiceTray.Text.Blank
import DiceTray.Text.Bytes
import DiceTray.Width

/-!
# Readers

A reader works on the text that is still to be read and leaves the rest of it. It has no position: a
place in a text is named by what follows it, so a reader does the same wherever its text stands, and
the span of a fault is a pair of rests. Only `Fault.toError`, which is told the length of the
whole text, turns rests into byte offsets.

Every word is read after the white space in front of it. White space that was skipped stays consumed
even where the word is not found.
-/

namespace DiceTray

open Text

/-- What is wrong, with the text that follows the start and the stop of its span. -/
structure Fault where
  kind : ParseError.Kind
  start : List Char
  stop : List Char
deriving DecidableEq

/-- A fault in a text of so many bytes. What follows a place measures its distance from the end. -/
def Fault.toError (fault : Fault) (length : Nat) : ParseError :=
  ⟨fault.kind, length - byteLength fault.start, length - byteLength fault.stop⟩

/-- Reading, over the text that is still to be read. -/
abbrev Reader := EStateM Fault (List Char)

namespace Reader

variable {α β : Type}

/-! ## Steps -/

theorem bind_of_ok {p : Reader α} {f : α → Reader β} {text rest : List Char} {a : α}
    (h : p text = .ok a rest) : (p >>= f) text = f a rest := by
  show EStateM.bind p f text = _
  simp only [EStateM.bind, h]

theorem bind_of_error {p : Reader α} {f : α → Reader β} {text rest : List Char}
    {fault : Fault} (h : p text = .error fault rest) :
    (p >>= f) text = .error fault rest := by
  show EStateM.bind p f text = _
  simp only [EStateM.bind, h]

theorem get_eq (text : List Char) : (get : Reader (List Char)) text = .ok text text :=
  rfl

/-! ## Words -/

/-- The text from the next word on. -/
def here : Reader (List Char) := do
  modify dropBlank
  get

theorem here_eq (text : List Char) : here text = .ok (dropBlank text) (dropBlank text) :=
  rfl

/-- The longest run of digits as a number, or nothing where there is no digit. A number that is out
of range is left unread. -/
def number : Reader (Option UInt32) := fun text =>
  let text := dropBlank text
  let digits := text.takeWhile Char.isDigit
  let rest := text.dropWhile Char.isDigit
  if digits = [] then
    .ok none text
  else
    match Width.unsigned32 (Nat.ofDigitChars 10 digits 0) with
    | some n => .ok (some n) rest
    | none => .error ⟨.overflow, text, rest⟩ text

/-- Whether the text goes on with a literal, which is consumed then. -/
def literal (lit : List Char) : Reader Bool := fun text =>
  let text := dropBlank text
  if lit.isPrefixOf text then .ok true (text.drop lit.length) else .ok false text

theorem literal_of_head_eq {c : Char} {text rest : List Char}
    (h : dropBlank text = c :: rest) : literal [c] text = .ok true rest := by
  simp [literal, h]

theorem literal_of_head_ne {c : Char} {text : List Char}
    (h : (dropBlank text).head? ≠ some c) :
    literal [c] text = .ok false (dropBlank text) := by
  cases hd : dropBlank text with
  | nil => simp [literal, hd]
  | cons d rest =>
    have hne : c ≠ d := fun heq => h (by simp [hd, heq])
    simp [literal, hd, hne]

/-- The fault that something is missing. Its span is the next character, or empty at the end. -/
def expected (what : String) : Reader α := do
  let text ← here
  throw ⟨.expected what, text, text.drop 1⟩

/-- A literal that has to follow. -/
def require (lit : List Char) (what : String) : Reader Unit := do
  unless ← literal lit do
    expected what

/-- Whether nothing but white space is left. -/
def atEnd : Reader Bool := do
  let text ← here
  return text.isEmpty

/-- What reads nothing consumes nothing. -/
def orUnread (p : Reader (Option α)) : Reader (Option α) := fun text =>
  match p text with
  | .ok none _ => .ok none text
  | result => result

/-- Looks ahead: what reads nothing or is at fault consumes nothing. -/
def lookFor (p : Reader (Option α)) : Reader (Option α) := fun text =>
  match p text with
  | .ok (some a) rest => .ok (some a) rest
  | _ => .ok none text

/-- The factor that an optional sign stands for. -/
def sign : Reader Int := do
  if ← literal ['+'] then return 1
  if ← literal ['-'] then return -1
  return 1

/-- A number with an optional sign. A sign that no number follows is left unread. -/
def integer : Reader (Option Int32) := do
  let start ← here
  orUnread do
    let factor ← sign
    let some n ← number | return none
    let some value := Width.signed32 (factor * n.toNat) | throw ⟨.overflow, start, ← get⟩
    return some value

/-- Reads with `p` up to the end of the text. -/
def complete (p : Reader α) : Reader α := do
  let value ← p
  let text ← here
  unless text.isEmpty do
    throw ⟨.trailingInput, text, []⟩
  return value

end Reader

end DiceTray
