import DiceTray.Reader.Roll

/-!
# Cursors

A cursor is a text with a place in it, for reading a text piece by piece. The place is a plain byte
offset, so it can be remembered and returned to. It can also be carried to another text, where it
may lie past the end or inside a character. From such a place nothing can be read, and the first
reader that looks for a word comes out at the end of the text.

Readers do all the reading. The productions of the language are run so that one that fails leaves
the cursor where it was.
-/

namespace DiceTray

open Text

/-- A text and a byte offset into it. -/
structure Cursor where
  text : List Char
  position : Nat
deriving DecidableEq

namespace Cursor

variable {α ε : Type}

/-- A cursor at the start of a text. -/
def ofString (text : String) : Cursor := ⟨text.toList, 0⟩

/-- The text that is still to be read. -/
def rest (c : Cursor) : List Char :=
  dropBytes c.position c.text

/-- The cursor at the place in its text that `rest` follows. -/
def moveTo (c : Cursor) (rest : List Char) : Cursor :=
  { c with position := byteLength c.text - byteLength rest }

/-- Reads from the cursor on, which ends where the reader left off. -/
def read (p : Reader α) : EStateM ParseError Cursor α := fun c =>
  match p.run c.rest with
  | .ok value rest => .ok value (c.moveTo rest)
  | .error fault rest => .error (fault.toError (byteLength c.text)) (c.moveTo rest)

/-- Returns to a place. -/
def restore (position : Nat) : EStateM ε Cursor Unit :=
  modify fun c => { c with position }

/-- On failure the cursor goes back to the place it came from, in whatever text it has then. -/
def attempt (p : EStateM ε Cursor α) : EStateM ε Cursor α := fun c =>
  match p.run c with
  | .ok value c' => .ok value c'
  | .error error c' => .error error { c' with position := c.position }

/-! ## Words

The readers of single words, from a cursor on. -/

def skipBlank : EStateM ParseError Cursor Unit := read (discard Reader.here)

def atEnd : EStateM ParseError Cursor Bool := read Reader.atEnd

def number : EStateM ParseError Cursor (Option UInt32) := read Reader.number

def integer : EStateM ParseError Cursor (Option Int32) := read Reader.integer

def literal (lit : String) : EStateM ParseError Cursor Bool := read (Reader.literal lit.toList)

def expected (what : String) : EStateM ParseError Cursor α := read (Reader.expected what)

/-! ## Productions

The readers of a term, a chain, a clause and a roll. -/

def term : EStateM ParseError Cursor Dice := attempt (read Reader.term)

def chain : EStateM ParseError Cursor Expr := attempt (read Reader.chain)

def clause : EStateM ParseError Cursor (List Expr) := attempt (read Reader.clause)

def clauses : EStateM ParseError Cursor (List Expr) := attempt (read Reader.clauses)

/-! ## Places -/

theorem rest_suffix (c : Cursor) : c.rest <:+ c.text :=
  dropBytes_suffix _ _

/-- A cursor that has been moved to a rest of its text has just that to read. -/
theorem rest_moveTo {c : Cursor} {rest : List Char} (h : rest <:+ c.text) :
    (c.moveTo rest).rest = rest := by
  obtain ⟨front, hfront⟩ := h
  simp only [moveTo, Cursor.rest, ← hfront, byteLength_append, Nat.add_sub_cancel]
  exact dropBytes_byteLength_append front rest

end Cursor

end DiceTray
