import DiceTray.Cursor

/-!
# Places of a cursor

A cursor stands between two characters of its text, wherever it has been led.
What can be done with a cursor is written down as a tree of actions, since an
attempt holds actions of its own. Every reader ends at a rest of its text, so
the place it moves to is sound however it came there, and it is not before the
place it came from. Going back is sound as long as the places that were noted
are. So one action keeps a walk sound, and so does any number of them.

An offset carried over from another text need not lie between two characters.
Nothing can be read from there. Then every reader has run out of text at once,
which is why a word ends at the end of the text and a production is at fault
there.
-/

namespace DiceTray

open Text

namespace Text

/-- An offset between two characters of a text, or at one of its ends. -/
def IsBoundary (text : List Char) (offset : Nat) : Prop :=
  ∃ front back, front ++ back = text ∧ byteLength front = offset

variable {text rest : List Char} {offset : Nat}

theorem isBoundary_zero (text : List Char) : IsBoundary text 0 :=
  ⟨[], text, rfl, rfl⟩

theorem IsBoundary.le (h : IsBoundary text offset) : offset ≤ byteLength text := by
  obtain ⟨front, back, rfl, rfl⟩ := h
  rw [byteLength_append]
  omega

/-- The text before a boundary and the text from it on are the whole text. -/
theorem IsBoundary.exists_append (h : IsBoundary text offset) :
    ∃ front, front ++ dropBytes offset text = text ∧ byteLength front = offset := by
  obtain ⟨front, back, rfl, rfl⟩ := h
  exact ⟨front, by rw [dropBytes_byteLength_append], rfl⟩

theorem IsBoundary.byteLength_eq (h : IsBoundary text offset) :
    byteLength text = offset + byteLength (dropBytes offset text) := by
  obtain ⟨front, hfront, hlength⟩ := h.exists_append
  conv => lhs; rw [← hfront, byteLength_append, hlength]

/-- What is left of a text begins at a boundary. -/
theorem isBoundary_of_suffix (h : rest <:+ text) :
    IsBoundary text (byteLength text - byteLength rest) := by
  obtain ⟨front, rfl⟩ := h
  refine ⟨front, rest, rfl, ?_⟩
  rw [byteLength_append, Nat.add_sub_cancel]

/-- From an offset that is no boundary on there is no text. -/
theorem dropBytes_eq_nil_of_not_isBoundary (h : ¬ IsBoundary text offset) :
    dropBytes offset text = [] := by
  induction text generalizing offset with
  | nil => exact dropBytes_nil offset
  | cons c text ih =>
      cases offset with
      | zero => exact absurd (isBoundary_zero _) h
      | succ n =>
          rw [dropBytes]
          split
          · rename_i hsize
            apply ih
            rintro ⟨front, back, rfl, hlength⟩
            refine h ⟨c :: front, back, rfl, ?_⟩
            rw [byteLength_cons]
            omega
          · rfl

end Text

namespace Cursor

variable {α ε : Type} {p : Reader α} {c : Cursor}

/-- Where a cursor is afterwards, be it a success or not. -/
def after (p : EStateM ε Cursor α) (c : Cursor) : Cursor :=
  match p.run c with
  | .ok _ c' => c'
  | .error _ c' => c'

theorem rest_eq_nil (h : ¬ IsBoundary c.text c.position) : c.rest = [] :=
  dropBytes_eq_nil_of_not_isBoundary h

/-! ## Readers -/

theorem run_read_eq_ok_iff {a : α} {c' : Cursor} :
    (read p).run c = .ok a c' ↔ ∃ rest, p c.rest = .ok a rest ∧ c' = c.moveTo rest := by
  simp only [read, EStateM.run]
  cases p c.rest with
  | ok _ rest =>
      constructor
      · rintro ⟨⟩
        exact ⟨rest, rfl, rfl⟩
      · rintro ⟨_, ⟨⟩, rfl⟩
        rfl
  | error => simp

theorem run_read_eq_error_iff {error : ParseError} {c' : Cursor} :
    (read p).run c = .error error c' ↔
      ∃ fault rest, p c.rest = .error fault rest ∧
        error = fault.toError (byteLength c.text) ∧ c' = c.moveTo rest := by
  simp only [read, EStateM.run]
  cases p c.rest with
  | ok => simp
  | error fault rest =>
      constructor
      · rintro ⟨⟩
        exact ⟨fault, rest, rfl, rfl, rfl⟩
      · rintro ⟨_, _, ⟨⟩, rfl, rfl⟩
        rfl

theorem after_read (p : Reader α) (c : Cursor) :
    after (read p) c = c.moveTo (Reader.left (p c.rest)) := by
  simp only [after, read, EStateM.run]
  cases p c.rest <;> rfl

/-- A production moves the cursor as its reader does, or not at all. -/
theorem after_attempt_read (p : Reader α) (c : Cursor) :
    after (attempt (read p)) c = after (read p) c ∨ after (attempt (read p)) c = c := by
  simp only [after, attempt, read, EStateM.run]
  cases p c.rest with
  | ok value rest => exact Or.inl rfl
  | error fault rest => exact Or.inr rfl

theorem after_discard (p : EStateM ε Cursor α) (c : Cursor) :
    after (discard p) c = after p c := by
  show after (EStateM.map _ p) c = _
  simp only [after, EStateM.map, EStateM.run]
  cases p c <;> rfl

/-- Readers end at a boundary, from whatever offset they started. -/
theorem isBoundary_after_read (hp : p.Trailing) (c : Cursor) :
    IsBoundary c.text (after (read p) c).position := by
  rw [after_read]
  exact isBoundary_of_suffix ((hp c.rest).trans c.rest_suffix)

theorem text_after_read (p : Reader α) (c : Cursor) : (after (read p) c).text = c.text := by
  rw [after_read]
  rfl

/-- Readers go forward. -/
theorem position_le_after_read (hp : p.Trailing) (h : IsBoundary c.text c.position) :
    c.position ≤ (after (read p) c).position := by
  have htext : byteLength c.text = c.position + byteLength c.rest := h.byteLength_eq
  have hrest := byteLength_le_of_suffix (hp c.rest)
  rw [after_read]
  show c.position ≤ byteLength c.text - byteLength (Reader.left (p c.rest))
  omega

/-- Readers that find no text end where it ends. -/
theorem position_after_read_of_rest_eq_nil (hp : p.Trailing) (h : c.rest = []) :
    (after (read p) c).position = byteLength c.text := by
  have hleft : Reader.left (p c.rest) = [] := by
    rw [h]
    exact List.suffix_nil.mp (hp [])
  rw [after_read, hleft]
  exact Nat.sub_zero _

theorem run_discard_attempt_read_of_error {fault : Fault} (h : c.rest = [])
    (hp : p [] = .error fault []) :
    (discard (attempt (read p))).run c =
      .error (fault.toError (byteLength c.text)) c := by
  show EStateM.map _ (attempt (read p)) c = _
  simp only [EStateM.map, attempt, read, EStateM.run, h, hp]
  rfl

/-! ## What can be done with a cursor -/

/-- Reading a single word, or the fault that it is missing. -/
inductive Word where
  | skipBlank
  | atEnd
  | number
  | integer
  | literal (lit : String)
  | expected (what : String)

inductive Production where
  | term
  | chain
  | clause
  | clauses

def Word.program : Word → EStateM ParseError Cursor Unit
  | .skipBlank => Cursor.skipBlank
  | .atEnd => discard Cursor.atEnd
  | .number => discard Cursor.number
  | .integer => discard Cursor.integer
  | .literal lit => discard (Cursor.literal lit)
  | .expected what => Cursor.expected what

def Production.program : Production → EStateM ParseError Cursor Unit
  | .term => discard Cursor.term
  | .chain => discard Cursor.chain
  | .clause => discard Cursor.clause
  | .clauses => discard Cursor.clauses

/-- A step on the way of a cursor. The places that are noted are numbered in the
order in which they are, and it is to one of these that the cursor is taken
back. An attempt consists of actions of its own, and it succeeds or fails. -/
inductive Action where
  | word (word : Word)
  | production (production : Production)
  | note
  | goBack (index : Nat)
  | attempt (actions : List Action) (succeeds : Bool)

/-- A cursor on its way, with the places that were noted. -/
structure Walk where
  cursor : Cursor
  noted : List Nat

mutual
/-- Where an action leads. -/
def Action.lead : Action → Walk → Walk
  | .word u, w => { w with cursor := after u.program w.cursor }
  | .production p, w => { w with cursor := after p.program w.cursor }
  | .note, w => { w with noted := w.noted ++ [w.cursor.position] }
  | .goBack index, w =>
    match w.noted[index]? with
    | none => w
    | some place => { w with cursor := after (restore place : EStateM ParseError _ _) w.cursor }
  | .attempt actions succeeds, w =>
    let inside : EStateM (List Nat) Cursor (List Nat) := fun c =>
      let last := Action.leadAll actions ⟨c, w.noted⟩
      if succeeds then .ok last.noted last.cursor else .error last.noted last.cursor
    match (Cursor.attempt inside).run w.cursor with
    | .ok noted cursor => ⟨cursor, noted⟩
    | .error noted cursor => ⟨cursor, noted⟩

/-- Where actions lead one after the other. -/
def Action.leadAll : List Action → Walk → Walk
  | [], w => w
  | action :: actions, w => Action.leadAll actions (action.lead w)
end

/-- Where actions lead from the start of a text. -/
def cursorAfter (text : String) (actions : List Action) : Cursor :=
  (Action.leadAll actions ⟨ofString text, []⟩).cursor

/-! ## One action -/

/-- Words are readers. -/
theorem Word.exists_reader (u : Word) :
    ∃ (α : Type) (p : Reader α), p.Trailing ∧ ∀ c, after u.program c = after (read p) c := by
  cases u with
  | skipBlank => exact ⟨Unit, discard Reader.here, dropBlank_suffix, fun _ => rfl⟩
  | atEnd =>
      exact ⟨_, _, Reader.trailing_here.bind fun _ => Reader.trailing_pure _, after_discard _⟩
  | number => exact ⟨_, _, Reader.trailing_number, after_discard _⟩
  | integer => exact ⟨_, _, Reader.trailing_integer, after_discard _⟩
  | literal lit => exact ⟨_, _, Reader.trailing_literal _, after_discard _⟩
  | expected what => exact ⟨_, _, Reader.trailing_expected what, fun _ => rfl⟩

/-- Productions are attempts at readers that need a letter. -/
theorem Production.exists_reader (q : Production) :
    ∃ (α : Type) (p : Reader α), p.Trailing ∧ p [] = .error ⟨.expected "'d'", [], []⟩ [] ∧
      q.program = discard (attempt (read p)) := by
  cases q with
  | term => exact ⟨_, _, Reader.trailing_term, rfl, rfl⟩
  | chain => exact ⟨_, _, Reader.trailing_chain, rfl, rfl⟩
  | clause => exact ⟨_, _, Reader.trailing_clause, rfl, rfl⟩
  | clauses =>
      refine ⟨_, _, Reader.trailing_clauses, ?_, rfl⟩
      rw [Reader.clauses_eq]
      exact Reader.bind_of_error rfl

/-- A production ends where its reader does, or where it began. -/
theorem Production.after_eq_or (q : Production) (c : Cursor) :
    (∃ (α : Type) (p : Reader α), p.Trailing ∧ after q.program c = after (read p) c) ∨
      after q.program c = c := by
  obtain ⟨α, p, hp, -, hq⟩ := q.exists_reader
  rw [hq, after_discard]
  exact (after_attempt_read p c).imp_left fun h => ⟨α, p, hp, h⟩

theorem Action.lead_attempt (actions : List Action) (succeeds : Bool) (w : Walk) :
    (attempt actions succeeds).lead w =
      ⟨if succeeds then (leadAll actions w).cursor
        else { (leadAll actions w).cursor with position := w.cursor.position },
        (leadAll actions w).noted⟩ := by
  cases succeeds <;> rfl

/-! ## Any actions -/

/-- A walk that has stayed on one text, with every place between characters. -/
structure Walk.Sound (text : List Char) (w : Walk) : Prop where
  text_eq : w.cursor.text = text
  place : IsBoundary text w.cursor.position
  noted : ∀ place ∈ w.noted, IsBoundary text place

namespace Walk.Sound

variable {text : List Char} {w : Walk}

/-- A reader leads to a sound place. -/
theorem read (h : w.Sound text) (hp : p.Trailing) :
    Walk.Sound text { w with cursor := after (Cursor.read p) w.cursor } where
  text_eq := (text_after_read p w.cursor).trans h.text_eq
  place := h.text_eq ▸ isBoundary_after_read hp w.cursor
  noted := h.noted

theorem word (h : w.Sound text) (u : Word) : ((Action.word u).lead w).Sound text := by
  obtain ⟨α, p, hp, hu⟩ := u.exists_reader
  rw [Action.lead, hu]
  exact h.read hp

theorem production (h : w.Sound text) (q : Production) :
    ((Action.production q).lead w).Sound text := by
  rw [Action.lead]
  rcases q.after_eq_or w.cursor with ⟨α, p, hp, hq⟩ | hq
  · rw [hq]
    exact h.read hp
  · rw [hq]
    exact h

theorem note (h : w.Sound text) : (Action.note.lead w).Sound text where
  text_eq := h.text_eq
  place := h.place
  noted place hplace := by
    rcases List.mem_append.mp hplace with hold | hnew
    · exact h.noted place hold
    · rw [List.mem_singleton.mp hnew]
      exact h.place

theorem goBack (h : w.Sound text) (index : Nat) :
    ((Action.goBack index).lead w).Sound text := by
  rw [Action.lead]
  cases hplace : w.noted[index]? with
  | none => exact h
  | some place =>
      exact ⟨h.text_eq, h.noted place (List.mem_of_getElem? hplace), h.noted⟩

/-- An attempt that fails goes back to the place that it came from. -/
theorem attempt {actions : List Action} (h : w.Sound text)
    (hinside : (Action.leadAll actions w).Sound text) (succeeds : Bool) :
    ((Action.attempt actions succeeds).lead w).Sound text := by
  rw [Action.lead_attempt]
  cases succeeds with
  | true => exact hinside
  | false => exact ⟨hinside.text_eq, h.place, hinside.noted⟩

end Walk.Sound

mutual
theorem Action.sound_lead {text : List Char} :
    ∀ (action : Action) {w : Walk}, w.Sound text → (action.lead w).Sound text
  | .word u, _, h => h.word u
  | .production q, _, h => h.production q
  | .note, _, h => h.note
  | .goBack index, _, h => h.goBack index
  | .attempt actions succeeds, _, h => h.attempt (Action.sound_leadAll actions h) succeeds

theorem Action.sound_leadAll {text : List Char} :
    ∀ (actions : List Action) {w : Walk}, w.Sound text → (leadAll actions w).Sound text
  | [], _, h => h
  | action :: actions, _, h => Action.sound_leadAll actions (Action.sound_lead action h)
end

theorem sound_ofString (text : String) : Walk.Sound text.toList ⟨ofString text, []⟩ where
  text_eq := rfl
  place := isBoundary_zero _
  noted _ h := absurd h List.not_mem_nil

/-- **Cursors are sound.** Whatever is done with a cursor from the start of a text,
it stands between two characters of the text: what stands in front of it and
what it has to read are the whole text. No reader goes back from there. From an
offset that is not between two characters there is nothing to read, a word ends
at the end of the text, and a production misses its letter there and stays where
it is.

An attempt is no exception: what has been done inside it so far leads to the
same place as without it. -/
theorem cursor_sound (text : String) :
    (∀ actions : List Action,
      (cursorAfter text actions).text = text.toList ∧
      (cursorAfter text actions).position ≤ text.utf8ByteSize ∧
      (∃ front, front ++ (cursorAfter text actions).rest = text.toList ∧
        byteLength front = (cursorAfter text actions).position) ∧
      (∀ u : Word, (cursorAfter text actions).position ≤
        (after u.program (cursorAfter text actions)).position) ∧
      ∀ q : Production, (cursorAfter text actions).position ≤
        (after q.program (cursorAfter text actions)).position) ∧
    ∀ position, ¬ IsBoundary text.toList position →
      (⟨text.toList, position⟩ : Cursor).rest = [] ∧
      (∀ u : Word, (after u.program ⟨text.toList, position⟩).position = text.utf8ByteSize) ∧
      ∀ q : Production, q.program.run ⟨text.toList, position⟩ =
        .error ⟨.expected "'d'", ⟨text.utf8ByteSize, text.utf8ByteSize⟩⟩
          ⟨text.toList, position⟩ := by
  have hsize : byteLength text.toList = text.utf8ByteSize := byteLength_toList text
  refine ⟨fun actions => ?_, fun position h => ?_⟩
  · have hsound : Walk.Sound text.toList (Action.leadAll actions ⟨ofString text, []⟩) :=
      Action.sound_leadAll actions (sound_ofString text)
    have htext : (cursorAfter text actions).text = text.toList := hsound.text_eq
    have hplace : IsBoundary text.toList (cursorAfter text actions).position := hsound.place
    generalize cursorAfter text actions = c at htext hplace ⊢
    rw [← htext] at hplace
    refine ⟨htext, ?_, htext ▸ hplace.exists_append, fun u => ?_, fun q => ?_⟩
    · rw [← hsize, ← htext]
      exact hplace.le
    · obtain ⟨α, p, hp, hu⟩ := u.exists_reader
      rw [hu]
      exact position_le_after_read hp hplace
    · rcases q.after_eq_or c with ⟨α, p, hp, hq⟩ | hq
      · rw [hq]
        exact position_le_after_read hp hplace
      · exact Nat.le_of_eq (congrArg position hq.symm)
  · have hrest : (⟨text.toList, position⟩ : Cursor).rest = [] := rest_eq_nil h
    refine ⟨hrest, fun u => ?_, fun q => ?_⟩
    · obtain ⟨α, p, hp, hu⟩ := u.exists_reader
      rw [hu, position_after_read_of_rest_eq_nil hp hrest, hsize]
    · obtain ⟨α, p, -, hp, hq⟩ := q.exists_reader
      rw [hq, run_discard_attempt_read_of_error hrest hp, ← hsize]
      rfl

/-- An offset inside the first letter. -/
theorem cursor_sound_inside :
    ¬ IsBoundary "éd6".toList 1 ∧ (⟨"éd6".toList, 1⟩ : Cursor).rest = [] ∧
      (after Word.number.program ⟨"éd6".toList, 1⟩).position = 4 ∧
      Production.chain.program.run ⟨"éd6".toList, 1⟩ =
        .error ⟨.expected "'d'", ⟨4, 4⟩⟩ ⟨"éd6".toList, 1⟩ := by
  have h : ¬ IsBoundary "éd6".toList 1 := fun hplace =>
    absurd hplace.byteLength_eq (by decide +kernel)
  obtain ⟨hrest, hwords, hproductions⟩ := (cursor_sound "éd6").2 1 h
  exact ⟨h, hrest, hwords .number, hproductions .chain⟩

end Cursor

end DiceTray
