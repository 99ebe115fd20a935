import DiceTray.Proofs.Joining
import DiceTray.Proofs.Local

/-!
# Dead ends

Where a character stands in place of the letter or the sides of a term, where a
repeat count is too large, and where a chain gets too long, a text is lost: with
anything else behind the blamed part the same is blamed. Every reader that fails
like this does so whatever stands behind (`Blocks`). What was read before has to
stand as well, so each reader says what it has seen in front of a dead end: at
least one character, or even a mark that is no sign, behind which nothing is
noticed any more (`Marked`).

In front of a clause a number is looked for that an `x` follows. If there is none,
there is none with another text behind the dead end either. The chain would fail
at this `x`, so the `x` would be the dead end, and it stands on both sides.
-/

namespace DiceTray

open Text Written

/-- Faults that no text behind the blamed part can repair. -/
inductive Dead : Fault → Prop
  | missing {what : String} {c : Char} {rest : List Char} :
      Dead ⟨.expected what, c :: rest, rest⟩
  | tooManyRepeats {start stop : List Char} : Dead ⟨.tooManyRepeats, start, stop⟩
  | chainTooLong {start stop : List Char} : Dead ⟨.chainTooLong, start, stop⟩

namespace Reader

variable {α β : Type} {text rest stop stop' : List Char}

/-! ## Places in front of a dead end -/

/-- A place in front of `stop` is carried over to a text with `stop'` instead. -/
def Moves (stop stop' start start' : List Char) : Prop :=
  ∀ between, start = between ++ stop → start' = between ++ stop'

theorem moves_append (front : List Char) :
    Moves stop stop' (front ++ stop) (front ++ stop') := by
  intro between h
  rw [List.append_cancel_right h]

theorem exists_moves (stop stop' start : List Char) :
    ∃ start', Moves stop stop' start start' := by
  refine ⟨start.take (start.length - stop.length) ++ stop', ?_⟩
  rintro between rfl
  simp

/-- The same fault of a text that goes on in another way. -/
structure Moved (stop stop' : List Char) (fault fault' : Fault) : Prop where
  kind : fault'.kind = fault.kind
  start : Moves stop stop' fault.start fault'.start
  stop_eq : fault'.stop = stop'

/-- A mark is the first word, and it is no sign. -/
def Marked (front : List Char) : Prop :=
  ∃ c more, dropBlank front = c :: more ∧ c ≠ '+' ∧ c ≠ '-'

theorem Marked.ne_nil {front : List Char} (h : Marked front) : front ≠ [] := by
  rintro rfl
  obtain ⟨c, more, hd, -⟩ := h
  cases hd

theorem sameNext_of_ne_nil {front : List Char} (h : front ≠ []) :
    SameNext (front ++ rest) (front ++ stop) := by
  cases front with
  | nil => exact absurd rfl h
  | cons c front => exact sameNext_of_cons

/-- Behind a mark that is no sign nothing is noticed. -/
theorem Marked.unnoticed {front : List Char} (h : Marked front) :
    Unnoticed (front ++ rest) (front ++ stop) := by
  obtain ⟨c, more, hd, plus, minus⟩ := id h
  have hsign : ∀ back, behindSign (front ++ back) = c :: (more ++ back) := fun back => by
    rw [behindSign_of_cons (dropBlank_append_of_eq_cons hd back),
      if_neg (not_or_intro plus minus)]
  have hword : ∀ back, dropBlank (c :: (more ++ back)) = c :: (more ++ back) := fun back =>
    dropBlank_cons_of_not_isBlank (isBlank_of_dropBlank_eq_cons hd) _
  refine ⟨sameNext_of_ne_nil h.ne_nil, ?_, ?_⟩
  · unfold NoNumber
    rw [dropBlank_append_of_eq_cons hd, dropBlank_append_of_eq_cons hd]
    exact id
  · unfold NoNumber
    rw [hsign, hsign, hword, hword]
    exact id

/-! ## Readers that run into dead ends -/

/-- If `p` runs into a dead end in front of `stop`, then it has passed a part of
the text of which `L` holds, and `q` does the same in front of `stop'`. -/
def Blocks (L : List Char → Prop) (stop stop' : List Char) (p q : Reader α)
    (text : List Char) : Prop :=
  ∀ fault rest, p text = .error fault rest → Dead fault → fault.stop = stop →
    ∃ front, text = front ++ stop ∧ L front ∧
      ∃ fault' rest', q (front ++ stop') = .error fault' rest' ∧
        Moved stop stop' fault fault'

section Steps

variable {L M : List Char → Prop} {p q : Reader α}

theorem Blocks.mono (h : Blocks L stop stop' p q text) (imp : ∀ front, L front → M front) :
    Blocks M stop stop' p q text := by
  intro fault rest hp dead hstop
  obtain ⟨front, htext, hL, hq⟩ := h fault rest hp dead hstop
  exact ⟨front, htext, imp front hL, hq⟩

/-- A reader whose faults can all be repaired. -/
theorem blocks_of_not_dead (h : ∀ fault rest, p text = .error fault rest → ¬ Dead fault) :
    Blocks L stop stop' p q text :=
  fun fault rest hp dead _ => absurd dead (h fault rest hp)

theorem blocks_pure (a : α) : Blocks L stop stop' (pure a) q text :=
  blocks_of_not_dead fun _ _ h => by cases h

theorem blocks_literal {c : Char} {q : Reader Bool} :
    Blocks L stop stop' (literal [c]) q text :=
  blocks_of_not_dead fun _ _ h => absurd h literal_ne_error

theorem blocks_of_overflow
    (h : ∀ fault rest, p text = .error fault rest → fault.kind = .overflow) :
    Blocks L stop stop' p q text :=
  blocks_of_not_dead fun fault rest hp dead => by
    have hkind := h fault rest hp
    cases dead <;> cases hkind

/-- A fault that ends here, whatever follows. -/
theorem blocks_fail {kind : ParseError.Kind} {start start' : List Char}
    (h : Moves stop stop' start start') :
    Blocks (fun _ => True) stop stop' (do throw ⟨kind, start, ← get⟩ : Reader α)
      (do throw ⟨kind, start', ← get⟩) text := by
  intro fault rest hp _ hstop
  cases hp
  obtain rfl : text = stop := hstop
  exact ⟨[], rfl, trivial, _, _, rfl, ⟨rfl, h, rfl⟩⟩

/-- The character in place of what is missing is passed. -/
theorem blocks_expected {what : String} :
    Blocks (· ≠ []) stop stop' (expected what : Reader α) (expected what) text := by
  intro fault rest hp dead hstop
  have hfault : (⟨.expected what, dropBlank text, (dropBlank text).drop 1⟩ : Fault) =
      fault := by
    cases hp
    rfl
  cases hd : dropBlank text with
  | nil =>
      rw [hd] at hfault
      subst hfault
      cases dead
  | cons c more =>
      rw [hd] at hfault
      subst hfault
      obtain rfl : more = stop := hstop
      have hword : dropBlank text = [c] ++ more := hd
      refine ⟨leadingBlanks text ++ [c], eq_leadingBlanks_append hword, by simp,
        ⟨.expected what, c :: stop', stop'⟩, c :: stop', ?_, ⟨rfl, moves_append [c], rfl⟩⟩
      rw [expected, bind_of_ok (here_eq _), SameNext.dropBlank_append hword sameNext_of_cons]
      rfl

theorem Blocks.bind {K : List Char → List Char → Prop} {f g : α → Reader β}
    (stands : Stands K p q text) (hp : Blocks (· ≠ []) stop stop' p q text)
    (hf : ∀ a mid, p text = .ok a mid → Blocks L stop stop' (f a) (g a) mid)
    (same : ∀ front, L front → front ≠ [] ∧ K (front ++ stop) (front ++ stop')) :
    Blocks (· ≠ []) stop stop' (p >>= f) (q >>= g) text := by
  intro fault rest h dead hstop
  rcases bind_eq_error_iff.mp h with h | ⟨a, mid, hpa, h⟩
  · obtain ⟨front, htext, hne, fault', rest', hq, hmoved⟩ := hp fault rest h dead hstop
    exact ⟨front, htext, hne, fault', rest', bind_of_error hq, hmoved⟩
  · obtain ⟨front, rfl, hL, fault', rest', hg, hmoved⟩ := hf a mid hpa fault rest h dead hstop
    obtain ⟨hne, hK⟩ := same front hL
    obtain ⟨read, rfl, hq⟩ := stands a _ hpa
    refine ⟨read ++ front, (List.append_assoc ..).symm,
      List.append_ne_nil_of_right_ne_nil read hne, fault', rest', ?_, hmoved⟩
    rw [List.append_assoc, bind_of_ok (hq _ hK)]
    exact hg

theorem Blocks.bind_word {f g : α → Reader β} (stands : Stands SameNext p q text)
    (hp : Blocks (· ≠ []) stop stop' p q text)
    (hf : ∀ a mid, p text = .ok a mid → Blocks (· ≠ []) stop stop' (f a) (g a) mid) :
    Blocks (· ≠ []) stop stop' (p >>= f) (q >>= g) text :=
  Blocks.bind stands hp hf fun _ hne => ⟨hne, sameNext_of_ne_nil hne⟩

theorem Blocks.bind_marked {f g : α → Reader β} (stands : Stands Unnoticed p q text)
    (hp : Blocks (· ≠ []) stop stop' p q text)
    (hf : ∀ a mid, p text = .ok a mid → Blocks Marked stop stop' (f a) (g a) mid) :
    Blocks (· ≠ []) stop stop' (p >>= f) (q >>= g) text :=
  Blocks.bind stands hp hf fun _ hmark => ⟨hmark.ne_nil, hmark.unnoticed⟩

/-- What is done with the value changes no fault. -/
theorem Blocks.map {f : α → β} (h : Blocks L stop stop' p q text) :
    Blocks L stop stop' (do return f (← p)) (do return f (← q)) text := by
  intro fault rest hp dead hstop
  rcases bind_eq_error_iff.mp hp with hp | ⟨a, mid, -, hp⟩
  · obtain ⟨front, htext, hL, fault', rest', hq, hmoved⟩ := h fault rest hp dead hstop
    exact ⟨front, htext, hL, fault', rest', bind_of_error hq, hmoved⟩
  · cases hp

/-- The place where a reader begins is the same on both sides, once it is known
what stands in front of the dead end. -/
theorem Blocks.get_bind {f g : List Char → Reader α}
    (hf : ∀ start', Moves stop stop' text start' →
      Blocks L stop stop' (f text) (g start') text) :
    Blocks L stop stop' (get >>= f) (get >>= g) text := by
  intro fault rest h dead hstop
  obtain ⟨start', hstart⟩ := exists_moves stop stop' text
  obtain ⟨front, rfl, -⟩ := hf start' hstart fault rest h dead hstop
  obtain ⟨front', heq, hL, hq⟩ := hf _ (moves_append front) fault rest h dead hstop
  obtain rfl := List.append_cancel_right heq
  exact ⟨front, rfl, hL, hq⟩

theorem Blocks.here_bind {f g : List Char → Reader α}
    (hf : ∀ start', Moves stop stop' (dropBlank text) start' →
      Blocks (· ≠ []) stop stop' (f (dropBlank text)) (g start') (dropBlank text)) :
    Blocks (· ≠ []) stop stop' (here >>= f) (here >>= g) text := by
  intro fault rest h dead hstop
  obtain ⟨front, hd, hne, fault', rest', hq, hmoved⟩ :=
    Blocks.get_bind hf fault rest h dead hstop
  refine ⟨leadingBlanks text ++ front, eq_leadingBlanks_append hd,
    List.append_ne_nil_of_right_ne_nil _ hne, fault', rest', ?_, hmoved⟩
  rw [bind_of_ok (here_eq _), SameNext.dropBlank_append hd (sameNext_of_ne_nil hne)]
  exact hq

/-- Behind a mark everything may change, for the mark has been read. -/
theorem Blocks.mark {c : Char} {f g : Bool → Reader α} (plus : c ≠ '+') (minus : c ≠ '-')
    (found : ∀ mid, dropBlank text = c :: mid →
      Blocks (fun _ => True) stop stop' (f true) (g true) mid)
    (missing : ∀ mid fault rest, f false mid ≠ .error fault rest) :
    Blocks Marked stop stop' (literal [c] >>= f) (literal [c] >>= g) text := by
  intro fault rest h dead hstop
  rcases bind_eq_error_iff.mp h with h | ⟨_ | _, mid, hmark, h⟩
  · exact absurd h literal_ne_error
  · exact absurd h (missing mid fault rest)
  · have hd := literal_eq_true_iff.mp hmark
    obtain ⟨front, rfl, -, fault', rest', hg, hmoved⟩ :=
      found mid hd fault rest h dead hstop
    have hword : dropBlank text = c :: front ++ stop := hd
    have hmark : Marked (leadingBlanks text ++ c :: front) :=
      ⟨c, front, SameNext.dropBlank_eq (hd ▸ sameNext_of_cons), plus, minus⟩
    refine ⟨leadingBlanks text ++ c :: front, eq_leadingBlanks_append hword, hmark, fault',
      rest', ?_, hmoved⟩
    rw [bind_of_ok (literal_of_head_eq (SameNext.dropBlank_append hword sameNext_of_cons))]
    exact hg

end Steps

/-! ## Terms -/

theorem blocks_number : Blocks (· ≠ []) stop stop' number number text :=
  blocks_of_overflow fun _ _ => kind_of_number

theorem blocks_require {c : Char} {what : String} :
    Blocks (· ≠ []) stop stop' (require [c] what) (require [c] what) text := by
  apply Blocks.bind_word stands_literal blocks_literal
  rintro (_ | _) mid _
  · exact blocks_expected
  · exact blocks_pure ()

theorem kind_of_integer {fault : Fault} (h : integer text = .error fault rest) :
    fault.kind = .overflow := by
  rw [integer_eq, bind_of_ok (here_eq text)] at h
  obtain ⟨-, factor, -, -, hsign⟩ := exists_sign (dropBlank text)
  have hsigned : signed (dropBlank text) (dropBlank text) = .error fault rest := by
    unfold orUnread at h
    split at h
    · cases h
    · exact h
  rw [signed, bind_of_ok hsign] at hsigned
  rcases bind_eq_error_iff.mp hsigned with hnumber | ⟨_ | n, mid, -, hvalue⟩
  · exact kind_of_number hnumber
  · cases hvalue
  · dsimp only at hvalue
    rcases hwidth : Width.signed32 (factor * n.toNat) with _ | value
    · rw [hwidth] at hvalue
      cases hvalue
      rfl
    · rw [hwidth] at hvalue
      cases hvalue

/-- Behind the sides of a term nothing is a dead end. -/
theorem blocks_afterLetter (start start' : List Char) (count : UInt32) :
    Blocks (· ≠ []) stop stop' (afterLetter start count) (afterLetter start' count)
      text := by
  apply Blocks.bind_word stands_number blocks_number
  rintro (_ | sides) mid _
  · exact blocks_expected
  · apply Blocks.bind_marked stands_integer (blocks_of_overflow fun _ _ => kind_of_integer)
    intro modifier mid' _
    rcases Dice.Request.check ⟨count, sides, modifier.getD 0⟩ with error | dice
    · refine blocks_of_not_dead fun fault rest h dead => ?_
      cases h
      cases dead
    · exact blocks_pure dice

theorem blocks_term : Blocks (· ≠ []) stop stop' term term text := by
  refine Blocks.here_bind fun start' _ => ?_
  apply Blocks.bind_word stands_number blocks_number
  intro count mid _
  apply Blocks.bind_word stands_require blocks_require
  exact fun _ mid' _ => blocks_afterLetter _ start' _

theorem blocks_moreTerms {start start' : List Char} (h : Moves stop stop' start start')
    (room : Nat) :
    Blocks Marked stop stop' (moreTerms start room) (moreTerms start' room) text := by
  induction room generalizing text with
  | zero =>
      rw [moreTerms, moreTerms]
      apply Blocks.mark (by decide) (by decide)
      · exact fun mid _ => blocks_fail h
      · intro mid fault rest h
        cases h
  | succ room ih =>
      rw [moreTerms, moreTerms]
      apply Blocks.mark (by decide) (by decide)
      · intro mid _
        refine Blocks.mono (L := (· ≠ [])) ?_ fun _ _ => trivial
        apply Blocks.bind_marked stands_term blocks_term
        exact fun d mid' _ => ih.map
      · intro mid fault rest h
        cases h

theorem blocks_chain : Blocks (· ≠ []) stop stop' chain chain text := by
  refine Blocks.get_bind fun start' hstart => ?_
  apply Blocks.bind_marked stands_term blocks_term
  exact fun d mid _ => (blocks_moreTerms hstart _).map

/-! ## Clauses -/

theorem copies_eq_error_iff {n : Nat} {fault : Fault} :
    copies n text = .error fault rest ↔ chain text = .error fault rest := by
  unfold copies
  rw [bind_eq_error_iff, or_iff_left]
  rintro ⟨e, mid, -, h⟩
  cases h

/-- If no count was read in front of a dead end, none is read with another text
behind it. -/
theorem not_counted_of_dead {front : List Char} {fault fault' : Fault}
    (free : ∀ n mid, counted (front ++ stop) ≠ .ok (some n) mid)
    (h : chain (front ++ stop') = .error fault' rest)
    (hmoved : Moved stop stop' fault fault') (n : UInt32) (mid : List Char) :
    counted (front ++ stop') ≠ .ok (some n) mid := by
  intro hcount
  rw [chain_of_counted hcount] at h
  cases h
  obtain rfl : mid = stop' := hmoved.stop_eq
  obtain ⟨read, heq, hread⟩ := counted_stands hcount
  obtain rfl := List.append_cancel_right heq
  exact free n stop (hread stop)

theorem moves_dropBlank {front : List Char} (h : dropBlank front ≠ []) :
    Moves stop stop' (dropBlank (front ++ stop)) (dropBlank (front ++ stop')) := by
  obtain ⟨c, more, hd⟩ := List.exists_cons_of_ne_nil h
  rw [dropBlank_append_of_eq_cons hd, dropBlank_append_of_eq_cons hd]
  exact moves_append (c :: more)

theorem dropBlank_ne_nil_of_counted {n : UInt32} (h : counted text = .ok (some n) rest) :
    dropBlank text ≠ [] := by
  obtain ⟨mid, hnumber, -⟩ := counted_eq_some_iff.mp h
  obtain ⟨digits, hd, run, -⟩ := number_eq_some_iff.mp hnumber
  rw [hd]
  exact List.append_ne_nil_of_left_ne_nil run.ne_nil mid

/-- A clause with a count. The count has been read, whatever stands behind its
`x`. -/
theorem blocks_clause_of_counted {n : UInt32} {mid : List Char}
    (hcount : counted text = .ok (some n) mid) :
    Blocks (· ≠ []) stop stop' clause clause text := by
  intro fault rest h dead hstop
  obtain ⟨read, rfl, hread⟩ := counted_stands hcount
  have hne : dropBlank read ≠ [] := by
    have hend := hread []
    rw [List.append_nil] at hend
    exact dropBlank_ne_nil_of_counted hend
  by_cases many : maxRepeats < n.toNat
  · rw [clause_of_many hcount many] at h
    cases h
    obtain rfl : mid = stop := hstop
    exact ⟨read, rfl, fun hnil => hne (hnil ▸ dropBlank_nil), _, _,
      clause_of_many (hread stop') many, ⟨rfl, moves_dropBlank hne, rfl⟩⟩
  · rw [clause_of_counted hcount many, copies_eq_error_iff] at h
    obtain ⟨front, rfl, hfront, fault', rest', hq, hmoved⟩ :=
      blocks_chain fault rest h dead hstop
    refine ⟨read ++ front, (List.append_assoc ..).symm,
      List.append_ne_nil_of_right_ne_nil read hfront, fault', rest', ?_, hmoved⟩
    rw [List.append_assoc, clause_of_counted (hread _) many, copies_eq_error_iff]
    exact hq

/-- A clause without a count, which has none on the other side either. -/
theorem blocks_clause_of_not_counted (free : ∀ n mid, counted text ≠ .ok (some n) mid) :
    Blocks (· ≠ []) stop stop' clause clause text := by
  intro fault rest h dead hstop
  rw [clause_of_not_counted free, copies_eq_error_iff] at h
  obtain ⟨front, hd, hne, fault', rest', hq, hmoved⟩ :=
    blocks_chain fault rest h dead hstop
  have hdrop : dropBlank (leadingBlanks text ++ front ++ stop') = front ++ stop' :=
    SameNext.dropBlank_append hd (sameNext_of_ne_nil hne)
  have free' : ∀ n mid, counted (leadingBlanks text ++ front ++ stop') ≠
      .ok (some n) mid := by
    rw [← counted_dropBlank, hdrop]
    exact not_counted_of_dead (by rwa [← hd, counted_dropBlank]) hq hmoved
  refine ⟨leadingBlanks text ++ front, eq_leadingBlanks_append hd,
    List.append_ne_nil_of_right_ne_nil _ hne, fault', rest', ?_, hmoved⟩
  rw [clause_of_not_counted free', hdrop, copies_eq_error_iff]
  exact hq

theorem blocks_clause : Blocks (· ≠ []) stop stop' clause clause text := by
  by_cases hcount : ∃ n mid, counted text = .ok (some n) mid
  · obtain ⟨n, mid, hcount⟩ := hcount
    exact blocks_clause_of_counted hcount
  · exact blocks_clause_of_not_counted fun n mid h => hcount ⟨n, mid, h⟩

/-! ## Rolls -/

theorem blocks_clauses : Blocks (· ≠ []) stop stop' clauses clauses text := by
  -- Every clause shortens the text.
  induction hn : text.length using Nat.strongRecOn generalizing text with
  | ind n ih =>
      subst hn
      rw [clauses_eq]
      apply Blocks.bind_marked stands_clause blocks_clause
      intro es mid hfirst
      apply Blocks.mark (by decide) (by decide)
      · intro mid' hd
        have shorter := Nat.lt_trans
          (length_lt_of_literal (by simp) (literal_of_head_eq hd))
          (shortens_clause _ _ _ hfirst)
        exact (ih _ shorter rfl).map.mono fun _ _ => trivial
      · intro mid' fault rest h
        cases h

/-! ## Whole texts -/

/-- A whole text that runs into a dead end does so whatever stands behind. -/
theorem exists_deadEnd_of_complete {p : Reader α}
    (blocks : ∀ {stop stop' text}, Blocks (· ≠ []) stop stop' p p text) {fault : Fault}
    (h : complete p text = .error fault rest) (dead : Dead fault) (stop' : List Char) :
    ∃ front, text = front ++ fault.stop ∧
      ∃ fault' rest', complete p (front ++ stop') = .error fault' rest' ∧
        Moved fault.stop stop' fault fault' := by
  rcases complete_eq_error_iff.mp h with hrun | ⟨a, mid, -, -, rfl, -⟩
  · obtain ⟨front, htext, -, fault', rest', hq, hmoved⟩ := blocks _ _ hrun dead rfl
    exact ⟨front, htext, fault', rest', complete_of_error hq, hmoved⟩
  · cases dead

end Reader

open Reader

/-- Errors that no text behind the blamed part can repair: a character stands in
place of what is missing, or there are too many copies or terms. -/
inductive ParseError.DeadEnd : ParseError → Prop
  | missing {what : String} {span : Span} (nonempty : span.start < span.stop) :
      DeadEnd ⟨.expected what, span⟩
  | tooManyRepeats {span : Span} : DeadEnd ⟨.tooManyRepeats, span⟩
  | chainTooLong {span : Span} : DeadEnd ⟨.chainTooLong, span⟩

/-- Only at the end of a text is the blame for something missing empty. -/
theorem Covers.dead {kind : ParseError.Kind} {before middle after : List Char}
    (h : Covers kind before middle after) {length : Nat}
    (dead : (Fault.toError ⟨kind, middle ++ after, after⟩ length).DeadEnd) :
    Dead ⟨kind, middle ++ after, after⟩ := by
  cases h with
  | missing expects =>
      cases dead with
      | missing nonempty => exact absurd nonempty (Nat.lt_irrefl _)
  | noLetter blank other => exact .missing
  | noSides blank other => exact .missing
  | repeats run space range => exact .tooManyRepeats
  | chain marks => exact .chainTooLong
  | trailing blank => cases dead
  | number run large => cases dead
  | modifier behind space signed run small outside => cases dead
  | dice term apart_before apart_after small inside refused => cases dead

/-- The text up to the end of the span fails with this error, however it goes
on. -/
def Stuck {α : Type} (P : String → Except ParseError α) (text : String)
    (error : ParseError) : Prop :=
  ∃ front back : String, text = front ++ back ∧ front.utf8ByteSize = error.span.stop ∧
    ∀ more : String, P (front ++ more) = .error error

theorem Reader.stuck_of_parse {α : Type} {p : Reader α}
    (blocks : ∀ {stop stop' text}, Blocks (· ≠ []) stop stop' p p text)
    (tracks : ∀ {whole before text : List Char}, Place whole before text →
      Tracks whole before (fun _ _ _ => True) (p text))
    {text : String} {error : ParseError} (h : p.parse text = .error error)
    (dead : error.DeadEnd) : Stuck p.parse text error := by
  obtain ⟨fault, rest, hrun, rfl⟩ := parse_eq_error.mp h
  obtain @⟨kind, before, middle, _, hwhole, hcovers⟩ := blamed_of_complete tracks hrun
  obtain ⟨front, back, rfl, hfront, rfl⟩ :=
    exists_append_of_lowerCase (hwhole.symm.trans (List.append_assoc ..).symm)
  have offsets : ∀ back : String,
      Fault.toError ⟨kind, middle ++ lowerCase back.toList, lowerCase back.toList⟩
        (front ++ back).utf8ByteSize = Fault.toError ⟨kind, middle, []⟩ front.utf8ByteSize :=
    fun back => by
      have h := Fault.toError_append kind middle [] (lowerCase back.toList) front.utf8ByteSize
      rwa [byteLength_lowerCase, byteLength_toList, ← String.utf8ByteSize_append] at h
  refine ⟨front, back, rfl, ?_, fun more => ?_⟩
  · rw [offsets back]
    rfl
  · obtain ⟨front', hsplit, ⟨_, start', _⟩, rest', hrun', ⟨rfl, hstart, rfl⟩⟩ :=
      exists_deadEnd_of_complete blocks hrun (hcovers.dead dead) (lowerCase more.toList)
    rw [String.toList_append, lowerCase_append] at hsplit
    obtain rfl := List.append_cancel_right hsplit
    obtain rfl : start' = middle ++ lowerCase more.toList := hstart middle rfl
    rw [← lowerCase_append, ← String.toList_append] at hrun'
    refine parse_eq_error.mpr ⟨_, rest', hrun', ?_⟩
    exact (offsets more).trans (offsets back).symm

/-- **Dead ends.** If a text as a roll, an expression or dice has a character in
place of something that is missing, or asks for too many copies or terms, then
every text that is the same up to the end of the blamed part has the same error at
the same place. None of them can be read. -/
theorem parse_stuck (text : String) {error : ParseError} (dead : error.DeadEnd) :
    (Roll.parse text = .error error → Stuck Roll.parse text error) ∧
      (Expr.parse text = .error error → Stuck Expr.parse text error) ∧
      (Dice.parse text = .error error → Stuck Dice.parse text error) :=
  ⟨fun h => stuck_of_parse blocks_clauses tracks_clauses h dead,
    fun h => stuck_of_parse blocks_chain tracks_chain h dead,
    fun h => stuck_of_parse blocks_term
      (fun hplace => (tracks_term hplace).mono fun _ _ _ _ => trivial) h dead⟩

/-- Behind a number that is neither a repeat count nor the count of a term, a sign
is a dead end. -/
theorem parse_stuck_sign :
    Roll.parse "D6 + 1; 7 +x" = .error ⟨.expected "'d'", ⟨10, 11⟩⟩ ∧
      Stuck Roll.parse "D6 + 1; 7 +x" ⟨.expected "'d'", ⟨10, 11⟩⟩ := by
  have hparse : Roll.parse "D6 + 1; 7 +x" = .error ⟨.expected "'d'", ⟨10, 11⟩⟩ := by
    decide +kernel
  exact ⟨hparse, (parse_stuck _ (.missing (by decide))).1 hparse⟩

end DiceTray
