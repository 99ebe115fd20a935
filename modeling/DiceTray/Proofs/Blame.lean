import DiceTray.Parse
import DiceTray.Proofs.Written

/-!
# What a fault blames

A fault names a part of the text. Here is said, kind by kind, which parts these
are (`Covers`), in terms of how phrases are written. Then every reader is
followed through its text: where it stops, no run of digits is cut in two, and
when it fails, the text can be taken apart into what stands in front of the
blamed part, that part, and what stands behind it.
-/

namespace DiceTray

open Text Written

/-- What a fault of each kind blames: the part of a text in lower case between
what stands in front of it and behind. -/
inductive Covers : ParseError.Kind → List Char → List Char → List Char → Prop
  | missing {what : String} {before : List Char}
      (expects : what = "'d'" ∨ what = "number of sides") :
      Covers (.expected what) before [] []
  | noLetter {before after : List Char} {c : Char}
      (blank : isBlank c = false) (other : c ≠ 'd') :
      Covers (.expected "'d'") before [c] after
  | noSides {before after : List Char} {c : Char}
      (blank : isBlank c = false) (other : c.isDigit = false) :
      Covers (.expected "number of sides") before [c] after
  | trailing {before more : List Char} {c : Char} (blank : isBlank c = false) :
      Covers .trailingInput before (c :: more) []
  | number {before digits after : List Char} {n : Nat}
      (run : Run before digits after n) (large : 2 ^ 32 - 1 < n) :
      Covers .overflow before digits after
  | modifier {before blanks sign digits after : List Char} {factor : Int} {n : Nat}
      (behind : UpToSides before) (space : Blanks blanks) (signed : Sign sign factor)
      (run : Run (before ++ blanks ++ sign) digits after n) (small : n ≤ 2 ^ 32 - 1)
      (outside : ¬ (-2 ^ 31 ≤ factor * n ∧ factor * n ≤ 2 ^ 31 - 1)) :
      Covers .overflow (before ++ blanks) (sign ++ digits) after
  | repeats {before digits blanks after : List Char} {n : Nat}
      (run : Run before digits (blanks ++ 'x' :: after) n) (space : Blanks blanks)
      (range : 1025 ≤ n ∧ n ≤ 2 ^ 32 - 1) :
      Covers .tooManyRepeats before (digits ++ (blanks ++ ['x'])) after
  | chain {before joined after : List Char}
      (marks : (joined ++ ['&']).count '&' = 1024) :
      Covers .chainTooLong before (joined ++ ['&']) after
  | dice {before text after : List Char} {count sides : Nat} {modifier : Int}
      {cause : DiceError} (term : Term text count sides modifier)
      (apart_before : Apart before text) (apart_after : Apart text after)
      (small : count ≤ 2 ^ 32 - 1 ∧ sides ≤ 2 ^ 32 - 1)
      (inside : -2 ^ 31 ≤ modifier ∧ modifier ≤ 2 ^ 31 - 1)
      (refused : Refused count sides cause) :
      Covers (.dice cause) before text after

/-- A fault blames a part of this text. -/
inductive Blamed (whole : List Char) : Fault → Prop
  | intro {kind : ParseError.Kind} {before middle after : List Char} :
      before ++ (middle ++ after) = whole → Covers kind before middle after →
        Blamed whole ⟨kind, middle ++ after, after⟩

/-! ## Places -/

/-- A place in a whole text that cuts no run of digits in two. -/
structure Place (whole before rest : List Char) : Prop where
  append : before ++ rest = whole
  apart : Apart before rest

theorem Place.start (whole : List Char) : Place whole [] whole where
  append := rfl
  apart _ hc := by cases hc

theorem Place.dropBlank {whole before text : List Char}
    (h : Place whole before text) :
    Place whole (before ++ leadingBlanks text) (dropBlank text) where
  append := by
    rw [List.append_assoc, leadingBlanks_append_dropBlank, h.append]
  apart := by
    by_cases hnil : leadingBlanks text = []
    · have hsame := leadingBlanks_append_dropBlank text
      rw [hnil, List.nil_append] at hsame
      rw [hnil, List.append_nil, hsame]
      exact h.apart
    · rw [apart_append_left hnil]
      exact apart_of_getLast fun c hc =>
        (blanks_leadingBlanks text).isDigit_eq_false (List.mem_of_getLast? hc)

/-- The part between two places of a text. -/
theorem Place.eq_append {whole before middle start stop : List Char}
    (hstart : Place whole before start) (hstop : Place whole (before ++ middle) stop) :
    start = middle ++ stop := by
  have h := hstart.append.trans hstop.append.symm
  rwa [List.append_assoc, List.append_cancel_left_eq] at h

/-- No run of digits goes into or out of the part between two places. -/
theorem Place.apart_middle {whole before middle start stop : List Char}
    (hstart : Place whole before start) (hstop : Place whole (before ++ middle) stop)
    (ne : middle ≠ []) : Apart before middle ∧ Apart middle stop := by
  rw [← apart_append_right ne, ← hstart.eq_append hstop, ← apart_append_left ne]
  exact ⟨hstart.apart, hstop.apart⟩

theorem blamed_of_places {whole before middle start stop : List Char}
    {kind : ParseError.Kind} (hstart : Place whole before start)
    (hstop : Place whole (before ++ middle) stop)
    (hcovers : Covers kind before middle stop) : Blamed whole ⟨kind, start, stop⟩ := by
  obtain rfl := hstart.eq_append hstop
  exact .intro hstart.append hcovers

namespace Reader

variable {α β : Type} {whole before text : List Char}

/-- A run behind `before` ends at a place of the whole text, where `L` holds of
its value, of what it has read and of what is left. If it fails, it blames a
part of the whole text. -/
def Tracks (whole before : List Char) (L : α → List Char → List Char → Prop) :
    EStateM.Result Fault (List Char) α → Prop
  | .ok a rest => ∃ read, Place whole (before ++ read) rest ∧ L a read rest
  | .error fault _ => Blamed whole fault

theorem Tracks.mono {L M : α → List Char → List Char → Prop}
    {result : EStateM.Result Fault (List Char) α} (h : Tracks whole before L result)
    (imp : ∀ a read rest, L a read rest → M a read rest) :
    Tracks whole before M result := by
  cases result with
  | ok a rest =>
      obtain ⟨read, hplace, hL⟩ := h
      exact ⟨read, hplace, imp a read rest hL⟩
  | error fault rest => exact h

theorem Tracks.blamed {L : α → List Char → List Char → Prop} {p : Reader α} {fault : Fault}
    {rest : List Char} (h : Tracks whole before L (p text))
    (hrun : p text = .error fault rest) : Blamed whole fault := by
  rw [hrun] at h
  exact h

theorem Tracks.bind {p : Reader α} {f : α → Reader β}
    {L : α → List Char → List Char → Prop} {M : β → List Char → List Char → Prop}
    (hp : Tracks whole before L (p text))
    (hf : ∀ a read rest, Place whole (before ++ read) rest → L a read rest →
      Tracks whole (before ++ read) (fun b read' rest' => M b (read ++ read') rest')
        (f a rest)) :
    Tracks whole before M ((p >>= f) text) := by
  show Tracks whole before M (EStateM.bind p f text)
  unfold EStateM.bind
  generalize p text = result at hp
  cases result with
  | error fault rest => exact hp
  | ok a rest =>
      obtain ⟨read, hplace, hL⟩ := hp
      have h := hf a read rest hplace hL
      dsimp only
      generalize f a rest = result at h
      cases result with
      | error fault rest' => exact h
      | ok b rest' =>
          obtain ⟨read', hplace', hM⟩ := h
          rw [List.append_assoc] at hplace'
          exact ⟨read ++ read', hplace', hM⟩

theorem tracks_pure {a : α} {L : α → List Char → List Char → Prop}
    (h : Place whole before text) (hL : L a [] text) :
    Tracks whole before L ((pure a : Reader α) text) :=
  ⟨[], by rwa [List.append_nil], hL⟩

theorem tracks_fail {start middle : List Char} {kind : ParseError.Kind}
    {L : α → List Char → List Char → Prop} (hstart : Place whole before start)
    (hstop : Place whole (before ++ middle) text)
    (hcovers : Covers kind before middle text) :
    Tracks whole (before ++ middle) L
      ((do throw ⟨kind, start, ← get⟩ : Reader α) text) :=
  blamed_of_places hstart hstop hcovers

/-! ## Words -/

theorem tracks_here (h : Place whole before text) :
    Tracks whole before
      (fun start read rest => start = dropBlank text ∧ read = leadingBlanks text ∧
        rest = dropBlank text) (here text) :=
  ⟨leadingBlanks text, h.dropBlank, rfl, rfl, rfl⟩

/-- A number, or nothing but white space in front of something else. -/
def NumberRead (before text : List Char) :
    Option UInt32 → List Char → List Char → Prop
  | some n, read, rest => ∃ digits, read = leadingBlanks text ++ digits ∧
      Run (before ++ leadingBlanks text) digits rest n.toNat
  | none, read, rest => read = leadingBlanks text ∧ rest = dropBlank text ∧
      ∀ c ∈ rest.head?, c.isDigit = false

theorem tracks_number (h : Place whole before text) :
    Tracks whole before (NumberRead before text) (number text) := by
  have hplace := h.dropBlank
  unfold number
  dsimp only
  generalize hdigits : (dropBlank text).takeWhile Char.isDigit = digits
  generalize hrest : (dropBlank text).dropWhile Char.isDigit = rest
  have happend : digits ++ rest = dropBlank text := by
    rw [← hdigits, ← hrest, List.takeWhile_append_dropWhile]
  have hhead : ∀ c ∈ rest.head?, c.isDigit = false :=
    hrest ▸ fun _ => isDigit_of_mem_head?_dropWhile
  split
  · rename_i hnil
    rw [hnil, List.nil_append] at happend
    exact ⟨leadingBlanks text, hplace, rfl, rfl, happend ▸ hhead⟩
  · rename_i hne
    have hstop : Place whole (before ++ leadingBlanks text ++ digits) rest := by
      refine ⟨?_, apart_of_head hhead⟩
      rw [List.append_assoc, happend, hplace.append]
    have hrun : Run (before ++ leadingBlanks text) digits rest
        (Nat.ofDigitChars 10 digits 0) := by
      refine ⟨hdigits ▸ digits_takeWhile (hdigits ▸ hne), ?_, apart_of_head hhead⟩
      rw [← apart_append_right hne, happend]
      exact hplace.apart
    split
    · rename_i n hn
      rw [← Width.unsigned32_eq_some_iff.mp hn] at hrun
      rw [List.append_assoc] at hstop
      exact ⟨_, hstop, digits, rfl, hrun⟩
    · rename_i hlarge
      refine blamed_of_places hplace hstop (.number hrun ?_)
      have := Width.unsigned32_eq_none_iff.mp hlarge
      omega

/-- A mark, or nothing but white space in front of something else. -/
def MarkRead (c : Char) (text : List Char) : Bool → List Char → List Char → Prop
  | true, read, _ => read = leadingBlanks text ++ [c]
  | false, read, rest => read = leadingBlanks text ∧ rest = dropBlank text ∧
      rest.head? ≠ some c

theorem tracks_literal {c : Char} (digit : c.isDigit = false)
    (h : Place whole before text) :
    Tracks whole before (MarkRead c text) (literal [c] text) := by
  have hplace := h.dropBlank
  by_cases hhead : (dropBlank text).head? = some c
  · obtain ⟨rest, hrest⟩ := List.head?_eq_some_iff.mp hhead
    rw [literal_of_head_eq hrest]
    refine ⟨leadingBlanks text ++ [c], ⟨?_, ?_⟩, rfl⟩
    · rw [← hplace.append, hrest]
      simp only [List.append_assoc, List.singleton_append]
    · rw [← List.append_assoc]
      exact apart_of_getLast (by simp [digit])
  · rw [literal_of_head_ne hhead]
    exact ⟨leadingBlanks text, hplace, rfl, rfl, hhead⟩

/-- What is missing here is not the next character. -/
theorem tracks_expected {what : String} {L : α → List Char → List Char → Prop}
    (h : Place whole before text) (expects : what = "'d'" ∨ what = "number of sides")
    (covers : ∀ c ∈ (dropBlank text).head?, ∀ front back, isBlank c = false →
      Covers (.expected what) front [c] back) :
    Tracks whole before L ((expected what : Reader α) text) := by
  show Blamed whole ⟨.expected what, dropBlank text, (dropBlank text).drop 1⟩
  have happend := h.dropBlank.append
  cases hd : dropBlank text with
  | nil =>
      rw [hd] at happend
      exact .intro happend (.missing expects)
  | cons c rest =>
      rw [hd] at happend
      exact .intro happend
        (covers c (by simp [hd]) _ rest (isBlank_of_dropBlank_eq_cons hd))

theorem tracks_require {c : Char} {what : String} (digit : c.isDigit = false)
    (h : Place whole before text) (expects : what = "'d'" ∨ what = "number of sides")
    (covers : ∀ d front back, isBlank d = false → d ≠ c →
      Covers (.expected what) front [d] back) :
    Tracks whole before (fun _ read _ => read = leadingBlanks text ++ [c])
      (require [c] what text) := by
  apply (tracks_literal digit h).bind
  rintro (_ | _) read rest hplace hread
  · obtain ⟨rfl, rfl, hhead⟩ := hread
    refine tracks_expected hplace expects fun d hd front back blank => ?_
    rw [dropBlank_dropBlank] at hd
    refine covers d front back blank fun heq => hhead ?_
    rw [← heq]
    exact hd
  · exact tracks_pure hplace (by rw [List.append_nil]; exact hread)

theorem Tracks.orUnread {p : Reader (Option α)}
    {L : Option α → List Char → List Char → Prop} (h : Place whole before text)
    (hp : Tracks whole before L (p text)) :
    Tracks whole before
      (fun found read rest => match found with
        | some a => L (some a) read rest
        | none => read = []) (orUnread p text) := by
  unfold Reader.orUnread
  generalize p text = result at hp
  rcases result with ⟨_ | a, rest⟩ | ⟨fault, rest⟩
  · exact ⟨[], by rwa [List.append_nil], rfl⟩
  · exact hp
  · exact hp

theorem Tracks.lookFor {p : Reader (Option α)}
    {L : Option α → List Char → List Char → Prop} (h : Place whole before text)
    (hp : Tracks whole before L (p text)) :
    Tracks whole before
      (fun found read rest => match found with
        | some a => L (some a) read rest
        | none => read = []) (lookFor p text) := by
  unfold Reader.lookFor
  generalize p text = result at hp
  rcases result with ⟨_ | a, rest⟩ | ⟨fault, rest⟩
  · exact ⟨[], by rwa [List.append_nil], rfl⟩
  · exact hp
  · exact ⟨[], by rwa [List.append_nil], rfl⟩

/-! ## Modifiers -/

/-- A sign, or nothing but white space in front of something else. -/
def SignRead (text : List Char) (factor : Int) (read rest : List Char) : Prop :=
  (read = leadingBlanks text ++ ['+'] ∧ factor = 1) ∨
    (read = leadingBlanks text ++ ['-'] ∧ factor = -1) ∨
    (read = leadingBlanks text ∧ factor = 1 ∧ rest = dropBlank text)

theorem tracks_sign (h : Place whole before text) :
    Tracks whole before (SignRead text) (sign text) := by
  apply (tracks_literal rfl h).bind
  rintro (_ | _) read rest hplace hread
  · obtain ⟨rfl, rfl, -⟩ := hread
    apply (tracks_literal rfl hplace).bind
    rintro (_ | _) read' rest' hplace' hread'
    · obtain ⟨rfl, rfl, -⟩ := hread'
      exact tracks_pure hplace' (Or.inr (Or.inr (by simp)))
    · obtain rfl := hread'
      exact tracks_pure hplace' (Or.inr (Or.inl (by simp)))
  · obtain rfl := hread
    exact tracks_pure hplace (Or.inl (by simp))

/-- The white space behind a sign belongs to it. Without a sign there is none,
since the text begins with a word. -/
theorem SignRead.sign {factor : Int} {read rest : List Char}
    (h : SignRead (dropBlank text) factor read rest) :
    Sign (read ++ leadingBlanks rest) factor := by
  unfold SignRead at h
  rw [leadingBlanks_dropBlank, dropBlank_dropBlank] at h
  rcases h with ⟨rfl, rfl⟩ | ⟨rfl, rfl⟩ | ⟨rfl, rfl, rfl⟩
  · exact .plus (blanks_leadingBlanks rest)
  · exact .minus (blanks_leadingBlanks rest)
  · rw [leadingBlanks_dropBlank]
    exact .absent

theorem tracks_integer (h : Place whole before text) (behind : UpToSides before) :
    Tracks whole before (fun found read _ => Modifier read (found.getD 0).toInt)
      (integer text) := by
  apply (tracks_here h).bind
  rintro start _ _ hstart ⟨rfl, rfl, rfl⟩
  refine (Tracks.orUnread hstart (L := fun found read _ => ∀ value, found = some value →
    Modifier (leadingBlanks text ++ read) value.toInt) ?_).mono ?_
  · apply (tracks_sign hstart).bind
    intro factor read rest hplace hread
    apply (tracks_number hplace).bind
    rintro (_ | n) read' rest' hplace' hnumber
    · exact tracks_pure hplace' (by simp)
    · obtain ⟨digits, rfl, hrun⟩ := hnumber
      have hmiddle : before ++ leadingBlanks text ++ read ++ (leadingBlanks rest ++ digits) =
          before ++ leadingBlanks text ++ (read ++ leadingBlanks rest ++ digits) := by
        simp only [List.append_assoc]
      rw [hmiddle] at hplace' ⊢
      rw [List.append_assoc (before ++ leadingBlanks text)] at hrun
      dsimp only
      cases hvalue : Width.signed32 (factor * n.toNat) with
      | some value =>
          refine tracks_pure hplace' fun value' hsome => ?_
          obtain rfl := Option.some.inj hsome
          rw [Width.signed32_eq_some_iff.mp hvalue]
          have := Modifier.given (blanks_leadingBlanks text) hread.sign hrun.toDigits
          simpa only [List.append_assoc, List.append_nil] using this
      | none =>
          refine tracks_fail hstart hplace' (.modifier behind
            (blanks_leadingBlanks text) hread.sign hrun ?_ ?_)
          · have := n.toNat_lt
            omega
          · have := Width.signed32_eq_none_iff.mp hvalue
            omega
  · rintro (_ | value) read rest hread
    · obtain rfl := hread
      rw [List.append_nil]
      exact .absent (blanks_leadingBlanks text)
    · exact hread value rfl

/-! ## Terms -/

theorem refused_of_check {asked : Dice.Request} {cause : DiceError}
    (h : asked.check = .error cause) :
    Refused asked.count.toNat asked.sides.toNat cause := by
  unfold Dice.Request.check at h
  split at h
  · rename_i hcount
    have hcount : 0 < asked.count.toNat := UInt32.lt_iff_toNat_lt.mp hcount
    split at h
    · rename_i hmany
      cases h
      exact .tooManyDice rfl (UInt32.lt_iff_toNat_lt.mp hmany)
    · rename_i hfew
      have hfew : asked.count.toNat ≤ 10000 := UInt32.le_iff_toNat_le.mp
        (UInt32.not_lt.mp hfew)
      split at h
      · cases h
      · rename_i hsides
        cases h
        have hsides := UInt32.le_iff_toNat_le.mp (UInt32.not_lt.mp hsides)
        exact .tooFewSides rfl (Nat.le_zero.mp hsides) ⟨hcount, hfew⟩
  · rename_i hcount
    cases h
    have hcount := UInt32.le_iff_toNat_le.mp (UInt32.not_lt.mp hcount)
    exact .tooFewDice rfl (Nat.le_zero.mp hcount)

theorem tracks_afterLetter {start front blanks : List Char} {count : UInt32}
    (hstart : Place whole before start) (hcount : Count front count.toNat)
    (hblanks : Blanks blanks)
    (h : Place whole (before ++ (front ++ (blanks ++ ['d']))) text) :
    Tracks whole (before ++ (front ++ (blanks ++ ['d'])))
      (fun _ read _ => '&' ∉ read) (afterLetter start count text) := by
  apply (tracks_number h).bind
  rintro (_ | sides) read rest hplace hread
  · obtain ⟨rfl, rfl, hhead⟩ := hread
    refine tracks_expected hplace (Or.inr rfl) fun c hc _ _ blank => .noSides blank ?_
    rw [dropBlank_dropBlank] at hc
    exact hhead c hc
  · obtain ⟨digits, rfl, hrun⟩ := hread
    have hblanks' := blanks_leadingBlanks text
    have behind : UpToSides (before ++ (front ++ (blanks ++ ['d'])) ++
        (leadingBlanks text ++ digits)) := by
      have hletter : before ++ (front ++ (blanks ++ ['d'])) ++ (leadingBlanks text ++ digits) =
          before ++ (front ++ blanks) ++ 'd' :: (leadingBlanks text ++ digits) := by
        simp
      rw [hletter]
      exact .intro hblanks' hrun.toDigits
    apply (tracks_integer hplace behind).bind
    intro modifier read' rest' hplace' hmodifier
    cases hcheck : Dice.Request.check ⟨count, sides, modifier.getD 0⟩ with
    | ok d =>
        refine tracks_pure hplace' ?_
        simp only [List.append_nil, List.mem_append, not_or]
        exact ⟨⟨hblanks'.and_not_mem, hrun.and_not_mem⟩, hmodifier.and_not_mem⟩
    | error cause =>
        have hmiddle : before ++ (front ++ (blanks ++ ['d'])) ++
            (leadingBlanks text ++ digits) ++ read' =
              before ++ (front ++ (blanks ++ 'd' ::
                (leadingBlanks text ++ (digits ++ read')))) := by
          simp
        rw [hmiddle] at hplace' ⊢
        obtain ⟨hbefore, hafter⟩ := hstart.apart_middle hplace' (by simp)
        refine tracks_fail hstart hplace' (.dice
          (.intro hcount hblanks hblanks' hrun.toDigits hmodifier) hbefore hafter ?_ ?_
          (refused_of_check hcheck))
        · have := count.toNat_lt
          have := sides.toNat_lt
          omega
        · have := (modifier.getD 0).le_toInt
          have := (modifier.getD 0).toInt_lt
          omega

theorem tracks_term (h : Place whole before text) :
    Tracks whole before (fun _ read _ => '&' ∉ read) (term text) := by
  apply (tracks_here h).bind
  rintro start _ _ hstart ⟨rfl, rfl, rfl⟩
  apply (tracks_number hstart).bind
  intro found front rest hplace hread
  have hfront : Count front (found.getD 1).toNat := by
    rcases found with _ | n
    · obtain ⟨rfl, -, -⟩ := hread
      rw [leadingBlanks_dropBlank]
      exact .absent
    · obtain ⟨digits, rfl, hrun⟩ := hread
      rw [leadingBlanks_dropBlank, List.nil_append]
      exact .given hrun.toDigits
  apply (tracks_require rfl hplace (Or.inl rfl) fun _ _ _ => .noLetter).bind
  rintro - _ rest' hplace' rfl
  rw [List.append_assoc] at hplace' ⊢
  refine (tracks_afterLetter hstart hfront (blanks_leadingBlanks rest) hplace').mono ?_
  intro d read' _ hread'
  simp only [List.mem_append, List.mem_singleton, not_or]
  exact ⟨(blanks_leadingBlanks text).and_not_mem, hfront.and_not_mem,
    ⟨(blanks_leadingBlanks rest).and_not_mem, by decide⟩, hread'⟩

/-! ## Chains -/

/-- The marks that were read and the terms there is room for make up the limit. -/
theorem tracks_moreTerms {start seen : List Char} {room : Nat}
    (hstart : Place whole before start) (h : Place whole (before ++ seen) text)
    (marks : seen.count '&' + room = 1023) :
    Tracks whole (before ++ seen) (fun _ _ _ => True) (moreTerms start room text) := by
  induction room generalizing seen text with
  | zero =>
      rw [moreTerms]
      apply (tracks_literal rfl h).bind
      rintro (_ | _) read rest hplace hread
      · exact tracks_pure hplace trivial
      · obtain rfl := hread
        rw [List.append_assoc, ← List.append_assoc seen] at hplace ⊢
        refine tracks_fail hstart hplace (.chain ?_)
        rw [List.count_append, List.count_append, (blanks_leadingBlanks text).count_and,
          List.count_singleton_self]
        omega
  | succ room ih =>
      rw [moreTerms]
      apply (tracks_literal rfl h).bind
      rintro (_ | _) read rest hplace hread
      · exact tracks_pure hplace trivial
      · obtain rfl := hread
        apply (tracks_term hplace).bind
        intro d read' rest' hplace' hfree
        rw [List.append_assoc, List.append_assoc] at hplace' ⊢
        apply (ih hplace' ?_).bind
        · exact fun ds read'' rest'' hplace'' _ => tracks_pure hplace'' trivial
        · simp only [List.count_append, (blanks_leadingBlanks text).count_and,
            List.count_eq_zero.mpr hfree, List.count_singleton_self]
          omega

theorem tracks_chain (h : Place whole before text) :
    Tracks whole before (fun _ _ _ => True) (chain text) := by
  show Tracks whole before (fun _ _ _ => True)
    ((term >>= fun first => moreTerms text (maxTerms - 1) >>= fun more =>
      pure (Expr.chain first more)) text)
  apply (tracks_term h).bind
  intro d read rest hplace hfree
  apply (tracks_moreTerms h hplace ?_).bind
  · exact fun ds read' rest' hplace' _ => tracks_pure hplace' trivial
  · rw [List.count_eq_zero.mpr hfree]
    rfl

/-! ## Clauses -/

theorem tracks_repeats (h : Place whole before text) :
    Tracks whole before (fun _ _ _ => True) (repeats text) := by
  apply (tracks_here h).bind
  rintro start _ _ hstart ⟨rfl, rfl, rfl⟩
  have hcount : Tracks whole (before ++ leadingBlanks text)
      (fun found read rest => ∀ n, found = some n → ∃ digits blanks,
        read = digits ++ (blanks ++ ['x']) ∧ Blanks blanks ∧
          Run (before ++ leadingBlanks text) digits (blanks ++ 'x' :: rest) n.toNat)
      ((do
        let count ← number
        return if ← literal ['x'] then count else none : Reader (Option UInt32))
        (dropBlank text)) := by
    apply (tracks_number hstart).bind
    intro found read rest hplace hread
    apply (tracks_literal rfl hplace).bind
    rintro (_ | _) read' rest' hplace' hread'
    · exact tracks_pure hplace' (by simp)
    · refine tracks_pure hplace' fun n hn => ?_
      obtain rfl : found = some n := hn
      obtain ⟨digits, rfl, hrun⟩ := hread
      obtain rfl := hread'
      have hrest := hplace.eq_append hplace'
      rw [leadingBlanks_dropBlank, List.append_nil] at hrun
      rw [hrest, List.append_assoc, List.singleton_append] at hrun
      exact ⟨digits, leadingBlanks rest, by simp, blanks_leadingBlanks rest, hrun⟩
  apply (Tracks.lookFor hstart hcount).bind
  rintro (_ | n) read rest hplace hread
  · exact tracks_pure hplace trivial
  · obtain ⟨digits, blanks, rfl, hblanks, hrun⟩ := hread n rfl
    dsimp only
    split
    · rename_i hmany
      refine tracks_fail hstart hplace (.repeats hrun hblanks ⟨hmany, ?_⟩)
      have := n.toNat_lt
      omega
    · exact tracks_pure hplace trivial

theorem tracks_clause (h : Place whole before text) :
    Tracks whole before (fun _ _ _ => True) (clause text) := by
  apply (tracks_repeats h).bind
  intro copies read rest hplace _
  apply (tracks_chain hplace).bind
  exact fun e read' rest' hplace' _ => tracks_pure hplace' trivial

/-! ## Rolls -/

/-- What every round does, all of them do. -/
theorem Tracks.separated {p : Reader α} {c : Char} {shortens : Shortens p}
    {ne : [c] ≠ []} (digit : c.isDigit = false)
    (item : ∀ {before text : List Char}, Place whole before text →
      Tracks whole before (fun _ _ _ => True) (p text))
    (h : Place whole before text) :
    Tracks whole before (fun _ _ _ => True) (separated p [c] shortens ne text) := by
  -- Rounds are told by the text they leave, which gets shorter.
  induction hn : text.length using Nat.strongRecOn generalizing before text with
  | ind n ih =>
      subst hn
      rw [separated_eq]
      apply (item h).bind
      intro a read rest hplace _
      apply (tracks_literal digit hplace).bind
      rintro (_ | _) read' rest' hplace' hread
      · exact tracks_pure hplace' trivial
      · obtain rfl := hread
        have shorter : rest'.length < text.length := by
          rw [List.append_assoc] at hplace'
          rw [h.eq_append hplace']
          simp only [List.length_append, List.length_singleton]
          omega
        apply (ih _ shorter hplace' rfl).bind
        exact fun as read'' rest'' hplace'' _ => tracks_pure hplace'' trivial

theorem tracks_clauses (h : Place whole before text) :
    Tracks whole before (fun _ _ _ => True) (clauses text) := by
  apply (Tracks.separated rfl tracks_clause h).bind
  exact fun parts read rest hplace _ => tracks_pure hplace trivial

/-! ## Whole texts -/

/-- Whatever a whole text is read as, a fault blames a part of it. -/
theorem blamed_of_complete {p : Reader α}
    (hp : ∀ {before text : List Char}, Place whole before text →
      Tracks whole before (fun _ _ _ => True) (p text))
    {fault : Fault} {rest : List Char} (h : complete p whole = .error fault rest) :
    Blamed whole fault := by
  have htracks : Tracks whole [] (fun _ _ _ => True) (complete p whole) := by
    apply (hp (.start whole)).bind
    intro a read rest hplace _
    apply (tracks_here hplace).bind
    rintro start _ _ hstart ⟨rfl, rfl, rfl⟩
    cases hd : dropBlank rest with
    | nil => exact tracks_pure (hd ▸ hstart) trivial
    | cons c more =>
        have hend := hstart.append
        rw [hd, ← List.append_nil (c :: more)] at hend
        have hblamed := Blamed.intro hend (.trailing (isBlank_of_dropBlank_eq_cons hd))
        rw [List.append_nil] at hblamed
        exact hblamed
  exact htracks.blamed h

/-- The offsets of an error fall between characters of the text as it was given,
and the part between them is blamed. -/
theorem exists_covers_of_parse {p : Reader α}
    (hp : ∀ {whole before text : List Char}, Place whole before text →
      Tracks whole before (fun _ _ _ => True) (p text))
    {text : String} {error : ParseError} (h : p.parse text = .error error) :
    ∃ before middle after : String, text = before ++ middle ++ after ∧
      error.span = ⟨before.utf8ByteSize, (before ++ middle).utf8ByteSize⟩ ∧
      Covers error.kind (lowerCase before.toList) (lowerCase middle.toList)
        (lowerCase after.toList) := by
  obtain ⟨fault, rest, hrun, rfl⟩ := parse_eq_error.mp h
  obtain ⟨happend, hcovers⟩ := blamed_of_complete hp hrun
  obtain ⟨before, tail, htext, rfl, htail⟩ := List.map_eq_append_iff.mp happend.symm
  obtain ⟨middle, after, rfl, rfl, rfl⟩ := List.map_eq_append_iff.mp htail
  have htext : text = String.ofList before ++ String.ofList middle ++
      String.ofList after := by
    rw [← String.ofList_append, ← String.ofList_append, List.append_assoc, ← htext,
      String.ofList_toList]
  refine ⟨String.ofList before, String.ofList middle, String.ofList after, htext, ?_, ?_⟩
  · change Span.mk (_ - byteLength (lowerCase middle ++ lowerCase after))
      (_ - byteLength (lowerCase after)) = _
    rw [htext]
    simp only [String.utf8ByteSize_append, utf8ByteSize_ofList, byteLength_append,
      byteLength_lowerCase, Span.mk.injEq]
    omega
  · rw [String.toList_ofList, String.toList_ofList, String.toList_ofList]
    exact hcovers

end Reader

open Reader

/-- **Blame.** The span of an error lies in the text, from one place between
characters to another, and it covers what an error of its kind is about: the
character that stands where something else was expected, what is left over, the
number that is too large, the repeat count with its mark, the chain up to the
mark that is one too many, or the term whose dice cannot be. -/
theorem ParseError.covers_of_parse {text : String} {error : ParseError}
    (h : Roll.parse text = .error error ∨ Expr.parse text = .error error ∨
      Dice.parse text = .error error) :
    (error.span.start ≤ error.span.stop ∧ error.span.stop ≤ text.utf8ByteSize) ∧
      ∃ before middle after : String, text = before ++ middle ++ after ∧
        error.span = ⟨before.utf8ByteSize, (before ++ middle).utf8ByteSize⟩ ∧
        Covers error.kind (lowerCase before.toList) (lowerCase middle.toList)
          (lowerCase after.toList) := by
  have hparts : ∃ before middle after : String, text = before ++ middle ++ after ∧
      error.span = ⟨before.utf8ByteSize, (before ++ middle).utf8ByteSize⟩ ∧
      Covers error.kind (lowerCase before.toList) (lowerCase middle.toList)
        (lowerCase after.toList) := by
    rcases h with h | h | h
    · exact exists_covers_of_parse tracks_clauses h
    · exact exists_covers_of_parse tracks_chain h
    · exact exists_covers_of_parse
        (fun hplace => (tracks_term hplace).mono fun _ _ _ _ => trivial) h
  refine ⟨?_, hparts⟩
  obtain ⟨before, middle, after, rfl, hspan, -⟩ := hparts
  rw [hspan]
  simp only [String.utf8ByteSize_append]
  omega

/-- A modifier that is out of range, behind letters of either case and a
character of two bytes that is white space. -/
theorem ParseError.covers_large_modifier :
    Roll.parse "2X\u00a03D6 - 3000000000 & d4" = .error ⟨.overflow, ⟨8, 20⟩⟩ ∧
      ∃ before middle after : String,
        "2X\u00a03D6 - 3000000000 & d4" = before ++ middle ++ after ∧
        Span.mk 8 20 = ⟨before.utf8ByteSize, (before ++ middle).utf8ByteSize⟩ ∧
        Covers .overflow (lowerCase before.toList) (lowerCase middle.toList)
          (lowerCase after.toList) := by
  have hparse : Roll.parse "2X\u00a03D6 - 3000000000 & d4" =
      .error ⟨.overflow, ⟨8, 20⟩⟩ := by
    decide +kernel
  exact ⟨hparse, (ParseError.covers_of_parse (Or.inl hparse)).2⟩

end DiceTray
