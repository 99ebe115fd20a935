import DiceTray.Parse
import DiceTray.Proofs.Reads
import DiceTray.Proofs.Written

/-!
# What a success depends on

A reader that succeeds has read a part of its text and left the rest. Here is
said which texts may stand in place of the rest, so that the reader takes the
same part, has the same value, and leaves the text that stands there (`Stands`).

A word ends where the next character shows that it does. So it is enough for
words that no other character comes to stand there, and there may be none at all
(`SameNext`). Terms and clauses look further in two places. A sign belongs to
the term if a number follows it, and is left otherwise, so a number must not come
to stand behind a sign that was left (`Unnoticed`). A number in front of a clause
is a repeat count if an `x` follows it. That needs no care, since no chain can be
read where such an `x` stands.

The place where a reader began is remembered for its faults only. Two readers
that differ in this stand for each other.
-/

namespace DiceTray

open Text Written

/-! ## Blanks -/

namespace Text

theorem dropBlank_append {blanks : List Char} (h : Blanks blanks) (text : List Char) :
    dropBlank (blanks ++ text) = dropBlank text :=
  List.dropWhile_append_of_pos h

theorem dropBlank_eq_self {text : List Char} (h : ∀ c ∈ text.head?, isBlank c = false) :
    dropBlank text = text := by
  cases text with
  | nil => rfl
  | cons c text => exact dropBlank_cons_of_not_isBlank (h c rfl) text

theorem isBlank_of_mem_head?_dropBlank {text : List Char} {c : Char}
    (h : c ∈ (dropBlank text).head?) : isBlank c = false := by
  obtain ⟨rest, hrest⟩ := List.head?_eq_some_iff.mp h
  exact isBlank_of_dropBlank_eq_cons hrest

theorem dropBlank_append_of_eq_nil {front : List Char} (h : dropBlank front = [])
    (text : List Char) : dropBlank (front ++ text) = dropBlank text := by
  have hblanks := leadingBlanks_append_dropBlank front
  rw [h, List.append_nil] at hblanks
  rw [← hblanks]
  exact dropBlank_append (blanks_leadingBlanks front) text

/-- A text that shows a word goes on behind it as it likes. -/
theorem dropBlank_append_of_eq_cons {front rest : List Char} {c : Char}
    (h : dropBlank front = c :: rest) (text : List Char) :
    dropBlank (front ++ text) = c :: (rest ++ text) := by
  rw [← leadingBlanks_append_dropBlank front, h, List.append_assoc,
    dropBlank_append (blanks_leadingBlanks front)]
  exact dropBlank_cons_of_not_isBlank (isBlank_of_dropBlank_eq_cons h) _

/-- A text is taken apart as its lower case is. -/
theorem exists_append_of_lowerCase {text : String} {front back : List Char}
    (h : lowerCase text.toList = front ++ back) :
    ∃ f b : String, text = f ++ b ∧ lowerCase f.toList = front ∧
      lowerCase b.toList = back := by
  obtain ⟨f, b, htext, hf, hb⟩ := List.map_eq_append_iff.mp h
  refine ⟨String.ofList f, String.ofList b, ?_, ?_, ?_⟩
  · rw [← String.ofList_append, ← htext, String.ofList_toList]
  · rw [String.toList_ofList]
    exact hf
  · rw [String.toList_ofList]
    exact hb

end Text

namespace Reader

variable {α β : Type} {text rest : List Char}

/-! ## Runs -/

theorem bind_eq_ok_iff {p : Reader α} {f : α → Reader β} {b : β} :
    (p >>= f) text = .ok b rest ↔ ∃ a mid, p text = .ok a mid ∧ f a mid = .ok b rest := by
  show EStateM.bind p f text = _ ↔ _
  unfold EStateM.bind
  cases p text <;> simp [and_assoc]

theorem bind_eq_error_iff {p : Reader α} {f : α → Reader β} {fault : Fault} :
    (p >>= f) text = .error fault rest ↔
      p text = .error fault rest ∨
        ∃ a mid, p text = .ok a mid ∧ f a mid = .error fault rest := by
  show EStateM.bind p f text = _ ↔ _
  unfold EStateM.bind
  cases p text <;> simp [and_assoc]

theorem orUnread_of_none {p : Reader (Option α)} (h : p text = .ok none rest) :
    orUnread p text = .ok none text := by
  rw [orUnread, h]

theorem orUnread_of_some {p : Reader (Option α)} {a : α} (h : p text = .ok (some a) rest) :
    orUnread p text = .ok (some a) rest := by
  rw [orUnread, h]

theorem literal_eq_true_iff {c : Char} :
    literal [c] text = .ok true rest ↔ dropBlank text = c :: rest := by
  constructor
  · intro h
    by_cases hhead : (dropBlank text).head? = some c
    · obtain ⟨rest', hrest⟩ := List.head?_eq_some_iff.mp hhead
      rw [literal_of_head_eq hrest] at h
      cases h
      exact hrest
    · rw [literal_of_head_ne hhead] at h
      cases h
  · exact literal_of_head_eq

theorem literal_eq_false_iff {c : Char} :
    literal [c] text = .ok false rest ↔
      dropBlank text = rest ∧ (dropBlank text).head? ≠ some c := by
  constructor
  · intro h
    by_cases hhead : (dropBlank text).head? = some c
    · obtain ⟨rest', hrest⟩ := List.head?_eq_some_iff.mp hhead
      rw [literal_of_head_eq hrest] at h
      cases h
    · rw [literal_of_head_ne hhead] at h
      cases h
      exact ⟨rfl, hhead⟩
  · rintro ⟨rfl, hhead⟩
    exact literal_of_head_ne hhead

/-- The next word is no number. -/
def NoNumber (text : List Char) : Prop :=
  ∀ c ∈ (dropBlank text).head?, c.isDigit = false

theorem number_of_digits {digits : List Char} {n : UInt32}
    (h : dropBlank text = digits ++ rest) (run : Digits digits n.toNat)
    (stop : ∀ c ∈ rest.head?, c.isDigit = false) : number text = .ok (some n) rest := by
  have htake : (dropBlank text).takeWhile Char.isDigit = digits := by
    rw [h, List.takeWhile_append_of_pos run.digit]
    cases rest with
    | nil => simp
    | cons c rest => simp [stop c rfl]
  have hdrop : (dropBlank text).dropWhile Char.isDigit = rest := by
    rw [h, List.dropWhile_append_of_pos run.digit]
    cases rest with
    | nil => rfl
    | cons c rest => simp [stop c rfl]
  unfold number
  dsimp only
  rw [htake, hdrop, if_neg run.ne_nil, run.value_eq, Width.unsigned32_toNat]

theorem number_eq_some_iff {n : UInt32} :
    number text = .ok (some n) rest ↔
      ∃ digits, dropBlank text = digits ++ rest ∧ Digits digits n.toNat ∧
        ∀ c ∈ rest.head?, c.isDigit = false := by
  constructor
  · intro h
    unfold number at h
    dsimp only at h
    split at h
    · cases h
    · rename_i hne
      split at h
      · rename_i m hm
        cases h
        refine ⟨_, List.takeWhile_append_dropWhile.symm, ?_,
          fun c => isDigit_of_mem_head?_dropWhile⟩
        rw [Width.unsigned32_eq_some_iff.mp hm]
        exact digits_takeWhile hne
      · cases h
  · rintro ⟨digits, h, run, stop⟩
    exact number_of_digits h run stop

theorem number_eq_none_iff :
    number text = .ok none rest ↔ dropBlank text = rest ∧ NoNumber text := by
  constructor
  · intro h
    by_cases hdigit : ∃ c tail, dropBlank text = c :: tail ∧ c.isDigit = true
    · obtain ⟨c, tail, hd, digit⟩ := hdigit
      rw [number_of_digit hd digit] at h
      split at h <;> cases h
    · have hnot : NoNumber text := fun c hc => by
        obtain ⟨tail, hd⟩ := List.head?_eq_some_iff.mp hc
        exact Bool.eq_false_iff.mpr fun digit => hdigit ⟨c, tail, hd, digit⟩
      rw [number_of_not_digit hnot] at h
      cases h
      exact ⟨rfl, hnot⟩
  · rintro ⟨rfl, hnot⟩
    exact number_of_not_digit hnot

/-! ## Rests that may stand for each other -/

/-- The next character stays as it is, or there is none any more. -/
def SameNext (rest rest' : List Char) : Prop :=
  ∀ c ∈ rest'.head?, c ∈ rest.head?

theorem sameNext_of_cons {c : Char} {rest' : List Char} :
    SameNext (c :: rest) (c :: rest') :=
  fun _ hc => hc

theorem SameNext.behind {rest' : List Char} (read : List Char)
    (h : SameNext rest rest') : SameNext (read ++ rest) (read ++ rest') := by
  cases read with
  | nil => exact h
  | cons c read => exact fun d hd => hd

/-- Blanks in front of a word are all that is read of them. -/
theorem SameNext.dropBlank_eq {rest' : List Char} (h : SameNext (dropBlank text) rest') :
    dropBlank (leadingBlanks text ++ rest') = rest' := by
  rw [dropBlank_append (blanks_leadingBlanks text)]
  exact dropBlank_eq_self fun c hc => isBlank_of_mem_head?_dropBlank (h c hc)

/-- What is read is a word with the blanks in front of it. -/
theorem eq_leadingBlanks_append {word : List Char} (h : dropBlank text = word ++ rest) :
    text = leadingBlanks text ++ word ++ rest := by
  rw [List.append_assoc, ← h, leadingBlanks_append_dropBlank]

/-- The word stays the next one if it shows where it ends. -/
theorem SameNext.dropBlank_append {word rest' : List Char}
    (h : dropBlank text = word ++ rest) (same : SameNext (word ++ rest) (word ++ rest')) :
    dropBlank (leadingBlanks text ++ word ++ rest') = word ++ rest' := by
  rw [List.append_assoc]
  exact SameNext.dropBlank_eq (h ▸ same)

/-- What stands behind an optional sign. -/
def behindSign (text : List Char) : List Char :=
  if (dropBlank text).head? = some '+' ∨ (dropBlank text).head? = some '-' then
    (dropBlank text).tail
  else
    dropBlank text

theorem behindSign_of_cons {c : Char} (h : dropBlank text = c :: rest) :
    behindSign text = if c = '+' ∨ c = '-' then rest else c :: rest := by
  simp only [behindSign, h, List.head?_cons, Option.some.injEq, List.tail_cons]

/-- The next character stays, and so does the lack of a number, with a sign or
without one. -/
structure Unnoticed (rest rest' : List Char) : Prop where
  next : SameNext rest rest'
  number : NoNumber rest → NoNumber rest'
  signed : NoNumber (behindSign rest) → NoNumber (behindSign rest')

/-- A word that was read shows on both sides. -/
theorem noNumber_behind {rest' : List Char} (h : NoNumber rest → NoNumber rest')
    (read : List Char) : NoNumber (read ++ rest) → NoNumber (read ++ rest') := by
  unfold NoNumber at h ⊢
  cases hd : dropBlank read with
  | nil => rwa [dropBlank_append_of_eq_nil hd, dropBlank_append_of_eq_nil hd]
  | cons c more =>
      rw [dropBlank_append_of_eq_cons hd, dropBlank_append_of_eq_cons hd]
      exact id

theorem Unnoticed.behind {rest' : List Char} (read : List Char)
    (h : Unnoticed rest rest') : Unnoticed (read ++ rest) (read ++ rest') where
  next := h.next.behind read
  number := noNumber_behind h.number read
  signed := by
    cases hd : dropBlank read with
    | nil =>
        unfold behindSign
        rw [dropBlank_append_of_eq_nil hd, dropBlank_append_of_eq_nil hd]
        exact h.signed
    | cons c more =>
        rw [behindSign_of_cons (dropBlank_append_of_eq_cons hd rest),
          behindSign_of_cons (dropBlank_append_of_eq_cons hd rest')]
        split
        · exact noNumber_behind h.number more
        · exact noNumber_behind h.number (c :: more)

/-! ## Readers that stand -/

/-- If `p` succeeds, then with another text in place of what it leaves `q` takes
the same part and has the same value. -/
def Stands (K : List Char → List Char → Prop) (p q : Reader α) (text : List Char) :
    Prop :=
  ∀ a rest, p text = .ok a rest →
    ∃ read, text = read ++ rest ∧ ∀ rest', K rest rest' → q (read ++ rest') = .ok a rest'

section Steps

variable {K : List Char → List Char → Prop}

theorem Stands.mono {p q : Reader α} (h : Stands SameNext p q text) :
    Stands Unnoticed p q text := fun a rest hp => by
  obtain ⟨read, htext, hq⟩ := h a rest hp
  exact ⟨read, htext, fun rest' hK => hq rest' hK.next⟩

theorem stands_pure (a : α) : Stands K (pure a) (pure a) text := by
  intro b rest h
  cases h
  exact ⟨[], rfl, fun _ _ => rfl⟩

theorem stands_fail {kind : ParseError.Kind} {start : List Char} {q : Reader α} :
    Stands K (do throw ⟨kind, start, ← get⟩) q text := by
  intro a rest h
  cases h

theorem stands_expected {what : String} {q : Reader α} :
    Stands K (expected what) q text := by
  intro a rest h
  cases h

theorem Stands.bind {p q : Reader α} {f g : α → Reader β}
    (behind : ∀ {rest rest'} read, K rest rest' → K (read ++ rest) (read ++ rest'))
    (hp : Stands K p q text) (hf : ∀ a mid, p text = .ok a mid → Stands K (f a) (g a) mid) :
    Stands K (p >>= f) (q >>= g) text := by
  intro b rest h
  obtain ⟨a, mid, hpa, hfb⟩ := bind_eq_ok_iff.mp h
  obtain ⟨read, rfl, hq⟩ := hp a mid hpa
  obtain ⟨more, rfl, hg⟩ := hf a _ hpa b rest hfb
  refine ⟨read ++ more, (List.append_assoc ..).symm, fun rest' hK => ?_⟩
  rw [List.append_assoc, bind_of_ok (hq _ (behind more hK))]
  exact hg rest' hK

/-- The place where a reader begins may be any other one, if this makes no
difference to the values. -/
theorem Stands.get_bind {f g : List Char → Reader α}
    (hf : ∀ start start', Stands K (f start) (g start') text) :
    Stands K (get >>= f) (get >>= g) text := by
  intro a rest h
  obtain ⟨read, rfl, -⟩ := hf text text a rest h
  refine ⟨read, rfl, fun rest' hK => ?_⟩
  obtain ⟨read', heq, hg⟩ := hf (read ++ rest) (read ++ rest') a rest h
  obtain rfl := List.append_cancel_right heq
  exact hg rest' hK

theorem Stands.here_bind {f g : List Char → Reader α}
    (hf : ∀ start start', Stands Unnoticed (f start) (g start') (dropBlank text)) :
    Stands Unnoticed (here >>= f) (here >>= g) text := by
  intro a rest h
  obtain ⟨read, hread, hg⟩ := Stands.get_bind hf a rest h
  refine ⟨leadingBlanks text ++ read, eq_leadingBlanks_append hread, fun rest' hK => ?_⟩
  rw [bind_of_ok (here_eq _), SameNext.dropBlank_append hread (hK.next.behind read)]
  exact hg rest' hK

theorem Stands.orUnread {p q : Reader (Option α)} (hp : Stands K p q text)
    (missing : ∀ rest text', p text = .ok none rest → K text text' →
      ∃ rest', q text' = .ok none rest') :
    Stands K (orUnread p) (orUnread q) text := by
  intro found rest h
  cases hrun : p text with
  | ok found' mid =>
      cases found' with
      | none =>
          rw [orUnread_of_none hrun] at h
          cases h
          refine ⟨[], rfl, fun text' hK => ?_⟩
          obtain ⟨rest', hq⟩ := missing mid text' hrun hK
          exact orUnread_of_none hq
      | some a =>
          rw [orUnread_of_some hrun] at h
          cases h
          obtain ⟨read, htext, hq⟩ := hp _ _ hrun
          exact ⟨read, htext, fun rest' hK => orUnread_of_some (hq rest' hK)⟩
  | error fault mid =>
      rw [Reader.orUnread, hrun] at h
      cases h

end Steps

/-! ## Words -/

theorem stands_number : Stands SameNext number number text := by
  rintro (_ | n) rest h
  · obtain ⟨rfl, hnot⟩ := number_eq_none_iff.mp h
    refine ⟨leadingBlanks text, (leadingBlanks_append_dropBlank text).symm, fun rest' hK => ?_⟩
    refine number_eq_none_iff.mpr ⟨hK.dropBlank_eq, fun c hc => ?_⟩
    rw [hK.dropBlank_eq] at hc
    exact hnot c (hK c hc)
  · obtain ⟨digits, hd, run, stop⟩ := number_eq_some_iff.mp h
    refine ⟨leadingBlanks text ++ digits, eq_leadingBlanks_append hd, fun rest' hK => ?_⟩
    have hdrop := SameNext.dropBlank_append hd (hK.behind digits)
    exact number_of_digits hdrop run fun c hc => stop c (hK c hc)

theorem stands_literal {c : Char} : Stands SameNext (literal [c]) (literal [c]) text := by
  rintro (_ | _) rest h
  · obtain ⟨rfl, hhead⟩ := literal_eq_false_iff.mp h
    refine ⟨leadingBlanks text, (leadingBlanks_append_dropBlank text).symm, fun rest' hK => ?_⟩
    refine literal_eq_false_iff.mpr ⟨hK.dropBlank_eq, ?_⟩
    rw [hK.dropBlank_eq]
    exact fun hc => hhead (hK c hc)
  · have hd : dropBlank text = [c] ++ rest := literal_eq_true_iff.mp h
    refine ⟨leadingBlanks text ++ [c], eq_leadingBlanks_append hd, fun rest' hK => ?_⟩
    exact literal_of_head_eq (SameNext.dropBlank_append hd (hK.behind [c]))

theorem stands_require {c : Char} {what : String} :
    Stands SameNext (require [c] what) (require [c] what) text := by
  apply stands_literal.bind SameNext.behind
  rintro (_ | _) mid _
  · exact stands_expected
  · exact stands_pure ()

theorem stands_sign : Stands SameNext sign sign text := by
  apply stands_literal.bind SameNext.behind
  rintro (_ | _) mid _
  · apply stands_literal.bind SameNext.behind
    rintro (_ | _) mid' _
    · exact stands_pure 1
    · exact stands_pure (-1)
  · exact stands_pure 1

/-! ## Modifiers -/

/-- The number of a modifier with its sign, where the modifier began at
`start`. -/
def signed (start : List Char) : Reader (Option Int32) := do
  let factor ← sign
  let some n ← number | return none
  let some value := Width.signed32 (factor * n.toNat) | throw ⟨.overflow, start, ← get⟩
  return some value

theorem integer_eq : integer = here >>= fun start => orUnread (signed start) :=
  rfl

/-- An optional sign is a mark in front of the word behind it. -/
theorem exists_sign (text : List Char) :
    ∃ mark factor, Sign mark factor ∧ dropBlank text = mark ++ dropBlank (behindSign text) ∧
      sign text = .ok factor (behindSign text) := by
  unfold sign
  by_cases hplus : (dropBlank text).head? = some '+'
  · obtain ⟨rest, hd⟩ := List.head?_eq_some_iff.mp hplus
    have hbehind : behindSign text = rest := by rw [behindSign_of_cons hd, if_pos (by simp)]
    rw [hbehind, hd]
    exact ⟨'+' :: leadingBlanks rest, 1, .plus (blanks_leadingBlanks rest),
      congrArg ('+' :: ·) (leadingBlanks_append_dropBlank rest).symm,
      bind_of_ok (literal_of_head_eq hd)⟩
  · rw [bind_of_ok (literal_of_head_ne hplus)]
    by_cases hminus : (dropBlank text).head? = some '-'
    · obtain ⟨rest, hd⟩ := List.head?_eq_some_iff.mp hminus
      have hbehind : behindSign text = rest := by rw [behindSign_of_cons hd, if_pos (by simp)]
      have hmark : dropBlank (dropBlank text) = '-' :: rest := by
        rw [dropBlank_dropBlank, hd]
      rw [hbehind]
      exact ⟨'-' :: leadingBlanks rest, -1, .minus (blanks_leadingBlanks rest),
        hd.trans (congrArg ('-' :: ·) (leadingBlanks_append_dropBlank rest).symm),
        bind_of_ok (literal_of_head_eq hmark)⟩
    · have hnot : literal ['-'] (dropBlank text) = .ok false (dropBlank text) :=
        literal_eq_false_iff.mpr (by simp [hminus])
      have hbehind : behindSign text = dropBlank text := if_neg (not_or_intro hplus hminus)
      rw [hbehind]
      exact ⟨[], 1, .absent, (dropBlank_dropBlank text).symm, bind_of_ok hnot⟩

/-- There is no modifier exactly where no number stands behind the sign. -/
theorem signed_eq_none_iff {start : List Char} :
    (∃ rest, signed start text = .ok none rest) ↔ NoNumber (behindSign text) := by
  obtain ⟨-, factor, -, -, hsign⟩ := exists_sign text
  unfold signed
  rw [bind_of_ok hsign]
  constructor
  · rintro ⟨rest, h⟩
    obtain ⟨_ | n, mid, hnumber, h⟩ := bind_eq_ok_iff.mp h
    · exact (number_eq_none_iff.mp hnumber).2
    · dsimp only at h
      rcases hvalue : Width.signed32 (factor * n.toNat) with _ | value
      · rw [hvalue] at h
        cases h
      · rw [hvalue] at h
        cases h
  · intro hnot
    exact ⟨_, bind_of_ok (number_of_not_digit hnot)⟩

theorem stands_signed (start start' : List Char) :
    Stands SameNext (signed start) (signed start') text := by
  apply stands_sign.bind SameNext.behind
  intro factor mid _
  apply stands_number.bind SameNext.behind
  rintro (_ | n) mid' _
  · exact stands_pure none
  · dsimp only
    rcases Width.signed32 (factor * n.toNat) with _ | value
    · exact stands_fail
    · exact stands_pure (some value)

theorem stands_integer : Stands Unnoticed integer integer text := by
  rw [integer_eq]
  refine Stands.here_bind fun start start' =>
    Stands.orUnread (stands_signed start start').mono fun rest text' hnone hK => ?_
  exact signed_eq_none_iff.mpr (hK.signed (signed_eq_none_iff.mp ⟨rest, hnone⟩))

/-! ## Terms -/

theorem stands_afterLetter (start start' : List Char) (count : UInt32) :
    Stands Unnoticed (afterLetter start count) (afterLetter start' count) text := by
  apply stands_number.mono.bind Unnoticed.behind
  rintro (_ | sides) mid _
  · exact stands_expected
  · apply stands_integer.bind Unnoticed.behind
    intro modifier mid' _
    rcases Dice.Request.check ⟨count, sides, modifier.getD 0⟩ with error | dice
    · exact stands_fail
    · exact stands_pure dice

theorem stands_term : Stands Unnoticed term term text := by
  refine Stands.here_bind fun start start' => ?_
  apply stands_number.mono.bind Unnoticed.behind
  intro count mid _
  apply stands_require.mono.bind Unnoticed.behind
  intro _ mid' _
  exact stands_afterLetter start start' _

theorem stands_moreTerms (start start' : List Char) (room : Nat) :
    Stands Unnoticed (moreTerms start room) (moreTerms start' room) text := by
  induction room generalizing text with
  | zero =>
      rw [moreTerms, moreTerms]
      apply stands_literal.mono.bind Unnoticed.behind
      rintro (_ | _) mid _
      · exact stands_pure []
      · exact stands_fail
  | succ room ih =>
      rw [moreTerms, moreTerms]
      apply stands_literal.mono.bind Unnoticed.behind
      rintro (_ | _) mid _
      · exact stands_pure []
      · apply stands_term.bind Unnoticed.behind
        intro d mid' _
        apply ih.bind Unnoticed.behind
        exact fun ds mid'' _ => stands_pure (d :: ds)

theorem stands_chain : Stands Unnoticed chain chain text := by
  refine Stands.get_bind fun start start' => ?_
  apply stands_term.bind Unnoticed.behind
  intro d mid _
  apply (stands_moreTerms start start' _).bind Unnoticed.behind
  exact fun ds mid' _ => stands_pure _

/-! ## Clauses -/

/-- A number with an `x` behind it. -/
def counted : Reader (Option UInt32) := do
  let count ← number
  return if ← literal ['x'] then count else none

theorem counted_eq_some_iff {n : UInt32} :
    counted text = .ok (some n) rest ↔
      ∃ mid, number text = .ok (some n) mid ∧ dropBlank mid = 'x' :: rest := by
  unfold counted
  constructor
  · intro h
    obtain ⟨found, mid, hnumber, h⟩ := bind_eq_ok_iff.mp h
    obtain ⟨_ | _, last, hmark, h⟩ := bind_eq_ok_iff.mp h
    · cases h
    · cases h
      exact ⟨mid, hnumber, literal_eq_true_iff.mp hmark⟩
  · rintro ⟨mid, hnumber, hmark⟩
    rw [bind_of_ok hnumber, bind_of_ok (literal_of_head_eq hmark)]
    rfl

theorem number_dropBlank (text : List Char) : number (dropBlank text) = number text := by
  simp only [number, dropBlank_dropBlank]

theorem counted_dropBlank (text : List Char) : counted (dropBlank text) = counted text := by
  show EStateM.bind number _ _ = EStateM.bind number _ _
  simp only [EStateM.bind, number_dropBlank]

/-- A count ends with its `x`, whatever follows. -/
theorem counted_stands {n : UInt32} (h : counted text = .ok (some n) rest) :
    ∃ read, text = read ++ rest ∧ ∀ rest', counted (read ++ rest') = .ok (some n) rest' := by
  obtain ⟨mid, hnumber, hmark⟩ := counted_eq_some_iff.mp h
  have hx : dropBlank mid = ['x'] ++ rest := hmark
  have same : ∀ rest', SameNext (['x'] ++ rest) (['x'] ++ rest') := fun _ => sameNext_of_cons
  obtain ⟨read, rfl, hread⟩ := stands_number _ mid hnumber
  refine ⟨read ++ (leadingBlanks mid ++ ['x']), ?_, fun rest' => ?_⟩
  · rw [List.append_assoc, ← eq_leadingBlanks_append hx]
  · rw [List.append_assoc]
    refine counted_eq_some_iff.mpr
      ⟨_, hread _ ?_, SameNext.dropBlank_append hx (same rest')⟩
    have hmid := (same rest').behind (leadingBlanks mid)
    rwa [← List.append_assoc, ← eq_leadingBlanks_append hx, ← List.append_assoc] at hmid

/-- The first term of a chain has its letter where a count has its `x`. -/
theorem chain_of_counted {n : UInt32} (h : counted text = .ok (some n) rest) :
    chain text = .error ⟨.expected "'d'", 'x' :: rest, rest⟩ ('x' :: rest) := by
  obtain ⟨mid, hnumber, hmark⟩ := counted_eq_some_iff.mp h
  have hx : dropBlank ('x' :: rest) = 'x' :: rest := by rw [← hmark, dropBlank_dropBlank]
  have hletter : require ['d'] "'d'" mid =
      .error ⟨.expected "'d'", 'x' :: rest, rest⟩ ('x' :: rest) := by
    unfold require
    rw [bind_of_ok (literal_eq_false_iff.mpr ⟨hmark, by simp [hmark]⟩)]
    show (here >>= _) ('x' :: rest) = _
    rw [bind_of_ok (here_eq _), hx]
    rfl
  have hterm : term text = .error ⟨.expected "'d'", 'x' :: rest, rest⟩ ('x' :: rest) := by
    unfold term
    rw [bind_of_ok (here_eq text), bind_of_ok ((number_dropBlank text).trans hnumber)]
    exact bind_of_error hletter
  unfold chain
  rw [bind_of_ok (get_eq text)]
  exact bind_of_error hterm

/-- So many copies of a chain. -/
def copies (n : Nat) : Reader (List Expr) := do
  let expr ← chain
  return List.replicate n expr

theorem stands_copies (n : Nat) : Stands Unnoticed (copies n) (copies n) text := by
  apply stands_chain.bind Unnoticed.behind
  exact fun e mid _ => stands_pure _

section Repeats

variable {n : UInt32}

theorem repeats_of_counted (h : counted text = .ok (some n) rest) :
    repeats text =
      if maxRepeats < n.toNat then .error ⟨.tooManyRepeats, dropBlank text, rest⟩ rest
      else .ok n.toNat rest := by
  have hsome : lookFor counted (dropBlank text) = .ok (some n) rest := by
    rw [lookFor, counted_dropBlank, h]
  unfold repeats
  rw [bind_of_ok (here_eq text)]
  refine (bind_of_ok hsome).trans ?_
  dsimp only
  split <;> rfl

theorem clause_of_many (h : counted text = .ok (some n) rest) (many : maxRepeats < n.toNat) :
    clause text = .error ⟨.tooManyRepeats, dropBlank text, rest⟩ rest := by
  have hrepeats : repeats text = .error ⟨.tooManyRepeats, dropBlank text, rest⟩ rest := by
    rw [repeats_of_counted h, if_pos many]
  exact bind_of_error hrepeats

theorem clause_of_counted (h : counted text = .ok (some n) rest)
    (few : ¬ maxRepeats < n.toNat) : clause text = copies n.toNat rest := by
  have hrepeats : repeats text = .ok n.toNat rest := by
    rw [repeats_of_counted h, if_neg few]
  exact bind_of_ok hrepeats

theorem clause_of_not_counted (h : ∀ n rest, counted text ≠ .ok (some n) rest) :
    clause text = copies 1 (dropBlank text) := by
  have hnone : lookFor counted (dropBlank text) = .ok none (dropBlank text) := by
    unfold lookFor
    split
    · rename_i hcount
      exact absurd (counted_dropBlank text ▸ hcount) (h _ _)
    · rfl
  have hrepeats : repeats text = .ok 1 (dropBlank text) := by
    unfold repeats
    rw [bind_of_ok (here_eq text)]
    exact bind_of_ok hnone
  exact bind_of_ok hrepeats

end Repeats

theorem stands_clause : Stands Unnoticed clause clause text := by
  intro es rest h
  by_cases hcount : ∃ n mid, counted text = .ok (some n) mid
  · obtain ⟨n, mid, hcount⟩ := hcount
    obtain ⟨read, rfl, hread⟩ := counted_stands hcount
    by_cases many : maxRepeats < n.toNat
    · rw [clause_of_many hcount many] at h
      cases h
    · rw [clause_of_counted hcount many] at h
      obtain ⟨more, rfl, hmore⟩ := stands_copies _ es rest h
      refine ⟨read ++ more, (List.append_assoc ..).symm, fun rest' hK => ?_⟩
      rw [List.append_assoc, clause_of_counted (hread _) many]
      exact hmore rest' hK
  · rw [clause_of_not_counted fun n mid h => hcount ⟨n, mid, h⟩] at h
    obtain ⟨more, hd, hmore⟩ := stands_copies _ es rest h
    refine ⟨leadingBlanks text ++ more, eq_leadingBlanks_append hd, fun rest' hK => ?_⟩
    have hdrop := SameNext.dropBlank_append hd (hK.next.behind more)
    have hrun := hmore rest' hK
    -- A count on the other side would stand where the chain has its letter.
    have free : ∀ n mid, counted (leadingBlanks text ++ more ++ rest') ≠
        .ok (some n) mid := fun n mid h => by
      rw [← counted_dropBlank, hdrop] at h
      rw [copies, bind_of_error (chain_of_counted h)] at hrun
      cases hrun
    rw [clause_of_not_counted free, hdrop, hrun]

/-! ## Rolls -/

theorem stands_clauses : Stands Unnoticed clauses clauses text := by
  -- Every clause shortens the text.
  induction hn : text.length using Nat.strongRecOn generalizing text with
  | ind n ih =>
      subst hn
      rw [clauses_eq]
      apply stands_clause.bind Unnoticed.behind
      intro es mid hfirst
      apply stands_literal.mono.bind Unnoticed.behind
      rintro (_ | _) mid' hmark
      · exact stands_pure es
      · have shorter := Nat.lt_trans (length_lt_of_literal (by simp) hmark)
          (shortens_clause _ _ _ hfirst)
        apply (ih _ shorter rfl).bind Unnoticed.behind
        exact fun more last _ => stands_pure (es ++ more)

/-! ## Whole texts -/

section WholeTexts

variable {p : Reader α} {a : α}

theorem complete_of_error {fault : Fault} (h : p text = .error fault rest) :
    complete p text = .error fault rest :=
  bind_of_error h

theorem complete_of_end (h : p text = .ok a rest) (hd : dropBlank rest = []) :
    complete p text = .ok a [] := by
  rw [complete, bind_of_ok h, bind_of_ok (here_eq rest), hd]
  rfl

theorem complete_of_left (h : p text = .ok a rest) (hd : dropBlank rest ≠ []) :
    complete p text =
      .error ⟨.trailingInput, dropBlank rest, []⟩ (dropBlank rest) := by
  rw [complete, bind_of_ok h, bind_of_ok (here_eq rest),
    List.isEmpty_eq_false_iff.mpr hd]
  rfl

/-- A whole text fails as its reader does, or with what the reader leaves. -/
theorem complete_eq_error_iff {fault : Fault} :
    complete p text = .error fault rest ↔
      p text = .error fault rest ∨ ∃ a mid, p text = .ok a mid ∧ dropBlank mid ≠ [] ∧
        fault = ⟨.trailingInput, dropBlank mid, []⟩ ∧ rest = dropBlank mid := by
  constructor
  · intro h
    cases hrun : p text with
    | error fault' rest' =>
        rw [complete_of_error hrun] at h
        exact Or.inl h
    | ok a mid =>
        by_cases hd : dropBlank mid = []
        · rw [complete_of_end hrun hd] at h
          cases h
        · rw [complete_of_left hrun hd] at h
          cases h
          exact Or.inr ⟨a, mid, rfl, hd, rfl, rfl⟩
  · rintro (h | ⟨a, mid, h, hd, rfl, rfl⟩)
    · exact complete_of_error h
    · exact complete_of_left h hd

end WholeTexts

end Reader

end DiceTray
