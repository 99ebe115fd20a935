import DiceTray.Proofs.Local
import DiceTray.Proofs.Places

/-!
# Numbers at a cursor

Everything that a reader of numbers can do, by cases on the text in front of it
(`NumberRun`, `IntegerRun`), and where each case leaves the cursor.

A cursor is said to stand at the next word if it has gone over white space only.
A number that is missing leaves it there, and so does one that is too large to be
read at all. A signed number has two more ways to fail, and neither goes back: a
number that is too large behind a sign leaves the cursor behind the sign, and a
number that is read but is too large with its sign leaves it behind the digits.
-/

namespace DiceTray

open Text Written

namespace Reader

variable {text rest : List Char}

/-- Behind its white space a text goes on with a mark, which may be empty, and
with a longest run of digits. -/
structure Shows (text mark digits rest : List Char) (n : Nat) : Prop where
  word : dropBlank text = mark ++ (digits ++ rest)
  run : Digits digits n
  stop : ∀ c ∈ rest.head?, c.isDigit = false

/-! ## Numbers without a sign -/

/-- What reading a number comes to. -/
inductive NumberRun (text : List Char) :
    EStateM.Result Fault (List Char) (Option UInt32) → Prop
  | absent : NoNumber text → NumberRun text (.ok none (dropBlank text))
  | fits {digits rest : List Char} {n : UInt32} :
      Shows text [] digits rest n.toNat → NumberRun text (.ok (some n) rest)
  | large {digits rest : List Char} {n : Nat} :
      Shows text [] digits rest n → 2 ^ 32 - 1 < n →
        NumberRun text (.error ⟨.overflow, digits ++ rest, rest⟩ (digits ++ rest))

/-- The digits that a text begins with. -/
theorem shows_digits (ne : (dropBlank text).takeWhile Char.isDigit ≠ []) :
    Shows text [] ((dropBlank text).takeWhile Char.isDigit)
      ((dropBlank text).dropWhile Char.isDigit)
      (Nat.ofDigitChars 10 ((dropBlank text).takeWhile Char.isDigit) 0) where
  word := List.takeWhile_append_dropWhile.symm
  run := digits_takeWhile ne
  stop _ := isDigit_of_mem_head?_dropWhile

theorem numberRun (text : List Char) : NumberRun text (number text) := by
  cases hnumber : number text with
  | ok found rest =>
      cases found with
      | none =>
          obtain ⟨rfl, hnot⟩ := number_eq_none_iff.mp hnumber
          exact .absent hnot
      | some n =>
          obtain ⟨digits, hword, run, stop⟩ := number_eq_some_iff.mp hnumber
          exact .fits ⟨hword, run, stop⟩
  | error fault rest =>
      unfold number at hnumber
      dsimp only at hnumber
      split at hnumber
      · cases hnumber
      · rename_i ne
        split at hnumber
        · cases hnumber
        · rename_i hlarge
          cases hnumber
          have hrun := NumberRun.large (shows_digits ne)
            (Width.unsigned32_eq_none_iff.mp hlarge)
          rwa [List.takeWhile_append_dropWhile] at hrun

/-! ## Numbers with a sign -/

/-- What reading a number with an optional sign comes to. -/
inductive IntegerRun (text : List Char) :
    EStateM.Result Fault (List Char) (Option Int32) → Prop
  | absent : NoNumber (behindSign text) → IntegerRun text (.ok none (dropBlank text))
  | fits {mark digits rest : List Char} {factor : Int} {n : Nat} {value : Int32} :
      Shows text mark digits rest n → Sign mark factor → value.toInt = factor * n →
        IntegerRun text (.ok (some value) rest)
  | outside {mark digits rest : List Char} {factor : Int} {n : Nat} :
      Shows text mark digits rest n → Sign mark factor → n ≤ 2 ^ 32 - 1 →
        ¬ (-2 ^ 31 ≤ factor * n ∧ factor * n ≤ 2 ^ 31 - 1) →
        IntegerRun text (.error ⟨.overflow, mark ++ (digits ++ rest), rest⟩ rest)
  | large {mark digits rest : List Char} {factor : Int} {n : Nat} :
      Shows text mark digits rest n → Sign mark factor → 2 ^ 32 - 1 < n →
        IntegerRun text (.error ⟨.overflow, digits ++ rest, rest⟩ (digits ++ rest))

/-- A sign does not bring a number back into range that is too large to be read. -/
theorem not_signed_of_large {mark : List Char} {factor : Int} {n : Nat}
    (hmark : Sign mark factor) (hn : 2 ^ 32 - 1 < n) :
    ¬ (-2 ^ 31 ≤ factor * n ∧ factor * n ≤ 2 ^ 31 - 1) := by
  cases hmark <;> omega

theorem integerRun (text : List Char) : IntegerRun text (integer text) := by
  obtain ⟨mark, factor, hmark, hword, hsign⟩ := exists_sign (dropBlank text)
  have hbehind : behindSign (dropBlank text) = behindSign text := by
    simp only [behindSign, dropBlank_dropBlank]
  rw [dropBlank_dropBlank, hbehind] at hword
  rw [hbehind] at hsign
  have hshows : ∀ {digits rest : List Char} {n : Nat},
      Shows (behindSign text) [] digits rest n → Shows text mark digits rest n :=
    fun h => ⟨hword.trans (congrArg (mark ++ ·) h.word), h.run, h.stop⟩
  have hinteger : integer text = orUnread (signed (dropBlank text)) (dropBlank text) := by
    rw [integer_eq, bind_of_ok (here_eq text)]
  have hnumber := numberRun (behindSign text)
  generalize hrun : number (behindSign text) = result at hnumber
  cases hnumber with
  | absent hnot =>
      have hsigned : signed (dropBlank text) (dropBlank text) =
          .ok none (dropBlank (behindSign text)) := by
        rw [signed, bind_of_ok hsign]
        exact bind_of_ok hrun
      rw [hinteger, orUnread_of_none hsigned]
      exact .absent hnot
  | @fits digits rest n hfits =>
      cases hvalue : Width.signed32 (factor * n.toNat) with
      | some value =>
          have hsigned : signed (dropBlank text) (dropBlank text) = .ok (some value) rest := by
            rw [signed, bind_of_ok hsign, bind_of_ok hrun]
            dsimp only
            rw [hvalue]
            rfl
          rw [hinteger, orUnread_of_some hsigned]
          exact .fits (hshows hfits) hmark (Width.signed32_eq_some_iff.mp hvalue)
      | none =>
          have hsigned : signed (dropBlank text) (dropBlank text) =
              .error ⟨.overflow, dropBlank text, rest⟩ rest := by
            rw [signed, bind_of_ok hsign, bind_of_ok hrun]
            dsimp only
            rw [hvalue]
            rfl
          rw [hinteger, orUnread, hsigned, (hshows hfits).word]
          refine .outside (hshows hfits) hmark ?_ ?_
          · have := n.toNat_lt
            omega
          · have := Width.signed32_eq_none_iff.mp hvalue
            omega
  | @large digits rest n hlarge hn =>
      have hsigned : signed (dropBlank text) (dropBlank text) =
          .error ⟨.overflow, digits ++ rest, rest⟩ (digits ++ rest) := by
        rw [signed, bind_of_ok hsign]
        exact bind_of_error hrun
      rw [hinteger, orUnread, hsigned]
      exact .large (hshows hlarge) hmark hn

end Reader

namespace Cursor

variable {c c' : Cursor} {rest : List Char}

/-- Nothing but white space lies between a cursor and the place where it stands
afterwards. There the next word begins, or the text ends. -/
structure AtWord (c c' : Cursor) : Prop where
  text_eq : c'.text = c.text
  blanks : ∃ blanks, Blanks blanks ∧ c.rest = blanks ++ c'.rest ∧
    c'.position = c.position + byteLength blanks
  word : ∀ d ∈ c'.rest.head?, isBlank d = false

theorem atWord_moveTo_iff (h : IsBoundary c.text c.position) (hrest : rest <:+ c.rest) :
    AtWord c (c.moveTo rest) ↔ rest = dropBlank c.rest := by
  have hmoved : (c.moveTo rest).rest = rest := rest_moveTo (hrest.trans c.rest_suffix)
  constructor
  · rintro ⟨-, ⟨blanks, hblanks, hc, -⟩, hword⟩
    rw [hmoved] at hc hword
    rw [hc, dropBlank_append hblanks, dropBlank_eq_self hword]
  · rintro rfl
    have hsplit := leadingBlanks_append_dropBlank c.rest
    refine ⟨rfl, ⟨leadingBlanks c.rest, blanks_leadingBlanks _, ?_, ?_⟩, fun d hd => ?_⟩
    · rw [hmoved, hsplit]
    · have hlength := h.byteLength_eq
      change byteLength c.text = c.position + byteLength c.rest at hlength
      rw [← hsplit, byteLength_append] at hlength
      show byteLength c.text - byteLength (dropBlank c.rest) = _
      omega
    · rw [hmoved] at hd
      exact isBlank_of_mem_head?_dropBlank hd

theorem atWord_of_eq (h : IsBoundary c.text c.position)
    (hc' : c' = c.moveTo (dropBlank c.rest)) : AtWord c c' :=
  hc' ▸ (atWord_moveTo_iff h (dropBlank_suffix _)).mpr rfl

/-- **Failed reads of numbers.** A number that is missing leaves the cursor at the
next word, be it read with a sign or without, and so does a number without a
sign that is too large. A signed number that is out of range leaves it behind the
sign if the number alone is too large, and behind the digits otherwise. So it
stands at the next word exactly if there is no sign and the number alone is too
large. -/
theorem failed_number_read (h : IsBoundary c.text c.position) :
    (number.run c = .ok none c' ∨ (∃ error, number.run c = .error error c') →
      AtWord c c') ∧
    (integer.run c = .ok none c' → AtWord c c') ∧
    ∀ error, integer.run c = .error error c' →
      ∃ mark digits rest factor n, Reader.Shows c.rest mark digits rest n ∧
        Sign mark factor ∧ ¬ (-2 ^ 31 ≤ factor * n ∧ factor * n ≤ 2 ^ 31 - 1) ∧
        c' = c.moveTo (if 2 ^ 32 - 1 < n then digits ++ rest else rest) ∧
        (AtWord c c' ↔ mark = [] ∧ 2 ^ 32 - 1 < n) := by
  refine ⟨?_, fun hrun => ?_, fun error hrun => ?_⟩
  · have hnumber := Reader.numberRun c.rest
    rintro (hrun | ⟨error, hrun⟩)
    · obtain ⟨rest, hread, rfl⟩ := run_read_eq_ok_iff.mp hrun
      rw [hread] at hnumber
      cases hnumber
      exact atWord_of_eq h rfl
    · obtain ⟨fault, rest, hread, -, rfl⟩ := run_read_eq_error_iff.mp hrun
      rw [hread] at hnumber
      cases hnumber with
      | large hshown _ => exact atWord_of_eq h (congrArg c.moveTo hshown.word.symm)
  · obtain ⟨rest, hread, rfl⟩ := run_read_eq_ok_iff.mp hrun
    have hinteger := Reader.integerRun c.rest
    rw [hread] at hinteger
    cases hinteger
    exact atWord_of_eq h rfl
  · obtain ⟨fault, rest, hread, -, rfl⟩ := run_read_eq_error_iff.mp hrun
    have hsuffix := Reader.trailing_integer c.rest
    rw [hread] at hsuffix
    have hatWord : AtWord c (c.moveTo rest) ↔ rest = dropBlank c.rest :=
      atWord_moveTo_iff h hsuffix
    have hinteger := Reader.integerRun c.rest
    rw [hread] at hinteger
    cases hinteger with
    | @outside mark digits _ factor n hshown hsign hn hrange =>
        refine ⟨mark, digits, rest, factor, n, hshown, hsign, hrange, ?_, ?_⟩
        · rw [if_neg (by omega)]
        · -- It has gone over the digits, and there is one at least.
          refine iff_of_false (fun hat => ?_) (by omega)
          rw [hatWord, hshown.word, ← List.append_assoc, List.self_eq_append_left,
            List.append_eq_nil_iff] at hat
          exact hshown.run.ne_nil hat.2
    | @large mark digits rest factor n hshown hsign hn =>
        refine ⟨mark, digits, rest, factor, n, hshown, hsign, ?_, ?_, ?_⟩
        · exact Reader.not_signed_of_large hsign hn
        · rw [if_pos hn]
        · rw [hatWord, hshown.word, List.self_eq_append_left, and_iff_left hn]

/-- A number that is read, and is too large only by its sign, is gone over as a whole. -/
theorem passes_number_out_of_range :
    ∃ error c', integer.run (ofString "+2147483648") = .error error c' ∧
      c'.position = 11 ∧ ¬ AtWord (ofString "+2147483648") c' := by
  refine ⟨⟨.overflow, 0, 11⟩, ⟨"+2147483648".toList, 11⟩, by rfl, rfl, ?_⟩
  rintro ⟨-, ⟨blanks, hblanks, hrest, -⟩, -⟩
  have hplus : '+' ∈ blanks := by
    rw [← List.append_nil blanks]
    exact hrest ▸ List.mem_cons_self
  exact absurd (hblanks _ hplus) (by decide)

/-- A sign is gone over even where the number behind it cannot be read. -/
theorem failed_number_read_behind_sign :
    IsBoundary "- 5000000000".toList 0 ∧
      integer.run (ofString "- 5000000000") =
        .error ⟨.overflow, 2, 12⟩ ⟨"- 5000000000".toList, 2⟩ ∧
      ∃ mark digits rest factor n,
        Reader.Shows "- 5000000000".toList mark digits rest n ∧ Sign mark factor ∧
          ¬ (-2 ^ 31 ≤ factor * n ∧ factor * n ≤ 2 ^ 31 - 1) ∧
          (⟨"- 5000000000".toList, 2⟩ : Cursor) =
            (ofString "- 5000000000").moveTo
              (if 2 ^ 32 - 1 < n then digits ++ rest else rest) ∧
          (AtWord (ofString "- 5000000000") ⟨"- 5000000000".toList, 2⟩ ↔
            mark = [] ∧ 2 ^ 32 - 1 < n) :=
  ⟨isBoundary_zero _, by rfl,
    (failed_number_read (c := ofString "- 5000000000") (isBoundary_zero _)).2.2 _ (by rfl)⟩

end Cursor

end DiceTray
