import DiceTray.Proofs.Numbers

/-!
# What numbers read as

A number is read for its exact value, however many zeros stand in front of it. A
text shows a number in one way only: the sign, the digits and what stands behind
them are all determined (`Shows.unique`). So what a reader comes to can be told
by cases on the number that the text shows, and each case in both directions: a
value and nothing else for a number in range, a fault for one that is out of
range, and nothing where there is no number.
-/

namespace DiceTray

open Text Written

namespace Reader

variable {text mark mark' digits digits' rest rest' : List Char}
  {factor factor' : Int} {n n' : Nat}

/-! ## One way to show a number -/

theorem Shows.exists_cons (h : Shows text mark digits rest n) :
    ∃ d more, digits = d :: more ∧ d.isDigit = true := by
  obtain ⟨d, more, rfl⟩ := List.exists_cons_of_ne_nil h.run.ne_nil
  exact ⟨d, more, rfl, h.run.digit d List.mem_cons_self⟩

theorem Shows.dropBlank_digits (h : Shows text mark digits rest n) :
    dropBlank (digits ++ rest) = digits ++ rest := by
  obtain ⟨d, more, rfl, digit⟩ := h.exists_cons
  exact dropBlank_cons_of_not_isBlank (isBlank_eq_false_of_isDigit digit) _

/-- Behind the sign the next word is the digits. -/
theorem Shows.dropBlank_behindSign (h : Shows text mark digits rest n)
    (hmark : Sign mark factor) : dropBlank (behindSign text) = digits ++ rest := by
  have hword := h.word
  cases hmark with
  | absent =>
      obtain ⟨d, more, rfl, digit⟩ := h.exists_cons
      have hsign : ¬ (d = '+' ∨ d = '-') := by
        rintro (rfl | rfl)
        · exact absurd digit (by decide)
        · exact absurd digit (by decide)
      rw [behindSign_of_cons hword, if_neg hsign]
      exact h.dropBlank_digits
  | plus hblanks =>
      rw [behindSign_of_cons hword, if_pos (by simp)]
      exact (dropBlank_append hblanks _).trans h.dropBlank_digits
  | minus hblanks =>
      rw [behindSign_of_cons hword, if_pos (by simp)]
      exact (dropBlank_append hblanks _).trans h.dropBlank_digits

theorem Shows.not_noNumber (h : Shows text mark digits rest n) (hmark : Sign mark factor) :
    ¬ NoNumber (behindSign text) := by
  intro hnot
  obtain ⟨d, more, rfl, digit⟩ := h.exists_cons
  rw [NoNumber, h.dropBlank_behindSign hmark] at hnot
  rw [hnot d rfl] at digit
  cases digit

theorem Shows.takeWhile_eq (h : Shows text mark digits rest n) :
    (digits ++ rest).takeWhile Char.isDigit = digits := by
  rw [List.takeWhile_append_of_pos h.run.digit]
  cases rest with
  | nil => rw [List.takeWhile_nil, List.append_nil]
  | cons c rest => rw [List.takeWhile_cons_of_neg (by simp [h.stop c rfl]), List.append_nil]

/-- A mark has one factor. -/
theorem factor_unique (h : Sign mark factor) (h' : Sign mark factor') : factor = factor' := by
  cases h <;> cases h' <;> rfl

/-- A text does not show two numbers. -/
theorem Shows.unique (h : Shows text mark digits rest n) (hmark : Sign mark factor)
    (h' : Shows text mark' digits' rest' n') (hmark' : Sign mark' factor') :
    mark = mark' ∧ factor = factor' ∧ digits = digits' ∧ rest = rest' ∧ n = n' := by
  have hbehind : digits ++ rest = digits' ++ rest' :=
    (h.dropBlank_behindSign hmark).symm.trans (h'.dropBlank_behindSign hmark')
  have hdigits : digits = digits' := by
    rw [← h.takeWhile_eq, hbehind, h'.takeWhile_eq]
  subst hdigits
  obtain rfl : rest = rest' := List.append_cancel_left hbehind
  obtain rfl : mark = mark' := List.append_cancel_right (h.word.symm.trans h'.word)
  exact ⟨rfl, factor_unique hmark hmark', rfl, rfl, h.run.value_eq.symm.trans h'.run.value_eq⟩

/-! ## Numbers that are read -/

theorem number_eq_ok_some_iff {v : UInt32} :
    number text = .ok (some v) rest ↔ ∃ digits, Shows text [] digits rest v.toNat := by
  rw [number_eq_some_iff]
  exact ⟨fun ⟨digits, hword, run, stop⟩ => ⟨digits, hword, run, stop⟩,
    fun ⟨digits, h⟩ => ⟨digits, h.word, h.run, h.stop⟩⟩

theorem number_of_large (h : Shows text [] digits rest n) (hn : 2 ^ 32 - 1 < n) :
    number text = .error ⟨.overflow, digits ++ rest, rest⟩ (digits ++ rest) := by
  have hrun := numberRun text
  generalize number text = result at hrun
  cases hrun with
  | absent hnot =>
      obtain ⟨d, more, rfl, digit⟩ := h.exists_cons
      rw [NoNumber, h.word] at hnot
      rw [hnot d rfl] at digit
      cases digit
  | @fits _ _ v h' =>
      obtain ⟨-, -, -, -, rfl⟩ := h.unique .absent h' .absent
      have := v.toNat_lt
      omega
  | large h' _ =>
      obtain ⟨-, -, rfl, rfl, -⟩ := h.unique .absent h' .absent
      rfl

theorem number_eq_error_iff {fault : Fault} {left : List Char} :
    number text = .error fault left ↔
      ∃ digits rest n, Shows text [] digits rest n ∧ 2 ^ 32 - 1 < n ∧
        fault = ⟨.overflow, digits ++ rest, rest⟩ ∧ left = digits ++ rest := by
  constructor
  · intro h
    have hrun := numberRun text
    rw [h] at hrun
    cases hrun with
    | large hshows hn => exact ⟨_, _, _, hshows, hn, rfl, rfl⟩
  · rintro ⟨digits, rest, n, hshows, hn, rfl, rfl⟩
    exact number_of_large hshows hn

/-! ## Numbers that are read with a sign -/

/-- A value of 32 bits is in range. -/
theorem signed_of_toInt {w : Int32} (hw : w.toInt = factor * n) :
    -2 ^ 31 ≤ factor * n ∧ factor * n ≤ 2 ^ 31 - 1 := by
  have := w.le_toInt
  have := w.toInt_lt
  omega

theorem integer_of_fits {w : Int32} (h : Shows text mark digits rest n)
    (hmark : Sign mark factor) (hw : w.toInt = factor * n) :
    integer text = .ok (some w) rest := by
  have hrun := integerRun text
  generalize integer text = result at hrun
  cases hrun with
  | absent hnot => exact absurd hnot (h.not_noNumber hmark)
  | fits h' hmark' hw' =>
      obtain ⟨-, rfl, -, rfl, rfl⟩ := h.unique hmark h' hmark'
      rw [Int32.toInt_inj.mp (hw'.trans hw.symm)]
  | outside h' hmark' _ hout =>
      obtain ⟨-, rfl, -, -, rfl⟩ := h.unique hmark h' hmark'
      exact absurd (signed_of_toInt hw) hout
  | large h' hmark' hn =>
      obtain ⟨-, rfl, -, -, rfl⟩ := h.unique hmark h' hmark'
      exact absurd (signed_of_toInt hw) (not_signed_of_large hmark hn)

theorem integer_of_not_signed (h : Shows text mark digits rest n) (hmark : Sign mark factor)
    (hout : ¬ (-2 ^ 31 ≤ factor * n ∧ factor * n ≤ 2 ^ 31 - 1)) :
    integer text =
      if 2 ^ 32 - 1 < n then .error ⟨.overflow, digits ++ rest, rest⟩ (digits ++ rest)
      else .error ⟨.overflow, mark ++ (digits ++ rest), rest⟩ rest := by
  have hrun := integerRun text
  generalize integer text = result at hrun
  cases hrun with
  | absent hnot => exact absurd hnot (h.not_noNumber hmark)
  | fits h' hmark' hw =>
      obtain ⟨-, rfl, -, -, rfl⟩ := h.unique hmark h' hmark'
      exact absurd (signed_of_toInt hw) hout
  | outside h' hmark' hn _ =>
      obtain ⟨rfl, -, rfl, rfl, rfl⟩ := h.unique hmark h' hmark'
      rw [if_neg (Nat.not_lt.mpr hn)]
  | large h' hmark' hn =>
      obtain ⟨-, -, rfl, rfl, rfl⟩ := h.unique hmark h' hmark'
      rw [if_pos hn]

theorem integer_eq_ok_some_iff {w : Int32} :
    integer text = .ok (some w) rest ↔
      ∃ mark factor digits n, Shows text mark digits rest n ∧ Sign mark factor ∧
        w.toInt = factor * n := by
  constructor
  · intro h
    have hrun := integerRun text
    rw [h] at hrun
    cases hrun with
    | fits hshows hmark hw => exact ⟨_, _, _, _, hshows, hmark, hw⟩
  · rintro ⟨mark, factor, digits, n, hshows, hmark, hw⟩
    exact integer_of_fits hshows hmark hw

theorem integer_eq_ok_none_iff :
    integer text = .ok none rest ↔
      (¬ ∃ mark factor digits rest n, Shows text mark digits rest n ∧ Sign mark factor) ∧
        rest = dropBlank text := by
  constructor
  · intro h
    have hrun := integerRun text
    rw [h] at hrun
    cases hrun with
    | absent hnot =>
        refine ⟨?_, rfl⟩
        rintro ⟨mark, factor, digits, rest, n, hshows, hmark⟩
        exact hshows.not_noNumber hmark hnot
  · rintro ⟨hnone, rfl⟩
    have hrun := integerRun text
    generalize integer text = result at hrun
    cases hrun with
    | absent _ => rfl
    | fits hshows hmark _ => exact absurd ⟨_, _, _, _, _, hshows, hmark⟩ hnone
    | outside hshows hmark _ _ => exact absurd ⟨_, _, _, _, _, hshows, hmark⟩ hnone
    | large hshows hmark _ => exact absurd ⟨_, _, _, _, _, hshows, hmark⟩ hnone

theorem integer_eq_error_iff {fault : Fault} {left : List Char} :
    integer text = .error fault left ↔
      ∃ mark factor digits rest n, Shows text mark digits rest n ∧ Sign mark factor ∧
        ¬ (-2 ^ 31 ≤ factor * n ∧ factor * n ≤ 2 ^ 31 - 1) ∧
        fault = ⟨.overflow, (if 2 ^ 32 - 1 < n then [] else mark) ++ (digits ++ rest), rest⟩ ∧
        left = if 2 ^ 32 - 1 < n then digits ++ rest else rest := by
  constructor
  · intro h
    have hrun := integerRun text
    rw [h] at hrun
    cases hrun with
    | outside hshows hmark hn hout =>
        refine ⟨_, _, _, _, _, hshows, hmark, hout, ?_⟩
        rw [if_neg (Nat.not_lt.mpr hn), if_neg (Nat.not_lt.mpr hn)]
        exact ⟨rfl, rfl⟩
    | large hshows hmark hn =>
        refine ⟨_, _, _, _, _, hshows, hmark, not_signed_of_large hmark hn, ?_⟩
        rw [if_pos hn, if_pos hn]
        exact ⟨rfl, rfl⟩
  · rintro ⟨mark, factor, digits, rest, n, hshows, hmark, hout, rfl, rfl⟩
    rw [integer_of_not_signed hshows hmark hout]
    split <;> rfl

end Reader

/-- Zeros in front of a number do not change it. -/
theorem Written.digits_zeros_toDigits (zeros n : Nat) :
    Digits (List.replicate zeros '0' ++ Nat.toDigits 10 n) n where
  ne_nil := List.append_ne_nil_of_right_ne_nil _ Nat.toDigits_ne_nil
  digit d hd := by
    rcases List.mem_append.mp hd with hzero | hdigit
    · rw [List.eq_of_mem_replicate hzero]
      rfl
    · exact Nat.isDigit_of_mem_toDigits (by decide) (by decide) hdigit
  value_eq := by
    rw [Nat.ofDigitChars_append, Nat.ofDigitChars_replicate_zero, Nat.mul_zero,
      Nat.ofDigitChars_ten_toDigits]

namespace Cursor

open Reader

variable {c c' : Cursor} {read rest : List Char}

/-- The cursor past a text that it had in front of it. -/
def past (c : Cursor) (read : List Char) : Cursor :=
  { c with position := c.position + byteLength read }

/-- The cursor where the next word begins, or where the text ends. -/
def nextWord (c : Cursor) : Cursor :=
  c.past (leadingBlanks c.rest)

theorem moveTo_eq_past (h : IsBoundary c.text c.position) (hrest : c.rest = read ++ rest) :
    c.moveTo rest = c.past read := by
  have hlength := h.byteLength_eq
  change byteLength c.text = c.position + byteLength c.rest at hlength
  rw [hrest, byteLength_append] at hlength
  simp only [moveTo, past, mk.injEq, true_and]
  omega

/-- What is left behind a word tells where the cursor is. -/
theorem moveTo_eq_nextWord_past (h : IsBoundary c.text c.position)
    (hword : dropBlank c.rest = read ++ rest) : c.moveTo rest = c.nextWord.past read := by
  have hrest : c.rest = leadingBlanks c.rest ++ read ++ rest := by
    rw [List.append_assoc, ← hword, leadingBlanks_append_dropBlank]
  rw [moveTo_eq_past h hrest]
  simp only [nextWord, past, byteLength_append, Nat.add_assoc]

theorem moveTo_dropBlank (h : IsBoundary c.text c.position) :
    c.moveTo (dropBlank c.rest) = c.nextWord :=
  @moveTo_eq_nextWord_past _ [] _ h rfl

/-- The span of a fault goes from one place of the cursor to another. -/
theorem toError_eq_moveTo (c : Cursor) (kind : ParseError.Kind) (start stop : List Char) :
    (⟨kind, start, stop⟩ : Fault).toError (byteLength c.text) =
      ⟨kind, (c.moveTo start).position, (c.moveTo stop).position⟩ :=
  rfl

/-! ## At a cursor -/

section Runs

variable {mark digits : List Char} {factor : Int} {n : Nat} (h : IsBoundary c.text c.position)

include h

theorem moveTo_behind_mark (hshows : Shows c.rest mark digits rest n) :
    c.moveTo (digits ++ rest) = c.nextWord.past mark :=
  moveTo_eq_nextWord_past h hshows.word

theorem moveTo_behind_digits (hshows : Shows c.rest mark digits rest n) :
    c.moveTo rest = c.nextWord.past (mark ++ digits) :=
  moveTo_eq_nextWord_past h (by rw [hshows.word, List.append_assoc])

theorem run_number_eq_ok_none_iff :
    number.run c = .ok none c' ↔ NoNumber c.rest ∧ c' = c.nextWord := by
  rw [number, run_read_eq_ok_iff]
  constructor
  · rintro ⟨rest, hread, rfl⟩
    obtain ⟨rfl, hnot⟩ := number_eq_none_iff.mp hread
    exact ⟨hnot, moveTo_dropBlank h⟩
  · rintro ⟨hnot, rfl⟩
    exact ⟨_, number_eq_none_iff.mpr ⟨rfl, hnot⟩, (moveTo_dropBlank h).symm⟩

theorem run_number_eq_ok_some_iff {v : UInt32} :
    number.run c = .ok (some v) c' ↔
      ∃ digits rest, Shows c.rest [] digits rest v.toNat ∧ c' = c.nextWord.past digits := by
  rw [number, run_read_eq_ok_iff]
  constructor
  · rintro ⟨rest, hread, rfl⟩
    obtain ⟨digits, hshows⟩ := number_eq_ok_some_iff.mp hread
    exact ⟨digits, rest, hshows, moveTo_behind_digits h hshows⟩
  · rintro ⟨digits, rest, hshows, rfl⟩
    have hplace : c.moveTo rest = c.nextWord.past digits := moveTo_behind_digits h hshows
    exact ⟨rest, number_eq_ok_some_iff.mpr ⟨digits, hshows⟩, hplace.symm⟩

theorem run_number_eq_error_iff {error : ParseError} :
    number.run c = .error error c' ↔
      ∃ digits rest n, Shows c.rest [] digits rest n ∧ 2 ^ 32 - 1 < n ∧
        error = ⟨.overflow, c.nextWord.position, (c.nextWord.past digits).position⟩ ∧
        c' = c.nextWord := by
  have hplaces : ∀ {digits rest : List Char} {n : Nat}, Shows c.rest [] digits rest n →
      c.moveTo (digits ++ rest) = c.nextWord ∧ c.moveTo rest = c.nextWord.past digits :=
    fun hshows => ⟨moveTo_behind_mark h hshows, moveTo_behind_digits h hshows⟩
  rw [number, run_read_eq_error_iff]
  constructor
  · rintro ⟨fault, left, hread, rfl, rfl⟩
    obtain ⟨digits, rest, n, hshows, hn, rfl, rfl⟩ := number_eq_error_iff.mp hread
    obtain ⟨hstart, hstop⟩ := hplaces hshows
    refine ⟨digits, rest, n, hshows, hn, ?_, hstart⟩
    rw [toError_eq_moveTo, hstart, hstop]
  · rintro ⟨digits, rest, n, hshows, hn, rfl, rfl⟩
    obtain ⟨hstart, hstop⟩ := hplaces hshows
    refine ⟨_, _, number_eq_error_iff.mpr ⟨digits, rest, n, hshows, hn, rfl, rfl⟩, ?_,
      hstart.symm⟩
    rw [toError_eq_moveTo, hstart, hstop]

theorem run_integer_eq_ok_none_iff :
    integer.run c = .ok none c' ↔
      (¬ ∃ mark factor digits rest n, Shows c.rest mark digits rest n ∧ Sign mark factor) ∧
        c' = c.nextWord := by
  rw [integer, run_read_eq_ok_iff]
  constructor
  · rintro ⟨rest, hread, rfl⟩
    obtain ⟨hnone, rfl⟩ := integer_eq_ok_none_iff.mp hread
    exact ⟨hnone, moveTo_dropBlank h⟩
  · rintro ⟨hnone, rfl⟩
    exact ⟨_, integer_eq_ok_none_iff.mpr ⟨hnone, rfl⟩, (moveTo_dropBlank h).symm⟩

theorem run_integer_eq_ok_some_iff {w : Int32} :
    integer.run c = .ok (some w) c' ↔
      ∃ mark factor digits rest n, Shows c.rest mark digits rest n ∧ Sign mark factor ∧
        w.toInt = factor * n ∧ c' = c.nextWord.past (mark ++ digits) := by
  rw [integer, run_read_eq_ok_iff]
  constructor
  · rintro ⟨rest, hread, rfl⟩
    obtain ⟨mark, factor, digits, n, hshows, hmark, hw⟩ := integer_eq_ok_some_iff.mp hread
    exact ⟨mark, factor, digits, rest, n, hshows, hmark, hw, moveTo_behind_digits h hshows⟩
  · rintro ⟨mark, factor, digits, rest, n, hshows, hmark, hw, rfl⟩
    exact ⟨rest, integer_eq_ok_some_iff.mpr ⟨mark, factor, digits, n, hshows, hmark, hw⟩,
      (moveTo_behind_digits h hshows).symm⟩

/-- Where a number that is out of range begins for the span, and where the cursor
is left: behind the sign if the number cannot be read at all. -/
theorem moveTo_of_out_of_range (hshows : Shows c.rest mark digits rest n) :
    c.moveTo ((if 2 ^ 32 - 1 < n then [] else mark) ++ (digits ++ rest)) =
        c.nextWord.past (if 2 ^ 32 - 1 < n then mark else []) ∧
      c.moveTo (if 2 ^ 32 - 1 < n then digits ++ rest else rest) =
        c.nextWord.past (if 2 ^ 32 - 1 < n then mark else mark ++ digits) := by
  split
  · have hplace := moveTo_behind_mark h hshows
    exact ⟨hplace, hplace⟩
  · refine ⟨?_, moveTo_behind_digits h hshows⟩
    rw [← hshows.word]
    exact moveTo_dropBlank h

theorem run_integer_eq_error_iff {error : ParseError} :
    integer.run c = .error error c' ↔
      ∃ mark factor digits rest n, Shows c.rest mark digits rest n ∧ Sign mark factor ∧
        ¬ (-2 ^ 31 ≤ factor * n ∧ factor * n ≤ 2 ^ 31 - 1) ∧
        error = ⟨.overflow, (c.nextWord.past (if 2 ^ 32 - 1 < n then mark else [])).position,
          (c.nextWord.past (mark ++ digits)).position⟩ ∧
        c' = c.nextWord.past (if 2 ^ 32 - 1 < n then mark else mark ++ digits) := by
  rw [integer, run_read_eq_error_iff]
  constructor
  · rintro ⟨fault, left, hread, rfl, rfl⟩
    obtain ⟨mark, factor, digits, rest, n, hshows, hmark, hout, rfl, rfl⟩ :=
      integer_eq_error_iff.mp hread
    obtain ⟨hstart, hleft⟩ := moveTo_of_out_of_range h hshows
    refine ⟨mark, factor, digits, rest, n, hshows, hmark, hout, ?_, hleft⟩
    rw [toError_eq_moveTo, hstart, moveTo_behind_digits h hshows]
  · rintro ⟨mark, factor, digits, rest, n, hshows, hmark, hout, rfl, rfl⟩
    obtain ⟨hstart, hleft⟩ := moveTo_of_out_of_range h hshows
    refine ⟨_, _, integer_eq_error_iff.mpr
      ⟨mark, factor, digits, rest, n, hshows, hmark, hout, rfl, rfl⟩, ?_, hleft.symm⟩
    rw [toError_eq_moveTo, hstart, moveTo_behind_digits h hshows]

/-- A value is read back from its digits, with zeros in front of them and any sign
that fits. -/
theorem run_integer_of_digits {w : Int32} {zeros : Nat}
    (hmark : Sign mark factor) (hw : factor * w.toInt.natAbs = w.toInt)
    (stop : ∀ d ∈ rest.head?, d.isDigit = false)
    (hword : dropBlank c.rest =
      mark ++ (List.replicate zeros '0' ++ Nat.toDigits 10 w.toInt.natAbs ++ rest)) :
    integer.run c = .ok (some w) (c.nextWord.past
      (mark ++ (List.replicate zeros '0' ++ Nat.toDigits 10 w.toInt.natAbs))) :=
  (run_integer_eq_ok_some_iff h).mpr
    ⟨mark, factor, _, rest, _, ⟨hword, digits_zeros_toDigits zeros _, stop⟩, hmark, hw.symm,
      rfl⟩

end Runs

/-- **Exact numbers.** Reading a number comes to nothing exactly if the next word
does not begin with a digit. It comes to a value exactly if the longest run of
digits there stands for this value, and to a fault over just this run exactly if
the run stands for more than 32 bits can hold. With an optional sign, reading
comes to a value exactly if there are a sign and a run of digits that together
stand for this value, to a fault exactly if they stand for one that is out of
range, and to nothing exactly if there is no such number. The cursor is behind
the digits if there is a value, and at the next word if there is nothing.

So every value is read back from its digits, however many zeros stand in front of
them, behind any sign that fits. -/
theorem number_reads_exact (h : IsBoundary c.text c.position) :
    ((number.run c = .ok none c' ↔ NoNumber c.rest ∧ c' = c.nextWord) ∧
      (∀ v, number.run c = .ok (some v) c' ↔
        ∃ digits rest, Shows c.rest [] digits rest v.toNat ∧ c' = c.nextWord.past digits) ∧
      ∀ error, number.run c = .error error c' ↔
        ∃ digits rest n, Shows c.rest [] digits rest n ∧ 2 ^ 32 - 1 < n ∧
          error = ⟨.overflow, c.nextWord.position, (c.nextWord.past digits).position⟩ ∧
          c' = c.nextWord) ∧
    ((integer.run c = .ok none c' ↔
        (¬ ∃ mark factor digits rest n,
          Shows c.rest mark digits rest n ∧ Sign mark factor) ∧ c' = c.nextWord) ∧
      (∀ w, integer.run c = .ok (some w) c' ↔
        ∃ mark factor digits rest n, Shows c.rest mark digits rest n ∧ Sign mark factor ∧
          w.toInt = factor * n ∧ c' = c.nextWord.past (mark ++ digits)) ∧
      ∀ error, integer.run c = .error error c' ↔
        ∃ mark factor digits rest n, Shows c.rest mark digits rest n ∧ Sign mark factor ∧
          ¬ (-2 ^ 31 ≤ factor * n ∧ factor * n ≤ 2 ^ 31 - 1) ∧
          error = ⟨.overflow,
            (c.nextWord.past (if 2 ^ 32 - 1 < n then mark else [])).position,
            (c.nextWord.past (mark ++ digits)).position⟩ ∧
          c' = c.nextWord.past (if 2 ^ 32 - 1 < n then mark else mark ++ digits)) ∧
    ∀ (w : Int32) (mark : List Char) (factor : Int) (zeros : Nat) (rest : List Char),
      Sign mark factor → factor * w.toInt.natAbs = w.toInt →
        (∀ d ∈ rest.head?, d.isDigit = false) →
        dropBlank c.rest =
          mark ++ (List.replicate zeros '0' ++ Nat.toDigits 10 w.toInt.natAbs ++ rest) →
        integer.run c = .ok (some w) (c.nextWord.past
          (mark ++ (List.replicate zeros '0' ++ Nat.toDigits 10 w.toInt.natAbs))) :=
  ⟨⟨run_number_eq_ok_none_iff h, fun _ => run_number_eq_ok_some_iff h,
      fun _ => run_number_eq_error_iff h⟩,
    ⟨run_integer_eq_ok_none_iff h, fun _ => run_integer_eq_ok_some_iff h,
      fun _ => run_integer_eq_error_iff h⟩,
    fun _ _ _ _ _ hmark hw stop hword => run_integer_of_digits h hmark hw stop hword⟩

/-- The least value, behind its sign, white space and zeros. Without its sign it
is no number at this place. -/
theorem number_reads_exact_least :
    IsBoundary "d6 - 002147483648;".toList 2 ∧
      number.run ⟨"d6 - 002147483648;".toList, 2⟩ =
        .ok none ⟨"d6 - 002147483648;".toList, 3⟩ ∧
      integer.run ⟨"d6 - 002147483648;".toList, 2⟩ =
        .ok (some (-2147483648)) ⟨"d6 - 002147483648;".toList, 17⟩ := by
  have h : IsBoundary "d6 - 002147483648;".toList 2 := ⟨['d', '6'], _, rfl, rfl⟩
  obtain ⟨⟨hnone, -, -⟩, -, hread⟩ := @number_reads_exact
    ⟨"d6 - 002147483648;".toList, 2⟩ ⟨"d6 - 002147483648;".toList, 3⟩ h
  refine ⟨h, hnone.mpr ⟨?_, rfl⟩, ?_⟩
  · rintro d ⟨⟩
    rfl
  · refine hread (-2147483648) ['-', ' '] (-1) 2 [';'] (.minus ?_) (by decide) ?_ rfl
    · rintro d hd
      rw [List.mem_singleton.mp hd]
      rfl
    · rintro d ⟨⟩
      rfl

end Cursor

end DiceTray
