/-!
# White space

The characters that may stand between the words of a roll are those with the Unicode property
White_Space: 25 code points in ten ranges. The table is the standard's. Core's own
`Char.isWhitespace` knows only four of them.
-/

namespace DiceTray.Text

/-- The ranges of code points, both ends included, that have the property White_Space. -/
def blankRanges : List (Nat × Nat) :=
  [(0x9, 0xD), (0x20, 0x20), (0x85, 0x85), (0xA0, 0xA0), (0x1680, 0x1680), (0x2000, 0x200A),
    (0x2028, 0x2029), (0x202F, 0x202F), (0x205F, 0x205F), (0x3000, 0x3000)]

/-- A blank is a character of the property White_Space. -/
def isBlank (c : Char) : Bool :=
  blankRanges.any fun range => range.1 ≤ c.toNat && c.toNat ≤ range.2

theorem isBlank_iff {c : Char} :
    isBlank c = true ↔ ∃ range ∈ blankRanges, range.1 ≤ c.toNat ∧ c.toNat ≤ range.2 := by
  simp only [isBlank, List.any_eq_true, Bool.and_eq_true, decide_eq_true_eq]

/-- No digit is blank, so a run of digits ends before white space. -/
theorem isBlank_eq_false_of_isDigit {c : Char} (h : c.isDigit = true) : isBlank c = false := by
  have h' : 48 ≤ c.toNat ∧ c.toNat ≤ 57 := by
    simp only [Char.isDigit, ge_iff_le, Bool.and_eq_true, decide_eq_true_eq,
      UInt32.le_iff_toNat_le] at h
    exact h
  rw [Bool.eq_false_iff, ne_eq, isBlank_iff]
  rintro ⟨range, mem, lo, hi⟩
  simp only [blankRanges, List.mem_cons, List.not_mem_nil, or_false] at mem
  rcases mem with rfl | rfl | rfl | rfl | rfl | rfl | rfl | rfl | rfl | rfl <;>
    simp only at lo hi <;> omega

/-- The text from its first character that is not blank on. -/
def dropBlank (text : List Char) : List Char :=
  text.dropWhile isBlank

@[simp] theorem dropBlank_nil : dropBlank [] = [] := rfl

theorem dropBlank_suffix (text : List Char) : dropBlank text <:+ text :=
  List.dropWhile_suffix _

theorem length_dropBlank_le (text : List Char) : (dropBlank text).length ≤ text.length :=
  (dropBlank_suffix text).length_le

theorem dropBlank_cons_of_isBlank {c : Char} (h : isBlank c = true) (text : List Char) :
    dropBlank (c :: text) = dropBlank text := by
  simp [dropBlank, h]

theorem dropBlank_cons_of_not_isBlank {c : Char} (h : isBlank c = false) (text : List Char) :
    dropBlank (c :: text) = c :: text := by
  simp [dropBlank, h]

/-- What is left after dropping blanks begins with none. -/
theorem isBlank_of_dropBlank_eq_cons {c : Char} {text rest : List Char}
    (h : dropBlank text = c :: rest) : isBlank c = false := by
  induction text with
  | nil => simp at h
  | cons d text ih =>
    by_cases hd : isBlank d = true
    · exact ih (by rwa [dropBlank_cons_of_isBlank hd] at h)
    · have hd' : isBlank d = false := by simpa using hd
      rw [dropBlank_cons_of_not_isBlank hd'] at h
      simp_all

@[simp] theorem dropBlank_dropBlank (text : List Char) :
    dropBlank (dropBlank text) = dropBlank text := by
  cases h : dropBlank text with
  | nil => rfl
  | cons c rest => exact dropBlank_cons_of_not_isBlank (isBlank_of_dropBlank_eq_cons h) rest

end DiceTray.Text
