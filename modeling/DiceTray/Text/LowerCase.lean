import DiceTray.Text.Blank
import DiceTray.Text.Bytes

/-!
# Lower case

Capital letters of ASCII become small ones, and all other characters stay as they are. No character
changes its size by that, so a byte offset means the same place before and after. None becomes a
blank either, so white space is where it was.
-/

namespace DiceTray.Text

def lowerCase (text : List Char) : List Char :=
  text.map Char.toLower

@[simp] theorem lowerCase_append (front back : List Char) :
    lowerCase (front ++ back) = lowerCase front ++ lowerCase back := by
  simp [lowerCase]

/-- A character stays as it is unless it is a capital letter. The small letters lie 32 behind. -/
theorem toLower_cases (c : Char) :
    c.toLower = c ∨ (65 ≤ c.toNat ∧ c.toNat ≤ 90) ∧ c.toLower.toNat = c.toNat + 32 := by
  unfold Char.toLower
  split
  · rename_i h
    have lo : 65 ≤ c.val.toNat := UInt32.le_iff_toNat_le.1 h.1
    have hi : c.val.toNat ≤ 90 := UInt32.le_iff_toNat_le.1 h.2
    refine Or.inr ⟨⟨lo, hi⟩, ?_⟩
    show (c.val + ('a'.val - 'A'.val)).toNat = c.val.toNat + 32
    rw [UInt32.toNat_add]
    show (c.val.toNat + 32) % 2 ^ 32 = _
    omega
  · exact Or.inl rfl

theorem utf8Size_eq_one {c : Char} (h : c.toNat ≤ 127) : c.utf8Size = 1 :=
  Char.utf8Size_eq_one_iff.2 (UInt32.le_iff_toNat_le.2 h)

theorem utf8Size_toLower (c : Char) : c.toLower.utf8Size = c.utf8Size := by
  rcases toLower_cases c with same | ⟨⟨lo, hi⟩, small⟩
  · rw [same]
  · rw [utf8Size_eq_one (by omega), utf8Size_eq_one (by omega)]

@[simp] theorem byteLength_lowerCase (text : List Char) :
    byteLength (lowerCase text) = byteLength text := by
  induction text with
  | nil => rfl
  | cons c text ih =>
    show byteLength (c.toLower :: lowerCase text) = _
    rw [byteLength_cons, byteLength_cons, utf8Size_toLower, ih]

/-- No letter is blank, be it a capital or a small one. -/
theorem isBlank_toLower (c : Char) : isBlank c.toLower = isBlank c := by
  have gap : ∀ range ∈ blankRanges, range.2 < 65 ∨ 122 < range.1 := by decide
  have letter : ∀ d : Char, 65 ≤ d.toNat → d.toNat ≤ 122 → isBlank d = false := by
    intro d lo hi
    rw [Bool.eq_false_iff, ne_eq, isBlank_iff]
    rintro ⟨range, mem, lo', hi'⟩
    have := gap range mem
    omega
  rcases toLower_cases c with same | ⟨⟨lo, hi⟩, small⟩
  · rw [same]
  · rw [letter c lo (by omega), letter c.toLower (by omega) (by omega)]

theorem takeWhile_isBlank_lowerCase (text : List Char) :
    (lowerCase text).takeWhile isBlank = lowerCase (text.takeWhile isBlank) := by
  have same : isBlank ∘ Char.toLower = isBlank := funext isBlank_toLower
  rw [lowerCase, List.takeWhile_map, same, lowerCase]

/-- A character of a text in lower case was there before, or its capital was. -/
theorem mem_lowerCase {c : Char} {text : List Char} (h : c ∈ lowerCase text) :
    c ∈ text ∨ ∃ d ∈ text, 65 ≤ d.toNat ∧ d.toNat ≤ 90 ∧ c.toNat = d.toNat + 32 := by
  obtain ⟨d, mem, rfl⟩ := List.mem_map.1 h
  rcases toLower_cases d with same | ⟨⟨lo, hi⟩, small⟩
  · exact Or.inl (same.symm ▸ mem)
  · exact Or.inr ⟨d, mem, lo, hi, small⟩

theorem x_mem_lowerCase_iff {text : List Char} :
    'x' ∈ lowerCase text ↔ 'x' ∈ text ∨ 'X' ∈ text := by
  constructor
  · intro h
    refine (mem_lowerCase h).imp_right ?_
    rintro ⟨d, mem, -, -, small⟩
    have capital : d = 'X' := Char.toNat_inj.1 (Nat.add_right_cancel small.symm)
    exact capital ▸ mem
  · rintro (h | h)
    · exact List.mem_map.2 ⟨'x', h, rfl⟩
    · exact List.mem_map.2 ⟨'X', h, rfl⟩

end DiceTray.Text
