/-!
# Byte offsets

Places in a text are counted in the bytes of its UTF-8 encoding, while the text itself is a list of
characters. `byteLength` measures a text and `dropBytes` goes to an offset. The main statements:
lengths add up over `++`, and dropping the length of the first part of a text leaves the second,
so an offset that falls between two characters loses nothing.
-/

namespace DiceTray.Text

/-- The number of bytes of a text in UTF-8. -/
def byteLength (text : List Char) : Nat :=
  text.foldr (fun c length => c.utf8Size + length) 0

@[simp] theorem byteLength_nil : byteLength [] = 0 := rfl

@[simp] theorem byteLength_cons (c : Char) (text : List Char) :
    byteLength (c :: text) = c.utf8Size + byteLength text := rfl

@[simp] theorem byteLength_append (front back : List Char) :
    byteLength (front ++ back) = byteLength front + byteLength back := by
  induction front with
  | nil => simp
  | cons c front ih => rw [List.cons_append, byteLength_cons, byteLength_cons, ih, Nat.add_assoc]

theorem utf8ByteSize_ofList (text : List Char) :
    (String.ofList text).utf8ByteSize = byteLength text := by
  induction text with
  | nil => simp
  | cons c text ih =>
    rw [← List.singleton_append, String.ofList_append, String.utf8ByteSize_append, ih]
    simp

/-- The length of a string in bytes is that of its characters. -/
@[simp] theorem byteLength_toList (s : String) : byteLength s.toList = s.utf8ByteSize := by
  rw [← utf8ByteSize_ofList, String.ofList_toList]

/-- A text has at least as many bytes as characters. -/
theorem length_le_byteLength (text : List Char) : text.length ≤ byteLength text := by
  induction text with
  | nil => simp
  | cons c text ih =>
    have := c.utf8Size_pos
    simp only [List.length_cons, byteLength_cons]
    omega

theorem byteLength_le_of_suffix {front back : List Char} (h : back <:+ front) :
    byteLength back ≤ byteLength front := by
  obtain ⟨lead, rfl⟩ := h
  simp

/-- The text from a byte offset on; nothing, where the offset lies inside a character or past the
end of the text. -/
def dropBytes : Nat → List Char → List Char
  | 0, text => text
  | _ + 1, [] => []
  | n + 1, c :: text => if c.utf8Size ≤ n + 1 then dropBytes (n + 1 - c.utf8Size) text else []

@[simp] theorem dropBytes_zero (text : List Char) : dropBytes 0 text = text := by
  cases text <;> rfl

@[simp] theorem dropBytes_nil (n : Nat) : dropBytes n [] = [] := by
  cases n <;> rfl

theorem dropBytes_utf8Size_add (c : Char) (n : Nat) (text : List Char) :
    dropBytes (c.utf8Size + n) (c :: text) = dropBytes n text := by
  have pos := c.utf8Size_pos
  obtain ⟨k, hk⟩ : ∃ k, c.utf8Size + n = k + 1 := ⟨c.utf8Size + n - 1, by omega⟩
  rw [hk, dropBytes, if_pos (by omega), show k + 1 - c.utf8Size = n by omega]

/-- The end of the first part of a text is the place where its second part begins. -/
@[simp] theorem dropBytes_byteLength_append (front back : List Char) :
    dropBytes (byteLength front) (front ++ back) = back := by
  induction front with
  | nil => simp
  | cons c front ih => rw [byteLength_cons, List.cons_append, dropBytes_utf8Size_add, ih]

theorem dropBytes_suffix (n : Nat) (text : List Char) : dropBytes n text <:+ text := by
  induction text generalizing n with
  | nil => simp
  | cons c text ih =>
    cases n with
    | zero => simp
    | succ n =>
      rw [dropBytes]
      split
      · exact (ih _).trans (List.suffix_cons c text)
      · exact List.nil_suffix

end DiceTray.Text
