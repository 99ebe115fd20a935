import DiceTray.CommandLine
import Mathlib.Data.List.DropRight

/-!
# The first line

Standard input is a series of bytes, and its first line ends at the first byte
10. In UTF-8 this byte is the line feed and no part of any other character, so
the bytes of the first line are those of the text up to its first line feed. The
line that is rolled is this text without the carriage returns at its end.
-/

namespace DiceTray

namespace Text

/-- The bytes of a text in UTF-8. -/
def utf8 (text : List Char) : List UInt8 :=
  text.flatMap String.utf8EncodeChar

theorem toList_toUTF8 (text : String) : text.toUTF8.data.toList = utf8 text.toList := by
  rw [String.toUTF8, ← String.utf8Encode_toList]
  show (utf8 text.toList).toByteArray.data.toList = _
  rw [List.data_toByteArray]

theorem fromUTF8?_utf8 (text : List Char) :
    String.fromUTF8? (utf8 text).toByteArray = some (String.ofList text) :=
  dif_pos (ByteArray.IsValidUTF8.intro text rfl)

/-- The byte of the line feed is part of no other character. -/
theorem ne_newline_of_mem_utf8EncodeChar {c : Char} {b : UInt8} (hc : c ≠ '\n')
    (hb : b ∈ String.utf8EncodeChar c) : b ≠ 10 := by
  have hcode : c.val.toNat ≠ 10 := fun h => hc (Char.toNat_inj.mp h)
  rintro rfl
  have byte {n : Nat} (h : 10 = UInt8.ofNat n) : n % 256 = 10 := by
    have := congrArg UInt8.toNat h
    rw [UInt8.toNat_ofNat'] at this
    exact this.symm
  unfold String.utf8EncodeChar at hb
  dsimp only at hb
  split at hb
  · have := byte (List.mem_singleton.mp hb)
    omega
  · -- All other characters are written with bytes from 128 on.
    split at hb
    · simp only [List.mem_cons, List.not_mem_nil, or_false] at hb
      rcases hb with hb | hb <;> have := byte hb <;> omega
    · split at hb
      · simp only [List.mem_cons, List.not_mem_nil, or_false] at hb
        rcases hb with hb | hb | hb <;> have := byte hb <;> omega
      · simp only [List.mem_cons, List.not_mem_nil, or_false] at hb
        rcases hb with hb | hb | hb | hb <;> have := byte hb <;> omega

/-- The first line in bytes is the first line in characters. -/
theorem takeWhile_utf8 (text : List Char) :
    (utf8 text).takeWhile (· ≠ 10) = utf8 (text.takeWhile (· ≠ '\n')) := by
  induction text with
  | nil => rfl
  | cons c text ih =>
      show (String.utf8EncodeChar c ++ utf8 text).takeWhile _ = _
      by_cases hc : c = '\n'
      · subst hc
        rw [List.takeWhile_cons_of_neg (by simp)]
        rfl
      · have hbytes : ∀ b ∈ String.utf8EncodeChar c, (b ≠ 10 : Bool) = true :=
          fun b hb => decide_eq_true (ne_newline_of_mem_utf8EncodeChar hc hb)
        rw [List.takeWhile_append_of_pos hbytes, ih,
          List.takeWhile_cons_of_pos (by simpa using hc)]
        rfl

end Text

open Text

namespace CommandLine

variable {text line : List Char}

/-- A line is the first of a text without the carriage returns and the line feed
that may end it. -/
inductive FirstLine : List Char → List Char → Prop
  | intro {line returns rest : List Char} (feeds : '\n' ∉ line)
      (trimmed : ∀ c ∈ line.getLast?, c ≠ '\r') (trimmings : ∀ c ∈ returns, c = '\r')
      (stop : ∀ c ∈ rest.head?, c = '\n') : FirstLine (line ++ (returns ++ rest)) line

theorem FirstLine.eq (h : FirstLine text line) :
    (text.takeWhile (· ≠ '\n')).rdropWhile (· = '\r') = line := by
  cases h with
  | @intro _ returns rest feeds trimmed trimmings stop =>
      have hrest : rest.takeWhile (· ≠ '\n') = [] := by
        cases rest with
        | nil => rfl
        | cons c rest => exact List.takeWhile_cons_of_neg (by simpa using stop c)
      have hreturns : ∀ c ∈ returns, (c ≠ '\n' : Bool) = true := fun c hc => by
        rw [trimmings c hc]
        decide
      have hline : ∀ c ∈ line, (c ≠ '\n' : Bool) = true := fun c hc =>
        decide_eq_true fun h => feeds (h ▸ hc)
      rw [List.takeWhile_append_of_pos hline, List.takeWhile_append_of_pos hreturns, hrest,
        List.append_nil, List.rdropWhile, List.reverse_append,
        List.dropWhile_append_of_pos (by simpa using trimmings)]
      apply List.rdropWhile_eq_self_iff.mpr
      intro hne
      simpa using trimmed _ (List.getLast?_eq_some_getLast hne)

/-- Every text has a first line. -/
theorem firstLine_takeWhile (text : List Char) :
    FirstLine text ((text.takeWhile (· ≠ '\n')).rdropWhile (· = '\r')) := by
  generalize hfront : text.takeWhile (· ≠ '\n') = front
  have feeds : '\n' ∉ front.rdropWhile (· = '\r') := fun h => by
    have hmem := (List.rdropWhile_prefix _ front).subset h
    rw [← hfront] at hmem
    simpa using List.mem_takeWhile_imp hmem
  have trimmed : ∀ c ∈ (front.rdropWhile (· = '\r')).getLast?, c ≠ '\r' := fun c hc => by
    obtain ⟨hne, rfl⟩ := List.mem_getLast?_eq_getLast hc
    simpa using List.rdropWhile_last_not _ _ hne
  have trimmings : ∀ c ∈ front.rtakeWhile (· = '\r'), c = '\r' := fun c hc => by
    simpa using List.mem_rtakeWhile_imp hc
  have stop : ∀ c ∈ (text.dropWhile (· ≠ '\n')).head?, c = '\n' := fun c hc => by
    have := List.head?_dropWhile_not (· ≠ '\n') text
    rw [Option.mem_def.mp hc] at this
    simpa using this
  have h := FirstLine.intro feeds trimmed trimmings stop
  rwa [← List.append_assoc, List.rdropWhile_append_rtakeWhile, ← hfront,
    List.takeWhile_append_dropWhile, hfront] at h

/-- Without arguments the first line of standard input is what is rolled. -/
theorem input_nil (text : String) :
    input [] text.toUTF8.data.toList =
      some (String.ofList ((text.toList.takeWhile (· ≠ '\n')).rdropWhile (· = '\r'))) := by
  show (String.fromUTF8? (firstLine _).toByteArray).map trimReturns = _
  rw [firstLine, toList_toUTF8, takeWhile_utf8, fromUTF8?_utf8, Option.map_some, trimReturns,
    String.toList_ofList]
  rfl

/-- A line that ends with a line feed is rolled as it is, whatever follows. -/
theorem input_nil_append {text : String} (feeds : '\n' ∉ text.toList)
    (trimmed : ∀ c ∈ text.toList.getLast?, c ≠ '\r') (more : List UInt8) :
    input [] (text.toUTF8.data.toList ++ 10 :: more) = some text := by
  have hbytes : ∀ b ∈ utf8 text.toList, (b ≠ 10 : Bool) = true := fun b hb => by
    obtain ⟨c, hc, hb⟩ := List.mem_flatMap.mp hb
    exact decide_eq_true (ne_newline_of_mem_utf8EncodeChar (fun h => feeds (h ▸ hc)) hb)
  have htrim : text.toList.rdropWhile (· = '\r') = text.toList :=
    List.rdropWhile_eq_self_iff.mpr fun hne => by
      simpa using trimmed _ (List.getLast?_eq_some_getLast hne)
  show (String.fromUTF8? (firstLine _).toByteArray).map trimReturns = _
  rw [firstLine, toList_toUTF8, List.takeWhile_append_of_pos hbytes,
    List.takeWhile_cons_of_neg (by simp), List.append_nil, fromUTF8?_utf8, String.ofList_toList]
  show some (String.ofList (text.toList.rdropWhile (· = '\r'))) = _
  rw [htrim, String.ofList_toList]

end CommandLine

end DiceTray
