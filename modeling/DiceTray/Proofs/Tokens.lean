import DiceTray.Text.Blank

/-!
# Tokens

The layout of a text carries no meaning beyond keeping two numbers apart. The
*token view* forgets it: blanks are dropped, a longest run of digits becomes one
number with its decimal value, however large, and every other character is a
token of its own. Readers are compared with the grammar on this view only.
-/

namespace DiceTray

/-- A number, known by its value, or a character that is neither digit nor
blank. -/
inductive Token where
  | num (value : Nat)
  | mark (c : Char)
deriving DecidableEq

namespace Text

/-- The tokens of a text. -/
def tokens : List Char → List Token
  | [] => []
  | c :: text =>
      if isBlank c then
        tokens text
      else if c.isDigit then
        .num (Nat.ofDigitChars 10 (c :: text.takeWhile Char.isDigit) 0) ::
          tokens (text.dropWhile Char.isDigit)
      else
        .mark c :: tokens text
termination_by text => text.length
decreasing_by
  · exact Nat.lt_succ_self _
  · exact Nat.lt_succ_of_le (List.dropWhile_suffix _).length_le
  · exact Nat.lt_succ_self _

@[simp] theorem tokens_nil : tokens [] = [] := by
  rw [tokens]

theorem tokens_cons_of_isBlank {c : Char} (h : isBlank c = true)
    (text : List Char) : tokens (c :: text) = tokens text := by
  rw [tokens, if_pos h]

theorem tokens_cons_mark {c : Char} (blank : isBlank c = false)
    (digit : c.isDigit = false) (text : List Char) :
    tokens (c :: text) = .mark c :: tokens text := by
  rw [tokens, blank, digit]
  rfl

/-- A run of digits that nothing continues is one number. -/
theorem tokens_digits_append {digits rest : List Char} (ne : digits ≠ [])
    (run : ∀ c ∈ digits, c.isDigit = true)
    (stop : ∀ c ∈ rest.head?, c.isDigit = false) :
    tokens (digits ++ rest) =
      .num (Nat.ofDigitChars 10 digits 0) :: tokens rest := by
  cases digits with
  | nil => exact absurd rfl ne
  | cons c digits =>
      have hc : c.isDigit = true := run c (by simp)
      have hrun : ∀ d ∈ digits, d.isDigit = true := fun d hd => run d (by simp [hd])
      have htake : rest.takeWhile Char.isDigit = [] := by
        cases rest with
        | nil => rfl
        | cons d rest => simp [stop d (by simp)]
      have hdrop : rest.dropWhile Char.isDigit = rest := by
        cases rest with
        | nil => rfl
        | cons d rest => simp [stop d (by simp)]
      rw [List.cons_append, tokens, isBlank_eq_false_of_isDigit hc, hc,
        List.takeWhile_append_of_pos hrun, List.dropWhile_append_of_pos hrun,
        htake, hdrop]
      simp

/-- White space in front of a text has no token. -/
@[simp] theorem tokens_dropBlank (text : List Char) :
    tokens (dropBlank text) = tokens text := by
  induction text with
  | nil => rfl
  | cons c text ih =>
      by_cases h : isBlank c = true
      · rw [dropBlank_cons_of_isBlank h, tokens_cons_of_isBlank h, ih]
      · rw [dropBlank_cons_of_not_isBlank (by simpa using h)]

/-! ## The first token

What stands in front of a text once its blanks are dropped decides its first
token. These three cases are all that a reader can tell apart. -/

theorem tokens_of_dropBlank_eq_nil {text : List Char}
    (h : dropBlank text = []) : tokens text = [] := by
  rw [← tokens_dropBlank, h, tokens_nil]

theorem tokens_of_digit {text rest : List Char} {c : Char}
    (h : dropBlank text = c :: rest) (digit : c.isDigit = true) :
    tokens text =
      .num (Nat.ofDigitChars 10 ((dropBlank text).takeWhile Char.isDigit) 0) ::
        tokens ((dropBlank text).dropWhile Char.isDigit) := by
  rw [← tokens_dropBlank, h, tokens, isBlank_eq_false_of_isDigit digit, digit]
  simp [digit]

theorem tokens_of_mark {text rest : List Char} {c : Char}
    (h : dropBlank text = c :: rest) (digit : c.isDigit = false) :
    tokens text = .mark c :: tokens rest := by
  rw [← tokens_dropBlank, h,
    tokens_cons_mark (isBlank_of_dropBlank_eq_cons h) digit]

/-- A character that is no digit and no blank is a token wherever it stands. -/
theorem mark_mem_tokens_iff {c : Char} (blank : isBlank c = false)
    (digit : c.isDigit = false) {text : List Char} :
    .mark c ∈ tokens text ↔ c ∈ text := by
  fun_induction tokens text with
  | case1 => simp
  | case2 d text hd ih =>
      have hne : c ≠ d := fun heq => by simp [← heq, blank] at hd
      rw [ih, List.mem_cons, or_iff_right hne]
  | case3 d text _ hd ih =>
      have hne : c ≠ d := fun heq => by simp [← heq, digit] at hd
      -- The run of digits that makes up the number holds no other character.
      have hrun : c ∉ text.takeWhile Char.isDigit := fun hmem => by
        have := List.all_eq_true.mp List.all_takeWhile c hmem
        rw [digit] at this
        cases this
      rw [List.mem_cons, or_iff_right (by simp), ih, List.mem_cons, or_iff_right hne]
      conv => rhs; rw [← List.takeWhile_append_dropWhile (p := Char.isDigit) (l := text)]
      rw [List.mem_append, or_iff_right hrun]
  | case4 d text _ _ ih =>
      rw [List.mem_cons, List.mem_cons, ih, Token.mark.injEq]

theorem tokens_eq_nil_iff {text : List Char} :
    tokens text = [] ↔ dropBlank text = [] := by
  constructor
  · intro h
    cases hd : dropBlank text with
    | nil => rfl
    | cons c rest =>
        by_cases digit : c.isDigit = true
        · rw [tokens_of_digit hd digit] at h
          cases h
        · rw [tokens_of_mark hd (by simpa using digit)] at h
          cases h
  · exact tokens_of_dropBlank_eq_nil

end Text

end DiceTray
