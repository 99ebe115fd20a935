import DiceTray.Dice
import DiceTray.Text.Blank
import Mathlib.Algebra.Order.Ring.Int
import Mathlib.Data.List.TakeWhile

/-!
# How phrases are written

The grammar says what phrases are made of in tokens. Here the same phrases are
texts, with the white space between their words. That is what a span of bytes
can be compared with. Numbers stand for their value, however large it is, and
whether one is out of range is said apart.

A run of digits is one word, so a text is never taken apart inside of it
(`Apart`).
-/

namespace DiceTray.Written

open Text

/-! ## Phrases -/

def Blanks (text : List Char) : Prop :=
  ∀ c ∈ text, isBlank c = true

/-- One digit or more, with the number they stand for, however large. -/
structure Digits (text : List Char) (value : Nat) : Prop where
  ne_nil : text ≠ []
  digit : ∀ c ∈ text, c.isDigit = true
  value_eq : Nat.ofDigitChars 10 text 0 = value

/-- No run of digits goes on from one text into the next. -/
def Apart (front back : List Char) : Prop :=
  ∀ c ∈ front.getLast?, ∀ d ∈ back.head?, c.isDigit = true → d.isDigit = false

/-- A longest run of digits, between what stands in front of it and behind. -/
structure Run (before text after : List Char) (value : Nat) : Prop
    extends Digits text value where
  apart_before : Apart before text
  apart_after : Apart text after

inductive Count : List Char → Nat → Prop
  | absent : Count [] 1
  | given {digits : List Char} {n : Nat} : Digits digits n → Count digits n

/-- A text that ends with the letter and the sides of a term. -/
inductive UpToSides : List Char → Prop
  | intro {front blanks digits : List Char} {sides : Nat} :
      Blanks blanks → Digits digits sides →
        UpToSides (front ++ 'd' :: (blanks ++ digits))

/-- An optional sign with the white space behind it, and its factor. -/
inductive Sign : List Char → Int → Prop
  | absent : Sign [] 1
  | plus {blanks : List Char} : Blanks blanks → Sign ('+' :: blanks) 1
  | minus {blanks : List Char} : Blanks blanks → Sign ('-' :: blanks) (-1)

/-- A modifier with the white space in front of it. That white space is there
also where no modifier is. -/
inductive Modifier : List Char → Int → Prop
  | absent {blanks : List Char} : Blanks blanks → Modifier blanks 0
  | given {blanks sign digits : List Char} {factor : Int} {n : Nat} :
      Blanks blanks → Sign sign factor → Digits digits n →
        Modifier (blanks ++ (sign ++ digits)) (factor * n)

/-- An optional count, the letter, the sides and an optional modifier. -/
inductive Term : List Char → Nat → Nat → Int → Prop
  | intro {front blanks blanks' digits back : List Char} {count sides : Nat}
      {modifier : Int} :
      Count front count → Blanks blanks → Blanks blanks' → Digits digits sides →
        Modifier back modifier →
          Term (front ++ (blanks ++ 'd' :: (blanks' ++ (digits ++ back)))) count
            sides modifier

/-- What is wrong with so many dice of so many sides. -/
inductive Refused (count sides : Nat) : DiceError → Prop
  | tooFewDice {got : UInt32} : got.toNat = count → count = 0 →
      Refused count sides (.tooFewDice got)
  | tooManyDice {got : UInt32} : got.toNat = count → 10000 < count →
      Refused count sides (.tooManyDice got)
  | tooFewSides {got : UInt32} : got.toNat = sides → sides = 0 →
      1 ≤ count ∧ count ≤ 10000 → Refused count sides (.tooFewSides got)

/-! ## Where texts may be taken apart -/

theorem apart_of_head {front back : List Char}
    (h : ∀ d ∈ back.head?, d.isDigit = false) : Apart front back :=
  fun _ _ d hd _ => h d hd

theorem apart_of_getLast {front back : List Char}
    (h : ∀ c ∈ front.getLast?, c.isDigit = false) : Apart front back := by
  intro c hc _ _ digit
  rw [h c hc] at digit
  cases digit

/-- What stands further in front does not matter. -/
theorem apart_append_left {front mid back : List Char} (ne : mid ≠ []) :
    Apart (front ++ mid) back ↔ Apart mid back := by
  unfold Apart
  rw [List.getLast?_append, List.getLast?_eq_some_getLast ne, Option.some_or]

/-- What stands further behind does not matter. -/
theorem apart_append_right {front mid back : List Char} (ne : mid ≠ []) :
    Apart front (mid ++ back) ↔ Apart front mid := by
  unfold Apart
  rw [List.head?_append, List.head?_eq_some_head ne, Option.some_or]

theorem Blanks.isDigit_eq_false {text : List Char} (h : Blanks text) {c : Char}
    (hc : c ∈ text) : c.isDigit = false := by
  cases digit : c.isDigit with
  | false => rfl
  | true =>
      have hblank := h c hc
      rw [isBlank_eq_false_of_isDigit digit] at hblank
      cases hblank

theorem Blanks.and_not_mem {text : List Char} (h : Blanks text) : '&' ∉ text := by
  intro hmem
  have hblank := h _ hmem
  revert hblank
  decide

theorem Blanks.count_and {text : List Char} (h : Blanks text) :
    text.count '&' = 0 :=
  List.count_eq_zero.mpr h.and_not_mem

/-- The digits that a text begins with. -/
theorem digits_takeWhile {text : List Char} (ne : text.takeWhile Char.isDigit ≠ []) :
    Digits (text.takeWhile Char.isDigit)
      (Nat.ofDigitChars 10 (text.takeWhile Char.isDigit) 0) :=
  ⟨ne, fun _ => List.mem_takeWhile_imp, rfl⟩

/-- The digits that a text begins with have no digit behind them. -/
theorem isDigit_of_mem_head?_dropWhile {text : List Char} {c : Char}
    (hc : c ∈ (text.dropWhile Char.isDigit).head?) : c.isDigit = false := by
  have hnot := List.head?_dropWhile_not Char.isDigit text
  rw [Option.mem_def.mp hc] at hnot
  simpa using hnot

theorem Digits.and_not_mem {text : List Char} {value : Nat} (h : Digits text value) :
    '&' ∉ text := by
  intro hmem
  have hdigit := h.digit _ hmem
  revert hdigit
  decide

theorem Count.and_not_mem {text : List Char} {n : Nat} (h : Count text n) :
    '&' ∉ text := by
  cases h with
  | absent => simp
  | given hdigits => exact hdigits.and_not_mem

theorem Modifier.and_not_mem {text : List Char} {n : Int} (h : Modifier text n) :
    '&' ∉ text := by
  cases h with
  | absent hblanks => exact hblanks.and_not_mem
  | given hblanks hsign hdigits =>
      simp only [List.mem_append, not_or]
      refine ⟨hblanks.and_not_mem, ?_, hdigits.and_not_mem⟩
      cases hsign with
      | absent => simp
      | plus hblanks => simpa using hblanks.and_not_mem
      | minus hblanks => simpa using hblanks.and_not_mem

/-- The white space that a text begins with. -/
def leadingBlanks (text : List Char) : List Char :=
  text.takeWhile isBlank

theorem leadingBlanks_append_dropBlank (text : List Char) :
    leadingBlanks text ++ dropBlank text = text :=
  List.takeWhile_append_dropWhile

theorem blanks_leadingBlanks (text : List Char) : Blanks (leadingBlanks text) :=
  fun _ => List.mem_takeWhile_imp

@[simp] theorem leadingBlanks_dropBlank (text : List Char) :
    leadingBlanks (dropBlank text) = [] := by
  have h := leadingBlanks_append_dropBlank (dropBlank text)
  rwa [dropBlank_dropBlank, List.append_left_eq_self] at h

end DiceTray.Written
