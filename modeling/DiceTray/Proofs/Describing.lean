import DiceTray.Proofs.Marks
import DiceTray.Rolled

/-!
# What a description tells

The description of a result is its total, its outcomes up to a limit with the
number of those left out, and its modifier. All of this can be told from the
text again. No part holds the mark that ends it: a total holds no blank, what is
listed holds no bracket, and an item of the list holds no comma. So two texts
that are equal are equal part by part. The number of outcomes left out is one
more item of the list (`items`), be there others in front of it or not, and its
letters tell it from an outcome.
-/

namespace DiceTray.Rolled

/-! ## What is listed -/

/-- An item of the list in a description: an outcome, or the number of those that
are left out. -/
inductive Item where
  | outcome (value : UInt32)
  | more (number : Nat)

/-- The letters behind the number of outcomes that are left out. -/
def moreText : List Char :=
  [' ', 'm', 'o', 'r', 'e', '.', '.', '.']

def Item.text : Item → List Char
  | .outcome value => Nat.toDigits 10 value.toNat
  | .more number => Nat.toDigits 10 number ++ moreText

/-- What is listed where so many outcomes are left out. -/
def items (shown : List UInt32) (hidden : Nat) : List Item :=
  shown.map .outcome ++ if hidden = 0 then [] else [.more hidden]

theorem items_inj {shown shown' : List UInt32} {hidden hidden' : Nat}
    (h : items shown hidden = items shown' hidden') :
    shown = shown' ∧ hidden = hidden' := by
  unfold items at h
  induction shown generalizing shown' with
  | nil =>
      cases shown' with
      | nil =>
          refine ⟨rfl, ?_⟩
          split at h <;> split at h <;> simp_all
      | cons outcome shown' => exact absurd h (by split <;> simp)
  | cons outcome shown ih =>
      cases shown' with
      | nil => exact absurd h.symm (by split <;> simp)
      | cons outcome' shown' =>
          simp only [List.map_cons, List.cons_append, List.cons.injEq, Item.outcome.injEq] at h
          obtain ⟨rfl, h⟩ := h
          obtain ⟨rfl, rfl⟩ := ih h
          exact ⟨rfl, rfl⟩

theorem not_mem_toDigits {c : Char} (h : c.isDigit = false) (n : Nat) :
    c ∉ Nat.toDigits 10 n := by
  intro hmem
  rw [Nat.isDigit_of_mem_toDigits (by decide) (by decide) hmem] at h
  cases h

theorem toDigits_inj {m n : Nat} (h : Nat.toDigits 10 m = Nat.toDigits 10 n) : m = n := by
  rw [← Nat.ofDigitChars_ten_toDigits (n := m), h, Nat.ofDigitChars_ten_toDigits]

/-- The letters tell a number of outcomes from an outcome. -/
theorem Item.text_inj {a b : Item} (h : a.text = b.text) : a = b := by
  have word : ∀ m n, Nat.toDigits 10 m ≠ Nat.toDigits 10 n ++ moreText := fun m n heq =>
    not_mem_toDigits (c := 'm') (by decide) m
      (heq ▸ List.mem_append_right _ (by decide))
  cases a with
  | outcome value =>
      cases b with
      | outcome value' => rw [UInt32.toNat_inj.mp (toDigits_inj h)]
      | more number' => exact absurd h (word _ _)
  | more number =>
      cases b with
      | outcome value' => exact absurd h.symm (word _ _)
      | more number' => rw [toDigits_inj (List.append_cancel_right h)]

/-- No item is empty, and what is neither a digit nor one of the letters is in
none of them. -/
theorem Item.text_plain {c : Char} (digit : c.isDigit = false) (letter : c ∉ moreText)
    (item : Item) : item.text ≠ [] ∧ c ∉ item.text := by
  cases item with
  | outcome value => exact ⟨Nat.toDigits_ne_nil, not_mem_toDigits digit _⟩
  | more number =>
      exact ⟨List.append_ne_nil_of_left_ne_nil Nat.toDigits_ne_nil _,
        fun h => (List.mem_append.mp h).elim (not_mem_toDigits digit _) letter⟩

/-- The list of a description. -/
def listText (shown : List UInt32) (hidden : Nat) : List Char :=
  [',', ' '].intercalate ((items shown hidden).map Item.text)

theorem listText_inj {shown shown' : List UInt32} {hidden hidden' : Nat}
    (h : listText shown hidden = listText shown' hidden') :
    shown = shown' ∧ hidden = hidden' := by
  have plain : ∀ shown hidden, ∀ t ∈ (items shown hidden).map Item.text, t ≠ [] ∧ ',' ∉ t := by
    intro shown hidden t ht
    obtain ⟨item, -, rfl⟩ := List.mem_map.mp ht
    exact item.text_plain (by decide) (by decide)
  have hmap := intercalate_inj (plain _ _) (plain _ _) h
  exact items_inj ((List.map_inj_right fun _ _ => Item.text_inj).mp hmap)

theorem not_mem_listText {c : Char} (digit : c.isDigit = false) (letter : c ∉ moreText)
    (sep : c ∉ [',', ' ']) (shown : List UInt32) (hidden : Nat) :
    c ∉ listText shown hidden := by
  intro h
  rcases mem_of_mem_intercalate h with h | ⟨t, ht, h⟩
  · exact sep h
  · obtain ⟨item, -, rfl⟩ := List.mem_map.mp ht
    exact (item.text_plain digit letter).2 h

/-- The number of outcomes that are left out follows those that are shown as one
more of them would. -/
theorem toList_listed (shown : List UInt32) (hidden : Nat) :
    (", ".intercalate (shown.map fun outcome => toString outcome.toNat) ++
      hiddenText shown.length hidden).toList = listText shown hidden := by
  have hshown : (shown.map fun outcome => toString outcome.toNat).map String.toList =
      (shown.map Item.outcome).map Item.text := by
    simp only [List.map_map]
    exact List.map_congr_left fun outcome _ => Nat.toList_repr
  have hmore : (s!"{hidden} more...").toList = (Item.more hidden).text := by
    rw [String.toList_append, Nat.toString_eq_repr, Nat.toList_repr]
    rfl
  rw [String.toList_append, String.toList_intercalate, hshown]
  unfold listText items hiddenText
  split
  · simp
  · cases shown with
    | nil => exact hmore.trans List.intercalate_singleton.symm
    | cons outcome shown =>
        rw [List.map_append, List.map_singleton, intercalate_concat _ (by simp), ← hmore,
          if_neg (by simp), String.toList_append, String.toList_append, List.append_assoc,
          ← String.toList_append]
        rfl

/-! ## Total and modifier -/

/-- An integer is written as the digits of its size, behind a sign if it is
negative. -/
theorem toList_toString (n : Int) :
    (toString n).toList = (if 0 ≤ n then [] else ['-']) ++ Nat.toDigits 10 n.natAbs := by
  rw [Int.toString_eq_repr, Int.repr_eq_if]
  by_cases hn : 0 ≤ n
  · have habs : n.toNat = n.natAbs := by omega
    rw [if_pos hn, if_pos hn, Nat.toList_repr, habs, List.nil_append]
  · have habs : (-n).toNat = n.natAbs := by omega
    rw [if_neg hn, if_neg hn, String.toList_append, Nat.toList_repr, habs]
    rfl

theorem not_mem_toString {c : Char} (digit : c.isDigit = false) (sign : c ≠ '-') (n : Int) :
    c ∉ (toString n).toList := by
  rw [toList_toString, List.mem_append, not_or]
  exact ⟨by split <;> simp [sign], not_mem_toDigits digit _⟩

theorem toString_inj {m n : Int} (h : (toString m).toList = (toString n).toList) : m = n := by
  have unsigned : ∀ k l, Nat.toDigits 10 k ≠ '-' :: Nat.toDigits 10 l := fun k l heq =>
    not_mem_toDigits (c := '-') (by decide) k (heq ▸ List.mem_cons_self)
  rw [toList_toString, toList_toString] at h
  by_cases hm : 0 ≤ m <;> by_cases hn : 0 ≤ n
  · rw [if_pos hm, if_pos hn] at h
    have := toDigits_inj h
    omega
  · rw [if_pos hm, if_neg hn] at h
    exact absurd h (unsigned _ _)
  · rw [if_neg hm, if_pos hn] at h
    exact absurd h.symm (unsigned _ _)
  · rw [if_neg hm, if_neg hn] at h
    have := toDigits_inj (List.append_cancel_left h)
    omega

/-- A modifier of zero is the only one that is not written. -/
theorem modifierText_inj {m n : Int} (h : modifierText m = modifierText n) : m = n := by
  have written : ∀ k : Int, k ≠ 0 → (modifierText k).toList =
      " (modifier: ".toList ++ ((toString k).toList ++ [')']) := by
    intro k hk
    rw [modifierText, if_neg hk, String.toList_append, String.toList_append,
      List.append_assoc]
    rfl
  have absent : modifierText 0 = "" := rfl
  have hlist := congrArg String.toList h
  by_cases hm : m = 0 <;> by_cases hn : n = 0
  · rw [hm, hn]
  · rw [hm, absent, written n hn] at hlist
    simp at hlist
  · rw [hn, absent, written m hm] at hlist
    simp at hlist
  · rw [written m hm, written n hn] at hlist
    exact toString_inj (List.append_cancel_right (List.append_cancel_left hlist))

/-! ## The whole text -/

/-- How many outcomes a limit keeps back. -/
def hidden (r : Rolled) (limit : Option Nat) : Nat :=
  r.outcomes.length - (r.shown limit).length

theorem toList_describe (r : Rolled) (limit : Option Nat) :
    (r.describe limit).toList =
      (toString r.total.toInt).toList ++ ' ' :: '<' :: '=' :: ' ' :: '[' ::
        (listText (r.shown limit) (r.hidden limit) ++
          ']' :: (modifierText r.modifier.toInt).toList) := by
  rw [← toList_listed]
  unfold describe hidden
  simp only [String.toList_append, List.append_assoc]
  rfl

/-- Descriptions are equal exactly if all that they show is. -/
theorem describe_eq_iff {a b : Rolled} {limit limit' : Option Nat} :
    a.describe limit = b.describe limit' ↔
      a.total = b.total ∧ a.modifier = b.modifier ∧
        a.shown limit = b.shown limit' ∧ a.hidden limit = b.hidden limit' := by
  rw [← String.toList_inj, toList_describe, toList_describe]
  constructor
  · intro h
    obtain ⟨htotal, h⟩ := append_cons_inj (not_mem_toString (by decide) (by decide) _)
      (not_mem_toString (by decide) (by decide) _) h
    simp only [List.cons.injEq, true_and] at h
    obtain ⟨hlist, hmodifier⟩ := append_cons_inj
      (not_mem_listText (by decide) (by decide) (by decide) _ _)
      (not_mem_listText (by decide) (by decide) (by decide) _ _) h
    obtain ⟨hshown, hhidden⟩ := listText_inj hlist
    exact ⟨Int64.toInt_inj.mp (toString_inj htotal),
      Int64.toInt_inj.mp (modifierText_inj (String.toList_inj.mp hmodifier)), hshown, hhidden⟩
  · rintro ⟨htotal, hmodifier, hshown, hhidden⟩
    rw [htotal, hmodifier, hshown, hhidden]

/-- What is shown and what is kept back make up the outcomes. -/
theorem length_shown_add_hidden (r : Rolled) (limit : Option Nat) :
    (r.shown limit).length + r.hidden limit = r.outcomes.length := by
  unfold hidden shown
  cases limit with
  | none => simp
  | some limit =>
      dsimp only
      rw [List.length_take]
      omega

theorem hidden_some_eq_zero_iff {r : Rolled} {limit : Nat} :
    r.hidden (some limit) = 0 ↔ r.outcomes.length ≤ limit := by
  unfold hidden shown
  dsimp only
  rw [List.length_take]
  omega

/-- **Descriptions tell results apart.** At any limit, two descriptions are equal
exactly if the results have the same total, modifier and number of outcomes, and
the same outcomes as far as the limit lets them through. Without a limit, they
are equal only if the results are. A limit shows in the description exactly if
it is below the number of outcomes. -/
theorem describe_tells_apart :
    (∀ (a b : Rolled) (limit : Nat), a.describe (some limit) = b.describe (some limit) ↔
      a.total = b.total ∧ a.modifier = b.modifier ∧
        a.outcomes.length = b.outcomes.length ∧
        a.outcomes.take (min limit a.outcomes.length) =
          b.outcomes.take (min limit b.outcomes.length)) ∧
    (∀ a b : Rolled, a.describe none = b.describe none ↔ a = b) ∧
    (∀ (a : Rolled) (limit : Nat),
      a.describe (some limit) = toString a ↔ a.outcomes.length ≤ limit) := by
  refine ⟨fun a b limit => ?_, fun a b => ?_, fun a limit => ?_⟩
  · rw [describe_eq_iff]
    refine and_congr_right fun _ => and_congr_right fun _ => ?_
    have ha := length_shown_add_hidden a (some limit)
    have hb := length_shown_add_hidden b (some limit)
    have htake : ∀ r : Rolled, r.outcomes.take (min limit r.outcomes.length) =
        r.shown (some limit) := fun r => by
      rw [shown, ← List.take_eq_take_min]
    rw [htake, htake, and_comm]
    refine and_congr_left fun hshown => ?_
    rw [hshown] at ha
    omega
  · rw [describe_eq_iff]
    constructor
    · rintro ⟨htotal, hmodifier, hshown, -⟩
      obtain ⟨outcomes, modifier, total⟩ := a
      obtain ⟨outcomes', modifier', total'⟩ := b
      cases htotal
      cases hmodifier
      cases hshown
      rfl
    · rintro rfl
      exact ⟨rfl, rfl, rfl, rfl⟩
  · rw [← hidden_some_eq_zero_iff]
    show a.describe _ = a.describe none ↔ _
    rw [describe_eq_iff]
    have hnone : a.hidden none = 0 := Nat.sub_self _
    constructor
    · rintro ⟨-, -, -, hhidden⟩
      rw [hhidden, hnone]
    · intro hzero
      refine ⟨rfl, rfl, ?_, hzero.trans hnone.symm⟩
      exact List.take_of_length_le (hidden_some_eq_zero_iff.mp hzero)

/-- The outcomes behind the limit differ, and there are as many of them. -/
example : describe ⟨[6, 5], 1, 12⟩ (some 1) = "12 <= [6, 1 more...] (modifier: 1)" ∧
    describe ⟨[6, 4], 1, 12⟩ (some 1) = "12 <= [6, 1 more...] (modifier: 1)" := by
  decide +kernel

end DiceTray.Rolled
