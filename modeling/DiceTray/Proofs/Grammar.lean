import DiceTray.Expr
import DiceTray.Proofs.Marks
import DiceTray.Proofs.Tokens
import Mathlib.Algebra.Order.Ring.Int
import Mathlib.Data.List.Forall2

/-!
# The grammar of rolls

What a roll is, over tokens and without any reading order:

    roll     := clause (';' clause)*
    clause   := (NUM 'x')? chain
    chain    := term ('&' term)*
    term     := NUM? 'd' NUM modifier
    modifier := (('+' | '-')? NUM)?

Every rule carries the value of its derivation. The limits stand in the rules
as plain numbers, so the grammar says the same whatever the readers do. The
marks that separate items never occur inside them, which is why a text with
separators can be taken apart in one way only (`Series.joined_iff`).
-/

namespace DiceTray.Grammar

variable {α : Type}

/-! ## Rules -/

/-- One or more items with a mark between each two. -/
inductive Series (sep : Char) (item : List Token → α → Prop) :
    List Token → List α → Prop
  | one {ts : List Token} {a : α} : item ts a → Series sep item ts [a]
  | more {ts rest : List Token} {a : α} {as : List α} :
      item ts a → Series sep item rest as →
        Series sep item (ts ++ .mark sep :: rest) (a :: as)

/-- The number of dice, which is one where it is left out. -/
inductive Count : List Token → Nat → Prop
  | absent : Count [] 1
  | given (n : Nat) : Count [.num n] n

/-- The modifier, which is zero where it is left out and positive where it has
no sign. -/
inductive Modifier : List Token → Int → Prop
  | absent : Modifier [] 0
  | bare (n : Nat) : Modifier [.num n] n
  | plus (n : Nat) : Modifier [.mark '+', .num n] n
  | minus (n : Nat) : Modifier [.mark '-', .num n] (-n)

/-- Dice for numbers as they are written, which have to be within the limits. -/
structure Denotes (count sides : Nat) (modifier : Int) (d : Dice) : Prop where
  count_mem : 1 ≤ count ∧ count ≤ 10000
  sides_mem : 1 ≤ sides ∧ sides ≤ 2 ^ 32 - 1
  modifier_mem : -2 ^ 31 ≤ modifier ∧ modifier ≤ 2 ^ 31 - 1
  count_eq : d.count.toNat = count
  sides_eq : d.sides.toNat = sides
  modifier_eq : d.modifier.toInt = modifier

inductive Term : List Token → Dice → Prop
  | intro {front back : List Token} {count sides : Nat} {modifier : Int}
      {d : Dice} :
      Count front count → Modifier back modifier →
        Denotes count sides modifier d →
        Term (front ++ .mark 'd' :: .num sides :: back) d

/-- Up to 1024 terms, as the expression over them that is nested to the right. -/
structure Chain (ts : List Token) (e : Expr) : Prop where
  terms : Series '&' Term ts e.leaves
  length_le : e.leaves.length ≤ 1024
  rightNested : e.RightNested

/-- A chain, or up to 1024 copies of one. -/
inductive Clause : List Token → List Expr → Prop
  | once {ts : List Token} {e : Expr} : Chain ts e → Clause ts [e]
  | times {n : Nat} {ts : List Token} {e : Expr} :
      n ≤ 1024 → Chain ts e →
        Clause (.num n :: .mark 'x' :: ts) (List.replicate n e)

inductive Roll : List Token → List Expr → Prop
  | intro {ts : List Token} {parts : List (List Expr)} :
      Series ';' Clause ts parts → Roll ts parts.flatten

/-- There is one expression over some terms that is nested to the right. -/
theorem chain_iff {ts : List Token} {e : Expr} :
    Chain ts e ↔ ∃ d more, e = .chain d more ∧ Series '&' Term ts (d :: more) ∧
      (d :: more).length ≤ 1024 := by
  constructor
  · rintro ⟨hs, hlen, hnested⟩
    obtain ⟨d, more, hleaves⟩ := e.exists_leaves_eq_cons
    rw [hleaves] at hs hlen
    exact ⟨d, more, (Expr.rightNested_iff hleaves).mp hnested, hs, hlen⟩
  · rintro ⟨d, more, rfl, hs, hlen⟩
    rw [← Expr.leaves_chain d more] at hs hlen
    exact ⟨hs, hlen, Expr.rightNested_chain d more⟩

/-! ## Dice within the limits -/

theorem Denotes.count_le {count sides : Nat} {modifier : Int} {d : Dice}
    (h : Denotes count sides modifier d) : d.count ≤ Dice.maxCount := by
  rw [UInt32.le_iff_toNat_le, h.count_eq]
  exact h.count_mem.2

/-- All that the type of dice leaves to check is their number. -/
theorem denotes_self {d : Dice} (h : d.count ≤ Dice.maxCount) :
    Denotes d.count.toNat d.sides.toNat d.modifier.toInt d := by
  have hc : 0 < d.count.toNat := UInt32.lt_iff_toNat_lt.mp d.count_pos
  have hs : 0 < d.sides.toNat := UInt32.lt_iff_toNat_lt.mp d.sides_pos
  have hs' := d.sides.toNat_lt
  have hm := d.modifier.le_toInt
  have hm' := d.modifier.toInt_lt
  exact ⟨⟨hc, UInt32.le_iff_toNat_le.mp h⟩, ⟨hs, by omega⟩,
    ⟨hm, by omega⟩, rfl, rfl, rfl⟩

/-- Numbers determine the dice they are written for. -/
theorem Denotes.eq {count sides : Nat} {modifier : Int} {d d' : Dice}
    (h : Denotes count sides modifier d) (h' : Denotes count sides modifier d') :
    d = d' := by
  have hc : d.count = d'.count :=
    UInt32.toNat_inj.mp (h.count_eq.trans h'.count_eq.symm)
  have hs : d.sides = d'.sides :=
    UInt32.toNat_inj.mp (h.sides_eq.trans h'.sides_eq.symm)
  have hm : d.modifier = d'.modifier :=
    Int32.toInt_inj.mp (h.modifier_eq.trans h'.modifier_eq.symm)
  obtain ⟨_, _, _, _, _⟩ := d
  obtain ⟨_, _, _, _, _⟩ := d'
  cases hc
  cases hs
  cases hm
  rfl

theorem Term.count_le {ts : List Token} {d : Dice} (h : Term ts d) :
    d.count ≤ Dice.maxCount := by
  obtain ⟨_, _, hd⟩ := h
  exact hd.count_le

/-! ## What a phrase may hold -/

theorem Modifier.mem {ts : List Token} {n : Int} (h : Modifier ts n) {c : Char}
    (hc : .mark c ∈ ts) : c = '+' ∨ c = '-' := by
  cases h <;> simp_all

/-- The only marks of a term are its letter and a sign. -/
theorem Term.mem {ts : List Token} {d : Dice} (h : Term ts d) {c : Char}
    (hc : .mark c ∈ ts) : c = 'd' ∨ c = '+' ∨ c = '-' := by
  obtain ⟨hcount, hmod, _⟩ := h
  rw [List.mem_append, List.mem_cons, List.mem_cons] at hc
  rcases hc with hc | hc | hc | hc
  · cases hcount <;> simp at hc
  · exact Or.inl (Token.mark.inj hc)
  · cases hc
  · exact Or.inr (hmod.mem hc)

/-- A term has a letter in front of anything but one number. -/
theorem Term.ne_num_mark {ts : List Token} {d : Dice} (h : Term ts d) {n : Nat}
    {c : Char} (hc : c ≠ 'd') (after more : List Token) :
    ts ++ after ≠ .num n :: .mark c :: more := by
  obtain ⟨hcount, _, _⟩ := h
  intro heq
  cases hcount
  · simp at heq
  · simp only [List.cons_append, List.nil_append, List.cons.injEq,
      Token.mark.injEq] at heq
    exact hc heq.2.1.symm

/-- Every item of a series has tokens of its own. -/
theorem Series.exists_item {sep : Char} {item : List Token → α → Prop}
    {ts : List Token} {as : List α} (h : Series sep item ts as) {a : α}
    (ha : a ∈ as) : ∃ us, item us a := by
  induction h with
  | one hitem =>
      obtain rfl := List.mem_singleton.mp ha
      exact ⟨_, hitem⟩
  | more hitem _ ih =>
      rcases List.mem_cons.mp ha with rfl | ha
      · exact ⟨_, hitem⟩
      · exact ih ha

/-- What a roll gives are chains. -/
theorem Roll.exists_chain {ts : List Token} {es : List Expr} (h : Roll ts es)
    {e : Expr} (he : e ∈ es) : ∃ us, Chain us e := by
  obtain ⟨hs⟩ := h
  obtain ⟨part, hpart, he⟩ := List.mem_flatten.mp he
  obtain ⟨us, hclause⟩ := hs.exists_item hpart
  cases hclause with
  | once hchain =>
      obtain rfl := List.mem_singleton.mp he
      exact ⟨_, hchain⟩
  | times _ hchain =>
      obtain rfl := List.eq_of_mem_replicate he
      exact ⟨_, hchain⟩

/-- A chain has at most 1024 dice, and rolling refuses none of them. -/
theorem Chain.within {ts : List Token} {e : Expr} (h : Chain ts e) :
    e.leaves.length ≤ 1024 ∧ ∀ d ∈ e.leaves, d.count ≤ Dice.maxCount := by
  refine ⟨h.length_le, fun d hd => ?_⟩
  obtain ⟨us, hterm⟩ := h.terms.exists_item hd
  exact hterm.count_le

/-! ## Taking a series apart -/

theorem series_nil {sep : Char} {item : List Token → α → Prop}
    {ts : List Token} : ¬ Series sep item ts [] := by
  rintro ⟨⟩

/-- A series is its first item and, behind a mark, the series of the others. -/
theorem series_cons_iff {sep : Char} {item : List Token → α → Prop}
    {ts : List Token} {a : α} {as : List α} :
    Series sep item ts (a :: as) ↔
      (as = [] ∧ item ts a) ∨
        ∃ front rest, ts = front ++ .mark sep :: rest ∧ item front a ∧
          Series sep item rest as := by
  constructor
  · intro h
    cases h with
    | one ha => exact Or.inl ⟨rfl, ha⟩
    | more ha hs => exact Or.inr ⟨_, _, rfl, ha, hs⟩
  · rintro (⟨rfl, ha⟩ | ⟨front, rest, rfl, ha, hs⟩)
    · exact .one ha
    · exact .more ha hs

theorem Chain.ne_num_mark {ts : List Token} {e : Expr} (h : Chain ts e)
    {n : Nat} {c : Char} (hc : c ≠ 'd') (after more : List Token) :
    ts ++ after ≠ .num n :: .mark c :: more := by
  obtain ⟨_, _, -, hs, -⟩ := chain_iff.mp h
  rcases series_cons_iff.mp hs with ⟨-, hd⟩ | ⟨front, rest, rfl, hd, -⟩
  · exact hd.ne_num_mark hc after more
  · rw [List.append_assoc]
    exact hd.ne_num_mark hc _ more

/-- Items one by one, joined with a mark, are a series. -/
theorem Series.of_forall₂ {sep : Char} {item : List Token → α → Prop}
    {pieces : List (List Token)} {as : List α} (h : List.Forall₂ item pieces as)
    (ne : pieces ≠ []) : Series sep item ([.mark sep].intercalate pieces) as := by
  induction h with
  | nil => exact absurd rfl ne
  | cons ha htail ih =>
      cases htail with
      | nil =>
          rw [List.intercalate_singleton]
          exact .one ha
      | cons _ _ =>
          rw [List.intercalate_cons_cons, List.append_assoc]
          exact .more ha (ih (by simp))

/-- **One way to take apart.** Pieces joined with a mark that none of them
holds are a series exactly when they are its items, one by one. -/
theorem Series.joined_iff {sep : Char} {item : List Token → α → Prop}
    (free : ∀ ts a, item ts a → .mark sep ∉ ts) {pieces : List (List Token)}
    (ne : pieces ≠ []) (apart : ∀ p ∈ pieces, .mark sep ∉ p) {as : List α} :
    Series sep item ([.mark sep].intercalate pieces) as ↔
      List.Forall₂ item pieces as := by
  refine ⟨fun h => ?_, fun h => .of_forall₂ h ne⟩
  induction pieces generalizing as with
  | nil => exact absurd rfl ne
  | cons p pieces ih =>
      cases as with
      | nil => exact absurd h series_nil
      | cons a as =>
          have hp := apart p List.mem_cons_self
          rcases series_cons_iff.mp h with ⟨rfl, ha⟩ | ⟨front, rest, heq, ha, hs⟩
          · cases pieces with
            | nil => exact .cons (by simpa using ha) .nil
            | cons q pieces =>
                rw [List.intercalate_cons_cons] at ha
                exact absurd (by simp) (free _ _ ha)
          · cases pieces with
            | nil =>
                rw [List.intercalate_singleton] at heq
                exact absurd (by simp [heq]) hp
            | cons q pieces =>
                rw [List.intercalate_cons_cons, List.append_assoc] at heq
                obtain ⟨rfl, rfl⟩ := append_cons_inj hp (free _ _ ha) heq
                exact .cons ha (ih (by simp)
                  (fun r hr => apart r (List.mem_cons_of_mem _ hr)) hs)

end DiceTray.Grammar
