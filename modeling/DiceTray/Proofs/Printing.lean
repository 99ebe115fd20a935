import DiceTray.Proofs.Recognition

/-!
# Printing and reading back

A printed expression shows its dice in order and nothing of how they were
joined. Reading it back gives the same dice nested to the right, so an
expression comes back as it was exactly when it is nested that way and stays
within the limits of the grammar.

The printed text is first reduced to its tokens (`Spells`), and the rest is a
matter of the grammar: what derives from the tokens of printed dice.
-/

namespace DiceTray

open Text Grammar Reader

variable {α : Type}

/-! ## What a text spells -/

/-- A text, read in lower case, has these tokens whatever stands behind it but a
digit. -/
def Spells (text : List Char) (ts : List Token) : Prop :=
  ∀ rest, (∀ c ∈ rest.head?, c.isDigit = false) →
    tokens (lowerCase text ++ rest) = ts ++ tokens rest

theorem Spells.tokensOf_eq {text : String} {ts : List Token}
    (h : Spells text.toList ts) : tokensOf text = ts := by
  have h := h [] (by simp)
  rwa [List.append_nil, tokens_nil, List.append_nil] at h

theorem spells_nil : Spells [] [] := fun _ _ => rfl

/-- A text may follow another one if it does not begin with a digit. -/
theorem Spells.append {text text' : List Char} {ts ts' : List Token}
    (h : Spells text ts) (h' : Spells text' ts')
    (apart : ∀ rest, (∀ c ∈ rest.head?, c.isDigit = false) →
      ∀ c ∈ (lowerCase text' ++ rest).head?, c.isDigit = false) :
    Spells (text ++ text') (ts ++ ts') := by
  intro rest hrest
  rw [lowerCase_append, List.append_assoc, h _ (apart rest hrest), h' rest hrest,
    List.append_assoc]

theorem toLower_of_isDigit {c : Char} (h : c.isDigit = true) : c.toLower = c := by
  have hc : c.val.toNat ≤ 57 := by
    simp only [Char.isDigit, Bool.and_eq_true, decide_eq_true_eq] at h
    exact UInt32.le_iff_toNat_le.mp h.2
  unfold Char.toLower
  refine dif_neg fun hupper => ?_
  have : 65 ≤ c.val.toNat := UInt32.le_iff_toNat_le.mp hupper.1
  omega

theorem lowerCase_toDigits (n : Nat) :
    lowerCase (Nat.toDigits 10 n) = Nat.toDigits 10 n := by
  have same : ∀ c ∈ Nat.toDigits 10 n, c.toLower = id c := fun c hc =>
    toLower_of_isDigit (Nat.isDigit_of_mem_toDigits (by decide) (by decide) hc)
  exact (List.map_congr_left same).trans (List.map_id _)

/-- A number spells itself. -/
theorem spells_toDigits (n : Nat) : Spells (Nat.toDigits 10 n) [.num n] := by
  intro rest hrest
  have digits : ∀ c ∈ Nat.toDigits 10 n, c.isDigit = true := fun c hc =>
    Nat.isDigit_of_mem_toDigits (by decide) (by decide) hc
  rw [lowerCase_toDigits,
    tokens_digits_append Nat.toDigits_ne_nil digits hrest,
    Nat.ofDigitChars_ten_toDigits]
  rfl

/-- A mark in front of a number, which may follow any text. -/
theorem spells_mark_toDigits {c : Char} (blank : isBlank c = false)
    (digit : c.isDigit = false) (lower : c.toLower = c) (n : Nat) :
    Spells (c :: Nat.toDigits 10 n) [.mark c, .num n] := by
  intro rest hrest
  show tokens (c.toLower :: (lowerCase (Nat.toDigits 10 n) ++ rest)) = _
  rw [lower, tokens_cons_mark blank digit, spells_toDigits n rest hrest]
  rfl

/-! ## Printed dice -/

/-- The tokens of a printed modifier. -/
def modifierTokens (n : Int) : List Token :=
  if 0 < n then [.mark '+', .num n.toNat]
  else if n < 0 then [.mark '-', .num (-n).toNat]
  else []

/-- The tokens of printed dice. -/
def diceTokens (d : Dice) : List Token :=
  .num d.count.toNat :: .mark 'd' :: .num d.sides.toNat ::
    modifierTokens d.modifier.toInt

/-- The tokens of printed dice with `&` between each two. -/
def chainTokens (ds : List Dice) : List Token :=
  [.mark '&'].intercalate (ds.map diceTokens)

theorem toList_modifierText (n : Int) :
    (Dice.modifierText n).toList =
      if 0 < n then '+' :: Nat.toDigits 10 n.toNat
      else if n < 0 then '-' :: Nat.toDigits 10 (-n).toNat
      else [] := by
  unfold Dice.modifierText
  split
  · rw [String.toList_append, Int.toString_eq_repr, Int.repr_eq_if, if_pos (by omega),
      Nat.toList_repr]
    rfl
  · split
    · rw [Int.toString_eq_repr, Int.repr_eq_if, if_neg (by omega),
        String.toList_append, Nat.toList_repr]
      rfl
    · rfl

theorem spells_modifierText (n : Int) :
    Spells (Dice.modifierText n).toList (modifierTokens n) := by
  rw [toList_modifierText, modifierTokens]
  split
  · exact spells_mark_toDigits (by decide) (by decide) (by decide) _
  · split
    · exact spells_mark_toDigits (by decide) (by decide) (by decide) _
    · exact spells_nil

theorem toList_toString (d : Dice) :
    (toString d).toList =
      Nat.toDigits 10 d.count.toNat ++
        ('d' :: Nat.toDigits 10 d.sides.toNat ++
          (Dice.modifierText d.modifier.toInt).toList) := by
  show (Dice.toString d).toList = _
  unfold Dice.toString
  simp only [String.toList_append, Nat.toString_eq_repr, Nat.toList_repr,
    List.append_assoc]
  rfl

/-- Neither letter nor sign is a digit, so numbers stay apart. -/
theorem spells_dice (d : Dice) : Spells (toString d).toList (diceTokens d) := by
  rw [toList_toString]
  refine (spells_toDigits _).append
    ((spells_mark_toDigits (by decide) (by decide) (by decide) _).append
      (spells_modifierText _) ?_) ?_
  · intro rest hrest
    rw [toList_modifierText]
    split
    · simp [lowerCase]
    · split
      · simp [lowerCase]
      · exact hrest
  · simp [lowerCase]

/-- Texts with a separator between each two, where the separator spells a mark
that may stand between any two texts. -/
theorem Spells.joined {sep : List Char} {c : Char}
    (hsep : ∀ rest, tokens (lowerCase sep ++ rest) = .mark c :: tokens rest)
    (apart : ∀ rest, ∀ d ∈ (lowerCase sep ++ rest).head?, d.isDigit = false)
    {text : α → List Char} {toks : α → List Token}
    (h : ∀ a, Spells (text a) (toks a)) (as : List α) :
    Spells (sep.intercalate (as.map text))
      ([.mark c].intercalate (as.map toks)) := by
  induction as with
  | nil => exact spells_nil
  | cons a as ih =>
      cases as with
      | nil => simpa using h a
      | cons b as =>
          rw [List.map_cons, List.map_cons, List.map_cons, List.map_cons,
            List.intercalate_cons_cons, List.intercalate_cons_cons,
            List.append_assoc, List.append_assoc]
          refine (h a).append (fun rest hrest => ?_) fun rest _ => ?_
          · rw [lowerCase_append, List.append_assoc, hsep]
            exact congrArg (Token.mark c :: ·) (ih rest hrest)
          · rw [lowerCase_append, List.append_assoc]
            exact apart _

theorem spells_expr (e : Expr) : Spells (toString e).toList (chainTokens e.leaves) := by
  have htext : (toString e).toList =
      " & ".toList.intercalate (e.leaves.map fun d => (toString d).toList) := by
    show (Expr.toString e).toList = _
    rw [Expr.toString, String.toList_intercalate, List.map_map]
    rfl
  rw [htext]
  refine Spells.joined (fun rest => ?_) (fun rest => ?_) spells_dice e.leaves
  · show tokens (' ' :: '&' :: ' ' :: rest) = _
    rw [tokens_cons_of_isBlank (by decide), tokens_cons_mark (by decide) (by decide),
      tokens_cons_of_isBlank (by decide)]
  · show ∀ d ∈ (' ' :: '&' :: ' ' :: rest).head?, d.isDigit = false
    simp

/-- Printed expressions with `;` between each two. -/
theorem spells_exprs (es : List Expr) :
    Spells ("; ".intercalate (es.map toString)).toList
      ([.mark ';'].intercalate (es.map fun e => chainTokens e.leaves)) := by
  rw [String.toList_intercalate, List.map_map]
  refine Spells.joined (fun rest => ?_) (fun rest => ?_) spells_expr es
  · show tokens (';' :: ' ' :: rest) = _
    rw [tokens_cons_mark (by decide) (by decide), tokens_cons_of_isBlank (by decide)]
  · show ∀ d ∈ (';' :: ' ' :: rest).head?, d.isDigit = false
    simp

/-! ## What printed dice derive -/

theorem modifier_modifierTokens_iff {n m : Int} :
    Modifier (modifierTokens n) m ↔ m = n := by
  unfold modifierTokens
  constructor
  · intro h
    split at h
    · cases h
      omega
    · split at h
      · cases h
        omega
      · cases h
        omega
  · rintro rfl
    split
    · rename_i hpos
      have := Modifier.plus m.toNat
      rwa [Int.toNat_of_nonneg (by omega)] at this
    · split
      · have := Modifier.minus (-m).toNat
        rwa [Int.toNat_of_nonneg (by omega), Int.neg_neg] at this
      · have hzero : m = 0 := by omega
        exact hzero ▸ .absent

theorem term_diceTokens_iff {d d' : Dice} :
    Term (diceTokens d) d' ↔ d' = d ∧ d.count ≤ Dice.maxCount := by
  constructor
  · intro h
    generalize hts : diceTokens d = ts at h
    obtain ⟨hcount, hmod, hd⟩ := h
    rename_i front back count sides modifier
    unfold diceTokens at hts
    cases hcount with
    | absent => cases hts
    | given n =>
        simp only [List.cons_append, List.nil_append, List.cons.injEq,
          Token.num.injEq, true_and] at hts
        obtain ⟨rfl, rfl, rfl⟩ := hts
        obtain rfl := modifier_modifierTokens_iff.mp hmod
        have hle : d.count ≤ Dice.maxCount :=
          UInt32.le_iff_toNat_le.mpr hd.count_mem.2
        exact ⟨hd.eq (denotes_self hle), hle⟩
  · rintro ⟨rfl, hle⟩
    exact .intro (.given _) (modifier_modifierTokens_iff.mpr rfl) (denotes_self hle)

theorem terms_diceTokens_iff {ds ds' : List Dice} :
    List.Forall₂ Term (ds.map diceTokens) ds' ↔
      ds' = ds ∧ ∀ d ∈ ds, d.count ≤ Dice.maxCount := by
  rw [List.forall₂_map_left_iff]
  simp only [term_diceTokens_iff]
  constructor
  · intro h
    induction h with
    | nil => simp
    | cons h _ ih =>
        obtain ⟨rfl, hle⟩ := h
        obtain ⟨rfl, hall⟩ := ih
        exact ⟨rfl, List.forall_mem_cons.mpr ⟨hle, hall⟩⟩
  · rintro ⟨rfl, hall⟩
    exact List.forall₂_same.mpr fun d hd => ⟨rfl, hall d hd⟩

theorem mark_mem_diceTokens {d : Dice} {c : Char} (h : .mark c ∈ diceTokens d) :
    c = 'd' ∨ c = '+' ∨ c = '-' := by
  rw [diceTokens, List.mem_cons, List.mem_cons, List.mem_cons] at h
  rcases h with h | h | h | h
  · cases h
  · exact Or.inl (Token.mark.inj h)
  · cases h
  · exact Or.inr ((modifier_modifierTokens_iff.mpr rfl).mem h)

theorem mark_mem_chainTokens {ds : List Dice} {c : Char}
    (h : .mark c ∈ chainTokens ds) : c = '&' ∨ c = 'd' ∨ c = '+' ∨ c = '-' := by
  unfold chainTokens at h
  induction ds with
  | nil => cases h
  | cons d ds ih =>
      cases ds with
      | nil =>
          rw [List.map_singleton, List.intercalate_singleton] at h
          exact Or.inr (mark_mem_diceTokens h)
      | cons d' ds =>
          rw [List.map_cons, List.map_cons, List.intercalate_cons_cons,
            List.mem_append, List.mem_append] at h
          rcases h with (h | h) | h
          · exact Or.inr (mark_mem_diceTokens h)
          · exact Or.inl (Token.mark.inj (List.mem_singleton.mp h))
          · exact ih h

/-- Printed dice derive one chain, if there are not too many of them. -/
theorem chain_chainTokens_iff {d : Dice} {more : List Dice} {e : Expr} :
    Chain (chainTokens (d :: more)) e ↔
      e = .chain d more ∧ (d :: more).length ≤ 1024 ∧
        ∀ d' ∈ d :: more, d'.count ≤ Dice.maxCount := by
  have hseries : ∀ ds, Series '&' Term (chainTokens (d :: more)) ds ↔
      ds = d :: more ∧ ∀ d' ∈ d :: more, d'.count ≤ Dice.maxCount := by
    intro ds
    rw [chainTokens, Series.joined_iff, terms_diceTokens_iff]
    · intro ts a hterm hmem
      rcases hterm.mem hmem with h | h | h <;> cases h
    · simp
    · intro p hp hmem
      obtain ⟨d', -, rfl⟩ := List.mem_map.mp hp
      rcases mark_mem_diceTokens hmem with h | h | h <;> cases h
  rw [chain_iff]
  constructor
  · rintro ⟨d', more', rfl, hs, hlen⟩
    obtain ⟨heq, hall⟩ := (hseries _).mp hs
    cases heq
    exact ⟨rfl, hlen, hall⟩
  · rintro ⟨rfl, hlen, hall⟩
    exact ⟨d, more, rfl, (hseries _).mpr ⟨rfl, hall⟩, hlen⟩

theorem clause_chainTokens_iff {d : Dice} {more : List Dice} {es : List Expr} :
    Clause (chainTokens (d :: more)) es ↔
      ∃ e, es = [e] ∧ Chain (chainTokens (d :: more)) e := by
  constructor
  · intro h
    generalize hts : chainTokens (d :: more) = ts at h
    cases h with
    | once he => exact ⟨_, rfl, he⟩
    | times _ _ =>
        exfalso
        unfold chainTokens at hts
        cases more <;> simp [diceTokens] at hts
  · rintro ⟨e, rfl, he⟩
    exact .once he

/-- What is printed for one expression is a roll of one clause. -/
theorem roll_chainTokens_iff {d : Dice} {more : List Dice} {es : List Expr} :
    Roll (chainTokens (d :: more)) es ↔
      ∃ e, es = [e] ∧ Chain (chainTokens (d :: more)) e := by
  constructor
  · intro h
    generalize hts : chainTokens (d :: more) = ts at h
    obtain ⟨hs⟩ := h
    cases hs with
    | one hclause =>
        rw [← hts] at hclause ⊢
        simpa using clause_chainTokens_iff.mp hclause
    | more _ _ =>
        have hmem : .mark ';' ∈ chainTokens (d :: more) := by simp [hts]
        rcases mark_mem_chainTokens hmem with h | h | h | h <;> cases h
  · rintro ⟨e, rfl, he⟩
    exact .intro (.one (.once he))

/-! ## Which expressions come back -/

/-- What a printed expression reads as. -/
theorem Roll.parse_toString_eq_ok_iff {e : Expr} {es : List Expr} :
    Roll.parse (toString e) = .ok es ↔
      (e.leaves.length ≤ 1024 ∧ ∀ d ∈ e.leaves, d.count ≤ 10000) ∧
        ∃ d more, e.leaves = d :: more ∧ es = [.chain d more] := by
  obtain ⟨d, more, hleaves⟩ := e.exists_leaves_eq_cons
  rw [Roll.parse_eq_ok_iff, (spells_expr e).tokensOf_eq, hleaves,
    roll_chainTokens_iff]
  simp only [chain_chainTokens_iff]
  constructor
  · rintro ⟨e', rfl, rfl, hwithin⟩
    exact ⟨hwithin, d, more, rfl, rfl⟩
  · rintro ⟨hwithin, d', more', hcons, rfl⟩
    cases hcons
    exact ⟨_, rfl, rfl, hwithin⟩

/-- What a roll gives is printed as a chain that derives it again. -/
theorem chain_chainTokens_of_parse {text : String} {es : List Expr}
    (h : Roll.parse text = .ok es) {e : Expr} (he : e ∈ es) :
    Chain (chainTokens e.leaves) e := by
  obtain ⟨us, hchain⟩ := (Roll.parse_eq_ok_iff.mp h).exists_chain he
  obtain ⟨d, more, hleaves⟩ := e.exists_leaves_eq_cons
  have hwithin := hchain.within
  rw [hleaves] at hwithin ⊢
  have heq := (Expr.rightNested_iff hleaves).mp hchain.rightNested
  exact chain_chainTokens_iff.mpr ⟨heq, hwithin⟩

/-- **Round trip.** A printed expression is a roll exactly when it has at most
1024 terms of at most 10000 dice each, and then it reads as its dice nested to
the right. So it reads as itself exactly when, in addition, no join has a join
on its left. Whatever was read is such an expression, and printing all that was
read, with `;` between each two, gives all of it back. -/
theorem Roll.parse_printed :
    (∀ e : Expr, (∃ es, Roll.parse (toString e) = .ok es) ↔
      e.leaves.length ≤ 1024 ∧ ∀ d ∈ e.leaves, d.count ≤ 10000) ∧
    (∀ (e : Expr) (es : List Expr), Roll.parse (toString e) = .ok es →
      ∃ d more, e.leaves = d :: more ∧ es = [.chain d more]) ∧
    (∀ e : Expr, Roll.parse (toString e) = .ok [e] ↔
      (e.leaves.length ≤ 1024 ∧ ∀ d ∈ e.leaves, d.count ≤ 10000) ∧
        e.RightNested) ∧
    (∀ (text : String) (es : List Expr), Roll.parse text = .ok es →
      ∀ e ∈ es, Roll.parse (toString e) = .ok [e]) ∧
    (∀ (text : String) (es : List Expr), Roll.parse text = .ok es → es ≠ [] →
      Roll.parse ("; ".intercalate (es.map toString)) = .ok es) := by
  refine ⟨fun e => ?_, fun e es h => ?_, fun e => ?_, fun text es h e he => ?_,
    fun text es h hne => ?_⟩
  · obtain ⟨d, more, hleaves⟩ := e.exists_leaves_eq_cons
    constructor
    · rintro ⟨es, h⟩
      exact (Roll.parse_toString_eq_ok_iff.mp h).1
    · intro h
      exact ⟨_, Roll.parse_toString_eq_ok_iff.mpr ⟨h, d, more, hleaves, rfl⟩⟩
  · exact (Roll.parse_toString_eq_ok_iff.mp h).2
  · rw [Roll.parse_toString_eq_ok_iff]
    refine and_congr_right fun _ => ?_
    obtain ⟨d, more, hleaves⟩ := e.exists_leaves_eq_cons
    rw [Expr.rightNested_iff hleaves, hleaves]
    constructor
    · rintro ⟨d', more', hcons, he⟩
      cases hcons
      exact List.singleton_injective he
    · rintro rfl
      exact ⟨d, more, rfl, rfl⟩
  · rw [Roll.parse_eq_ok_iff, (spells_expr e).tokensOf_eq]
    exact .intro (.one (.once (chain_chainTokens_of_parse h he)))
  · rw [Roll.parse_eq_ok_iff, (spells_exprs es).tokensOf_eq]
    have hclauses : List.Forall₂ Clause (es.map fun e => chainTokens e.leaves)
        (es.map fun e => [e]) := by
      rw [List.forall₂_map_left_iff, List.forall₂_map_right_iff]
      exact List.forall₂_same.mpr fun e he =>
        .once (chain_chainTokens_of_parse h he)
    have hroll := Grammar.Roll.intro (Series.of_forall₂ hclauses (by simpa using hne))
    rwa [← List.flatMap_def, List.flatMap_singleton'] at hroll

/-- Two copies of a chain and a third expression, read and printed. -/
theorem Roll.parse_printed_copies :
    ∃ es, Roll.parse "2x d6 & D4-1; d20" = .ok es ∧ es ≠ [] ∧
      (∀ e ∈ es, Roll.parse (toString e) = .ok [e]) ∧
      Roll.parse ("; ".intercalate (es.map toString)) = .ok es := by
  have hparse : Roll.parse "2x d6 & D4-1; d20" =
      .ok (List.replicate 2 (.chain ⟨1, 6, 0, by decide, by decide⟩
        [⟨1, 4, -1, by decide, by decide⟩]) ++ [default]) := by
    decide +kernel
  obtain ⟨-, -, -, hread, hall⟩ := Roll.parse_printed
  exact ⟨_, hparse, by simp, hread _ _ hparse, hall _ _ hparse (by simp)⟩

end DiceTray
