import DiceTray.Parse
import DiceTray.Proofs.Grammar
import DiceTray.Proofs.Reads

/-!
# Recognition

Reading accepts the grammar and nothing else, and what it makes of a text is the
value of the derivation. Each reader of the language is matched with its rule,
in front of the places where no phrase of that rule goes on.

The readers differ from the rules in three ways that have to be made up for.
They take the longest word, so a rule is matched only in front of an end of its
phrase. They take a number in front of a clause for a repeat count first, and
give it back to the first term if no `x` follows. And they number the terms they
have room for, while the rule limits the length of the chain as a whole.
-/

namespace DiceTray.Reader

open Text Grammar

variable {α : Type} {F G : List Token → Prop}

/-! ## Ends of phrases -/

/-- No term goes on here. -/
def TermEnds (after : List Token) : Prop :=
  (∀ n, after.head? ≠ some (.num n)) ∧ after.head? ≠ some (.mark '+') ∧
    after.head? ≠ some (.mark '-')

/-- No chain goes on here. -/
def ChainEnds (after : List Token) : Prop :=
  TermEnds after ∧ after.head? ≠ some (.mark '&')

theorem termEnds_and (mid : List Token) : TermEnds (.mark '&' :: mid) := by
  simp [TermEnds]

theorem chainEnds_semicolon (mid : List Token) :
    ChainEnds (.mark ';' :: mid) := by
  simp [ChainEnds, TermEnds]

theorem chainEnds_nil : ChainEnds [] := by
  simp [ChainEnds, TermEnds]

/-- A phrase of a rule stands in front of the tokens that are left. -/
def Derived (rule : List Token → α → Prop) (ts : List Token) (a : α)
    (after : List Token) : Prop :=
  ∃ front, ts = front ++ after ∧ rule front a

@[simp] theorem derived_nil {rule : List Token → α → Prop} {ts : List Token}
    {a : α} : Derived rule ts a [] ↔ rule ts a := by
  simp [Derived]

/-! ## Modifiers -/

/-- Tokens that begin with a sign, or with none. -/
def SignAt (ts : List Token) (factor : Int) (after : List Token) : Prop :=
  (ts = .mark '+' :: after ∧ factor = 1) ∨
    (ts = .mark '-' :: after ∧ factor = -1) ∨
    (ts = after ∧ factor = 1 ∧ ts.head? ≠ some (.mark '+') ∧
      ts.head? ≠ some (.mark '-'))

theorem reads_sign : Reads F sign SignAt := by
  apply (Reads.literal_bind rfl (reads_pure 1)
    (Reads.literal_bind rfl (reads_pure (-1)) (reads_pure 1))).congr
  intro ts factor after _
  unfold SignAt
  constructor
  · rintro (⟨mid, rfl, rfl, rfl⟩ | ⟨hplus, ⟨mid, rfl, rfl, rfl⟩ | ⟨hminus, rfl, rfl⟩⟩)
    · exact Or.inl ⟨rfl, rfl⟩
    · exact Or.inr (Or.inl ⟨rfl, rfl⟩)
    · exact Or.inr (Or.inr ⟨rfl, rfl, hplus, hminus⟩)
  · rintro (⟨rfl, rfl⟩ | ⟨rfl, rfl⟩ | ⟨rfl, rfl, hplus, hminus⟩)
    · exact Or.inl ⟨after, rfl, rfl, rfl⟩
    · exact Or.inr ⟨by simp, Or.inl ⟨after, rfl, rfl, rfl⟩⟩
    · exact Or.inr ⟨hplus, Or.inr ⟨hminus, rfl, rfl⟩⟩

/-- A number behind its sign, which has to fit with the sign put to it. -/
def SignedAt (ts : List Token) : Option Int32 → List Token → Prop
  | some v, after =>
      ∃ factor n, SignAt ts factor (.num n :: after) ∧ v.toInt = factor * n
  | none, after => ∃ factor, SignAt ts factor after ∧
      ∀ n, after.head? ≠ some (.num n)

theorem reads_signed (start : List Char) :
    Reads F (do
      let factor ← sign
      let some n ← number | return none
      let some value := Width.signed32 (factor * n.toNat)
        | throw ⟨.overflow, start, ← get⟩
      return some value) SignedAt := by
  refine (reads_sign.bind_any fun factor => Reads.number_bind
    (S := fun n ts found after => ∃ v : Int32, found = some v ∧ ts = after ∧
      v.toInt = factor * n.toNat)
    (fun n => ?_) (reads_pure none)).congr ?_
  · dsimp only
    cases hv : Width.signed32 (factor * n.toNat) with
    | none =>
        rw [Width.signed32_eq_none_iff] at hv
        apply (reads_fail _ _).congr
        intro ts found after _
        constructor
        · exact False.elim
        · rintro ⟨v, -, -, h⟩
          have := v.le_toInt
          have := v.toInt_lt
          omega
    | some v =>
        rw [Width.signed32_eq_some_iff] at hv
        apply (reads_pure _).congr
        intro ts found after _
        constructor
        · rintro ⟨rfl, rfl⟩
          exact ⟨v, rfl, rfl, hv⟩
        · rintro ⟨w, rfl, rfl, hw⟩
          exact ⟨by rw [Int32.toInt_inj.mp (hw.trans hv.symm)], rfl⟩
  · rintro ts (_ | v) after -
    · constructor
      · rintro ⟨factor, mid, hsign, ⟨_, _, _, _, h, _⟩ | ⟨hhead, -, rfl⟩⟩
        · cases h
        · exact ⟨factor, hsign, hhead⟩
      · rintro ⟨factor, hsign, hhead⟩
        exact ⟨factor, after, hsign, Or.inr ⟨hhead, rfl, rfl⟩⟩
    · constructor
      · rintro ⟨factor, mid, hsign, ⟨n, _, rfl, w, h, rfl, hw⟩ | ⟨-, h, -⟩⟩
        · cases h
          exact ⟨factor, n.toNat, hsign, hw⟩
        · cases h
      · rintro ⟨factor, n, hsign, hv⟩
        -- A value in the signed range has digits in the unsigned one.
        have hn : n < 2 ^ 32 := by
          have lo := v.le_toInt
          have hi := v.toInt_lt
          rcases hsign with ⟨-, rfl⟩ | ⟨-, rfl⟩ | ⟨-, rfl, -⟩ <;> omega
        refine ⟨factor, _, hsign, Or.inl ⟨UInt32.ofNat n, after, ?_, v, rfl, rfl, ?_⟩⟩
        · rw [UInt32.toNat_ofNat_of_lt' hn]
        · rw [UInt32.toNat_ofNat_of_lt' hn, hv]

/-- A signed number is a modifier, and where there is none no modifier is
written. -/
theorem reads_integer : Reads TermEnds integer fun ts found after =>
    ∃ back, ts = back ++ after ∧ Modifier back (found.getD 0).toInt ∧
      (found = none ↔ back = []) := by
  apply Reads.here_bind
  intro start
  apply (Reads.orUnread (reads_signed start)).congr
  rintro ts (_ | v) after ⟨hnum, hplus, hminus⟩
  · constructor
    · rintro ⟨rfl, -⟩
      exact ⟨[], rfl, .absent, by simp⟩
    · rintro ⟨back, rfl, -, hback⟩
      obtain rfl := hback.mp rfl
      exact ⟨rfl, after, 1, Or.inr (Or.inr ⟨rfl, rfl, hplus, hminus⟩), hnum⟩
  · constructor
    · rintro ⟨factor, n, ⟨rfl, rfl⟩ | ⟨rfl, rfl⟩ | ⟨rfl, rfl, -⟩, hv⟩
      · refine ⟨[.mark '+', .num n], rfl, ?_, by simp⟩
        rw [Option.getD_some, hv, Int.one_mul]
        exact .plus n
      · refine ⟨[.mark '-', .num n], rfl, ?_, by simp⟩
        rw [Option.getD_some, hv, Int.neg_one_mul]
        exact .minus n
      · refine ⟨[.num n], rfl, ?_, by simp⟩
        rw [Option.getD_some, hv, Int.one_mul]
        exact .bare n
    · rintro ⟨back, rfl, hmod, hback⟩
      rw [Option.getD_some] at hmod
      generalize hm : v.toInt = m at hmod
      cases hmod with
      | absent => simp at hback
      | bare n => exact ⟨1, n, Or.inr (Or.inr ⟨rfl, rfl, by simp, by simp⟩), by omega⟩
      | plus n => exact ⟨1, n, Or.inl ⟨rfl, rfl⟩, by omega⟩
      | minus n => exact ⟨-1, n, Or.inr (Or.inl ⟨rfl, rfl⟩), by omega⟩

/-! ## Terms -/

/-- The part of a term behind its letter. -/
def BehindLetter (count : UInt32) (ts : List Token) (d : Dice)
    (after : List Token) : Prop :=
  count = d.count ∧ d.count ≤ Dice.maxCount ∧
    ∃ back, ts = .num d.sides.toNat :: back ++ after ∧
      Modifier back d.modifier.toInt

theorem reads_check (asked : Dice.Request) (start : List Char) :
    Reads F (match asked.check with
      | .ok dice => pure dice
      | .error error => do throw ⟨.dice error, start, ← get⟩)
      fun ts d after =>
        (asked = d.request ∧ d.count ≤ Dice.maxCount) ∧ ts = after := by
  simp only [← Dice.Request.check_eq_ok_iff]
  cases hc : asked.check with
  | ok dice => exact (reads_pure dice).congr fun _ _ _ _ => by simp [eq_comm]
  | error error => exact (reads_fail _ _).congr fun _ _ _ _ => by simp

theorem reads_afterLetter (start : List Char) (count : UInt32) :
    Reads TermEnds (afterLetter start count) (BehindLetter count) := by
  refine (Reads.number_bind
    (fun sides => reads_integer.bind (fun modifier => reads_check _ start) ?_)
    (reads_expected _)).congr ?_
  · rintro found mid d after hF ⟨-, rfl⟩
    exact hF
  · rintro ts d after ⟨hnum, hplus, hminus⟩
    constructor
    · rintro (⟨sides, mid, rfl, found, _, ⟨back, rfl, hmod, -⟩, ⟨hreq, hle⟩, rfl⟩ | ⟨-, h⟩)
      · obtain ⟨rfl, rfl, hm⟩ := Dice.Request.mk.inj hreq
        exact ⟨rfl, hle, back, rfl, hm ▸ hmod⟩
      · exact h.elim
    · rintro ⟨rfl, hle, back, rfl, hmod⟩
      -- A written zero and no modifier ask for the same dice. Which of the two
      -- was read shows in the tokens only.
      refine Or.inl ⟨d.sides, back ++ after, rfl,
        if back = [] then none else some d.modifier, after, ?_⟩
      by_cases hback : back = []
      · subst hback
        have hzero : d.modifier = 0 := by
          generalize hm : d.modifier.toInt = m at hmod
          cases hmod
          exact Int32.toInt_inj.mp hm
        refine ⟨⟨[], rfl, .absent, by simp⟩, ⟨?_, hle⟩, rfl⟩
        simp [Dice.request, hzero]
      · exact ⟨⟨back, rfl, by simpa [hback] using hmod, by simp [hback]⟩,
          ⟨by simp [hback, Dice.request], hle⟩, rfl⟩

theorem reads_term : Reads TermEnds term (Derived Term) := by
  refine Reads.here_bind fun start => (Reads.number_bind
    (fun count => (reads_require rfl _).bind_any fun _ => reads_afterLetter start _)
    ((reads_require rfl _).bind_any fun _ => reads_afterLetter start _)).congr ?_
  intro ts d after _
  constructor
  · rintro (⟨count, _, rfl, -, mid, rfl, rfl, hle, back, rfl, hmod⟩ |
      ⟨-, -, mid, rfl, hone, hle, back, rfl, hmod⟩)
    · exact ⟨_, by simp, .intro (.given _) hmod (denotes_self hle)⟩
    · have hcount : d.count.toNat = 1 := by
        rw [← hone]
        rfl
      exact ⟨_, rfl, .intro .absent hmod (hcount ▸ denotes_self hle)⟩
  · rintro ⟨_, rfl, hterm⟩
    obtain ⟨hcount, hmod, hd⟩ := hterm
    have hle := hd.count_le
    rw [← hd.sides_eq]
    rw [← hd.modifier_eq] at hmod
    rw [← hd.count_eq] at hcount
    generalize hn : d.count.toNat = n at hcount
    cases hcount with
    | given =>
        subst hn
        exact Or.inl ⟨d.count, _, rfl, (), _, rfl, rfl, hle, _, rfl, hmod⟩
    | absent =>
        refine Or.inr ⟨by simp, (), _, rfl, ?_, hle, _, rfl, hmod⟩
        exact UInt32.toNat_inj.mp hn.symm

/-! ## Chains -/

theorem reads_moreTerms (start : List Char) (room : Nat) :
    Reads ChainEnds (moreTerms start room) fun ts ds after =>
      (ds = [] ∧ ts = after) ∨
        ∃ mid, ts = .mark '&' :: mid ∧ ds.length ≤ room ∧
          Derived (Series '&' Term) mid ds after := by
  induction room with
  | zero =>
      -- A further mark is refused here, and no series fits into no room.
      rw [moreTerms]
      apply (Reads.literal_bind rfl (reads_fail _ _) (reads_pure [])).congr
      rintro ts ds after ⟨-, hand⟩
      constructor
      · rintro (⟨_, _, h⟩ | ⟨-, rfl, rfl⟩)
        · exact h.elim
        · exact Or.inl ⟨rfl, rfl⟩
      · rintro (⟨rfl, rfl⟩ | ⟨_, _, hlen, front, _, hs⟩)
        · exact Or.inr ⟨hand, rfl, rfl⟩
        · rw [List.length_eq_zero_iff.mp (Nat.le_zero.mp hlen)] at hs
          exact absurd hs series_nil
  | succ room ih =>
      rw [moreTerms]
      refine (Reads.literal_bind rfl
        (reads_term.bind (fun d => ih.map (d :: ·)) ?_) (reads_pure [])).congr ?_
      · rintro d mid _ after ⟨hterm, hand⟩ ⟨ds, rfl, ⟨rfl, rfl⟩ | ⟨_, rfl, -⟩⟩
        · exact hterm
        · exact termEnds_and _
      · rintro ts ds after ⟨-, hand⟩
        constructor
        · rintro (⟨_, rfl, d, _, ⟨front, rfl, hd⟩, ds, rfl,
            ⟨rfl, rfl⟩ | ⟨_, rfl, hlen, rest, rfl, hs⟩⟩ | ⟨-, rfl, rfl⟩)
          · exact Or.inr ⟨_, rfl, by simp, front, rfl, .one hd⟩
          · exact Or.inr ⟨_, rfl, by simpa using hlen, _, by simp, .more hd hs⟩
          · exact Or.inl ⟨rfl, rfl⟩
        · rintro (⟨rfl, rfl⟩ | ⟨_, rfl, hlen, front, rfl, hs⟩)
          · exact Or.inr ⟨hand, rfl, rfl⟩
          · refine Or.inl ⟨_, rfl, ?_⟩
            cases hs with
            | @one _ d hd =>
                exact ⟨d, after, ⟨front, rfl, hd⟩, [], rfl, Or.inl ⟨rfl, rfl⟩⟩
            | @more ts rest d ds hd hs =>
                exact ⟨d, _, ⟨ts, by simp, hd⟩, ds, rfl,
                  Or.inr ⟨rest ++ after, rfl, by simpa using hlen, rest, rfl, hs⟩⟩

theorem reads_chain : Reads ChainEnds chain (Derived Chain) := by
  refine Reads.get_bind fun start => (reads_term.bind
    (fun d => (reads_moreTerms start _).map (Expr.chain d)) ?_).congr ?_
  · rintro d mid _ after ⟨hterm, hand⟩ ⟨ds, rfl, ⟨rfl, rfl⟩ | ⟨_, rfl, -⟩⟩
    · exact hterm
    · exact termEnds_and _
  · intro ts e after hF
    constructor
    · rintro ⟨d, _, ⟨front, rfl, hd⟩, ds, rfl,
        ⟨rfl, rfl⟩ | ⟨_, rfl, hlen, rest, rfl, hs⟩⟩
      · exact ⟨front, rfl, chain_iff.mpr ⟨d, [], rfl, .one hd, by simp⟩⟩
      · exact ⟨front ++ .mark '&' :: rest, by simp,
          chain_iff.mpr ⟨d, ds, rfl, .more hd hs, Nat.succ_le_succ hlen⟩⟩
    · rintro ⟨_, rfl, hchain⟩
      obtain ⟨d, ds, rfl, hs, hlen⟩ := chain_iff.mp hchain
      rcases series_cons_iff.mp hs with ⟨rfl, hd⟩ | ⟨front, rest, rfl, hd, hs⟩
      · exact ⟨d, after, ⟨_, rfl, hd⟩, [], rfl, Or.inl ⟨rfl, rfl⟩⟩
      · exact ⟨d, _, ⟨front, by simp, hd⟩, ds, rfl,
          Or.inr ⟨rest ++ after, rfl, Nat.le_of_succ_le_succ hlen, rest, rfl, hs⟩⟩

/-! ## Clauses -/

/-- Tokens that begin with a repeat count in range, or with none. -/
def CountAt (ts : List Token) : Option UInt32 → List Token → Prop
  | some n, after => ts = .num n.toNat :: .mark 'x' :: after
  | none, after =>
      ts = after ∧ ∀ n mid, n < 2 ^ 32 → ts ≠ .num n :: .mark 'x' :: mid

theorem reads_count :
    Reads F (lookFor do
      let count ← number
      return if ← literal ['x'] then count else none) CountAt := by
  apply (Reads.lookFor (Reads.number_bind
    (fun n => Reads.literal_bind rfl (reads_pure (some n)) (reads_pure none))
    (Reads.literal_bind rfl (reads_pure none) (reads_pure none)))).congr
  -- Only the branch behind a number and its mark gives a count.
  have given : ∀ (ts : List Token) (n : UInt32) (after : List Token),
      ((∃ m mid, ts = .num m.toNat :: mid ∧
          ((∃ mid', mid = .mark 'x' :: mid' ∧ some n = some m ∧ mid' = after) ∨
            (mid.head? ≠ some (.mark 'x') ∧ some n = none ∧ mid = after))) ∨
        ((∀ m, ts.head? ≠ some (.num m)) ∧
          ((∃ mid, ts = .mark 'x' :: mid ∧ some n = none ∧ mid = after) ∨
            (ts.head? ≠ some (.mark 'x') ∧ some n = none ∧ ts = after)))) ↔
        ts = .num n.toNat :: .mark 'x' :: after := by
    intro ts n after
    constructor
    · rintro (⟨m, _, rfl, ⟨_, rfl, h, rfl⟩ | ⟨-, h, -⟩⟩ | ⟨-, ⟨_, -, h, -⟩ | ⟨-, h, -⟩⟩)
      · rw [Option.some.inj h]
      all_goals cases h
    · rintro rfl
      exact Or.inl ⟨n, _, rfl, Or.inl ⟨after, rfl, rfl, rfl⟩⟩
  rintro ts (_ | n) after -
  · simp only [given, CountAt]
    refine and_congr_right fun _ => ⟨fun h n mid hn heq => ?_, fun h n mid => ?_⟩
    · apply h (UInt32.ofNat n) mid
      rw [heq, UInt32.toNat_ofNat_of_lt' hn]
    · exact h n.toNat mid n.toNat_lt
  · exact given ts n after

theorem reads_repeats : Reads F repeats fun ts copies after =>
    (ts = .num copies :: .mark 'x' :: after ∧ copies ≤ 1024) ∨
      (copies = 1 ∧ CountAt ts none after) := by
  refine Reads.here_bind fun start => (reads_count.bind_any
    (S := fun count ts copies after => ts = after ∧
      count.elim (copies = 1) fun n => n.toNat ≤ 1024 ∧ copies = n.toNat) ?_).congr ?_
  · rintro (_ | n)
    · exact (reads_pure 1).congr fun ts copies after _ => and_comm
    · dsimp only
      split
      · apply (reads_fail _ _).congr
        intro ts copies after _
        have hn : 1024 < n.toNat := by assumption
        simp only [Option.elim_some, false_iff, not_and]
        omega
      · apply (reads_pure _).congr
        intro ts copies after _
        have hn : ¬ 1024 < n.toNat := by assumption
        constructor
        · rintro ⟨rfl, rfl⟩
          exact ⟨rfl, by omega, rfl⟩
        · rintro ⟨rfl, -, rfl⟩
          exact ⟨rfl, rfl⟩
  · intro ts copies after _
    constructor
    · rintro ⟨_ | n, mid, hcount, rfl, h⟩
      · exact Or.inr ⟨h, hcount⟩
      · obtain ⟨hle, rfl⟩ := h
        exact Or.inl ⟨hcount, hle⟩
    · rintro (⟨rfl, hle⟩ | ⟨rfl, hcount⟩)
      · have hn : copies < 2 ^ 32 := by omega
        refine ⟨some (UInt32.ofNat copies), after, ?_, rfl, ?_⟩
        · rw [CountAt, UInt32.toNat_ofNat_of_lt' hn]
        · simp only [Option.elim_some, UInt32.toNat_ofNat_of_lt' hn, hle, and_self]
      · exact ⟨none, after, hcount, rfl, rfl⟩

theorem reads_clause : Reads ChainEnds clause (Derived Clause) := by
  apply (reads_repeats.bind_any fun copies =>
    reads_chain.map (List.replicate copies)).congr
  intro ts es after _
  constructor
  · rintro ⟨copies, _, ⟨rfl, hle⟩ | ⟨rfl, rfl, -⟩, e, rfl, front, rfl, he⟩
    · exact ⟨.num copies :: .mark 'x' :: front, rfl, .times hle he⟩
    · exact ⟨front, rfl, .once he⟩
  · rintro ⟨front, rfl, hclause⟩
    cases hclause with
    | @once _ e he =>
        -- A number that is no repeat count is given back to the first term.
        refine ⟨1, _, Or.inr ⟨rfl, rfl, fun n mid _ => ?_⟩, e, rfl, _, rfl, he⟩
        exact he.ne_num_mark (by decide) after mid
    | @times n ts e hle he =>
        exact ⟨n, ts ++ after, Or.inl ⟨rfl, hle⟩, e, rfl, ts, rfl, he⟩

/-! ## Rolls -/

/-- One round of a repetition: an item, and then the end or a mark with further
rounds behind it. -/
theorem leaves_separated_iff {p : Reader α} {c : Char} (shortens : Shortens p)
    (ne : [c] ≠ []) (digit : c.isDigit = false) {text : List Char} {as : List α}
    {after : List Token} :
    Leaves (separated p [c] shortens ne) text as after ↔
      ∃ a rest, p text = .ok a rest ∧
        ((as = [a] ∧ tokens rest = after ∧ after.head? ≠ some (.mark c)) ∨
          ∃ rest', literal [c] rest = .ok true rest' ∧
            ∃ as', as = a :: as' ∧
              Leaves (separated p [c] shortens ne) rest' as' after) := by
  conv_lhs => rw [separated_eq, leaves_bind]
  refine exists_congr fun a => exists_congr fun rest => and_congr_right fun _ => ?_
  rw [leaves_bind]
  constructor
  · rintro ⟨_ | _, rest', hlit, h⟩
    · obtain ⟨rfl, htok⟩ := leaves_pure.mp h
      obtain ⟨hsame, hhead⟩ :=
        (reads_literal digit (F := fun _ => True) rest false _ trivial).mp
          ⟨rest', hlit, rfl⟩
      rw [← hsame] at htok
      exact Or.inl ⟨rfl, htok, htok ▸ hhead⟩
    · obtain ⟨as', rest'', hsep, h⟩ := leaves_bind.mp h
      obtain ⟨rfl, htok⟩ := leaves_pure.mp h
      exact Or.inr ⟨rest', hlit, as', rfl, rest'', hsep, htok⟩
  · rintro (⟨rfl, htok, hhead⟩ | ⟨rest', hlit, as', rfl, rest'', hsep, htok⟩)
    · obtain ⟨rest', hlit, htok'⟩ :=
        (reads_literal digit (F := fun _ => True) rest false after trivial).mpr
          ⟨htok, htok ▸ hhead⟩
      exact ⟨false, rest', hlit, leaves_pure.mpr ⟨rfl, htok'⟩⟩
    · exact ⟨true, rest', hlit,
        leaves_bind.mpr ⟨as', rest'', hsep, leaves_pure.mpr ⟨rfl, htok⟩⟩⟩

/-- Reading until no mark follows is reading a series, if an item is understood
in front of the mark and in front of the end. -/
theorem Reads.separated {p : Reader α} {item : List Token → α → Prop} {c : Char}
    (hp : Reads G p (Derived item)) (shortens : Shortens p) (ne : [c] ≠ [])
    (digit : c.isDigit = false) (inner : ∀ mid, G (.mark c :: mid))
    (ends : ∀ after, F after → G after ∧ after.head? ≠ some (.mark c)) :
    Reads F (separated p [c] shortens ne) (Derived (Series c item)) := by
  intro text as after hF
  constructor
  · -- Every item shortens the text. How many there are is not known before.
    induction hn : text.length using Nat.strongRecOn generalizing text as with
    | ind n ih =>
        subst hn
        intro h
        rcases (leaves_separated_iff shortens ne digit).mp h with
          ⟨a, rest, hrun, ⟨rfl, htok, -⟩ | ⟨rest', hlit, as', rfl, hmore⟩⟩
        · obtain ⟨front, heq, ha⟩ :=
            (hp text a after (ends after hF).1).mp ⟨rest, hrun, htok⟩
          exact ⟨front, heq, .one ha⟩
        · have hmark : tokens rest = .mark c :: tokens rest' :=
            (reads_literal digit (F := fun _ => True) rest true _ trivial).mp
              ⟨rest', hlit, rfl⟩
          obtain ⟨front, heq, ha⟩ :=
            (hp text a _ (inner (tokens rest'))).mp ⟨rest, hrun, hmark⟩
          have shorter :=
            Nat.lt_trans (length_lt_of_literal ne hlit) (shortens _ _ _ hrun)
          obtain ⟨back, heq', hs⟩ := ih _ shorter rest' as' rfl hmore
          refine ⟨front ++ .mark c :: back, ?_, .more ha hs⟩
          rw [heq, heq', List.append_assoc, List.cons_append]
  · rintro ⟨front, heq, hs⟩
    induction hs generalizing text with
    | one ha =>
        obtain ⟨hG, hhead⟩ := ends after hF
        obtain ⟨rest, hrun, htok⟩ := (hp text _ after hG).mpr ⟨_, heq, ha⟩
        exact (leaves_separated_iff shortens ne digit).mpr
          ⟨_, rest, hrun, Or.inl ⟨rfl, htok, hhead⟩⟩
    | @more ts rest a as ha _ ih =>
        rw [List.append_assoc, List.cons_append] at heq
        obtain ⟨mid, hrun, hmark⟩ := (hp text _ _ (inner _)).mpr ⟨_, heq, ha⟩
        obtain ⟨mid', hlit, htok⟩ :=
          (reads_literal digit (F := fun _ => True) mid true _ trivial).mpr hmark
        exact (leaves_separated_iff shortens ne digit).mpr
          ⟨_, mid, hrun, Or.inr ⟨mid', hlit, as, rfl, ih mid' htok⟩⟩

theorem reads_clauses : Reads (· = []) clauses (Derived Roll) := by
  refine ((Reads.separated reads_clause shortens_clause (by decide) rfl
    chainEnds_semicolon ?_).map List.flatten).congr ?_
  · rintro _ rfl
    exact ⟨chainEnds_nil, by simp⟩
  · intro ts es after _
    constructor
    · rintro ⟨parts, rfl, front, rfl, hs⟩
      exact ⟨front, rfl, .intro hs⟩
    · rintro ⟨front, rfl, ⟨hs⟩⟩
      exact ⟨_, rfl, front, rfl, hs⟩

/-! ## Whole texts -/

/-- The tokens of a text as it is read: in lower case. -/
def tokensOf (text : String) : List Token :=
  tokens (lowerCase text.toList)

/-- A reader that is understood at the end of a text is understood on whole
texts. -/
theorem Reads.parse_eq_ok_iff {p : Reader α} {rule : List Token → α → Prop}
    (hp : Reads F p (Derived rule)) (hF : F []) {text : String} {a : α} :
    p.parse text = .ok a ↔ rule (tokensOf text) a := by
  rw [parse_eq_ok]
  constructor
  · rintro ⟨rest, hrun⟩
    obtain ⟨-, hleaves⟩ := leaves_complete.mp ⟨rest, hrun, rfl⟩
    exact derived_nil.mp ((hp _ _ _ hF).mp hleaves)
  · intro h
    obtain ⟨rest, hrun, -⟩ := leaves_complete.mpr
      ⟨rfl, (hp _ _ _ hF).mpr (derived_nil.mpr h)⟩
    exact ⟨rest, hrun⟩

end DiceTray.Reader

namespace DiceTray

open Reader

theorem Roll.parse_eq_ok_iff {text : String} {es : List Expr} :
    Roll.parse text = .ok es ↔ Grammar.Roll (tokensOf text) es :=
  reads_clauses.parse_eq_ok_iff rfl

theorem Expr.parse_eq_ok_iff {text : String} {e : Expr} :
    Expr.parse text = .ok e ↔ Grammar.Chain (tokensOf text) e :=
  reads_chain.parse_eq_ok_iff chainEnds_nil

theorem Dice.parse_eq_ok_iff {text : String} {d : Dice} :
    Dice.parse text = .ok d ↔ Grammar.Term (tokensOf text) d :=
  reads_term.parse_eq_ok_iff chainEnds_nil.1

/-- **Recognition.** A text is a roll exactly when its tokens derive from the
grammar, and then it reads as the value of the derivation. Every other text is
refused. -/
theorem Roll.parse_recognises (text : String) :
    (∀ es, Roll.parse text = .ok es ↔ Grammar.Roll (tokensOf text) es) ∧
      ((∃ error, Roll.parse text = .error error) ↔
        ¬ ∃ es, Grammar.Roll (tokensOf text) es) := by
  refine ⟨fun es => Roll.parse_eq_ok_iff, ?_⟩
  simp only [← Roll.parse_eq_ok_iff]
  cases Roll.parse text <;> simp

end DiceTray
