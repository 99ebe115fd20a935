import DiceTray.Proofs.Sums

/-!
# Merging a row of results

Results that stand in a row can be merged two by two in many orders. Each order
is a tree with the results at its leaves (`Merging`). How the tree branches has no
say in the result, which has the outcomes in a row and the exact sums. It has a
say in which sums are formed on the way, one for every stretch of the row that
is merged into one (`blocks`), and a merging is refused exactly when one of these
does not fit. So merging is not associative where it is partial: a total at its
limit, 1 and -1 can be merged from the right only.
-/

namespace DiceTray.Rolled

/-- The sum of a field over a row of results, without bounds. -/
def sumOf (field : Rolled → Int64) (rs : List Rolled) : Int :=
  (rs.map fun r => (field r).toInt).sum

/-- The sum of a field without its signs, which no stretch of the row exceeds. -/
def magnitude (field : Rolled → Int64) (rs : List Rolled) : Nat :=
  (rs.map fun r => (field r).toInt.natAbs).sum

variable {field : Rolled → Int64} {rs front back : List Rolled} {a b r r' : Rolled}

@[simp] theorem sumOf_singleton : sumOf field [r] = (field r).toInt := by
  simp [sumOf]

@[simp] theorem sumOf_append :
    sumOf field (front ++ back) = sumOf field front + sumOf field back := by
  simp [sumOf]

@[simp] theorem magnitude_append :
    magnitude field (front ++ back) = magnitude field front + magnitude field back := by
  simp [magnitude]

theorem natAbs_sumOf_le (field : Rolled → Int64) (rs : List Rolled) :
    (sumOf field rs).natAbs ≤ magnitude field rs := by
  unfold sumOf magnitude
  induction rs with
  | nil => simp
  | cons r rs ih =>
      rw [List.map_cons, List.map_cons, List.sum_cons, List.sum_cons]
      have := Int.natAbs_add_le (field r).toInt (rs.map fun r => (field r).toInt).sum
      omega

/-- In the range of 64 bits. -/
def Fits (n : Int) : Prop :=
  -2 ^ 63 ≤ n ∧ n ≤ 2 ^ 63 - 1

theorem fits_toInt (n : Int64) : Fits n.toInt := by
  have lo := n.le_toInt
  have hi := n.toInt_lt
  unfold Fits
  omega

theorem fits_of_natAbs_le {n : Int} (h : n.natAbs ≤ 2 ^ 63 - 1) : Fits n := by
  unfold Fits
  omega

/-! ## What a row comes to -/

/-- All results of a row as one: their outcomes in order, and the exact sums. -/
structure SumsUp (rs : List Rolled) (r : Rolled) : Prop where
  outcomes : r.outcomes = rs.flatMap Rolled.outcomes
  modifier : r.modifier.toInt = sumOf Rolled.modifier rs
  total : r.total.toInt = sumOf Rolled.total rs

theorem sumsUp_singleton (r : Rolled) : SumsUp [r] r where
  outcomes := by simp
  modifier := sumOf_singleton.symm
  total := sumOf_singleton.symm

theorem SumsUp.merge (ha : SumsUp front a) (hb : SumsUp back b)
    (h : a.merge b = some r) : SumsUp (front ++ back) r := by
  obtain ⟨houtcomes, hmodifier, htotal⟩ := merge_eq_some_iff.mp h
  refine ⟨?_, ?_, ?_⟩
  · rw [houtcomes, ha.outcomes, hb.outcomes, List.flatMap_append]
  · rw [hmodifier, ha.modifier, hb.modifier, sumOf_append]
  · rw [htotal, ha.total, hb.total, sumOf_append]

theorem SumsUp.eq (h : SumsUp rs r) (h' : SumsUp rs r') : r = r' :=
  eq_of_toInt_eq (h.outcomes.trans h'.outcomes.symm)
    (h.modifier.trans h'.modifier.symm) (h.total.trans h'.total.symm)

/-- Both sums of a row are in range. -/
structure Fitting (rs : List Rolled) : Prop where
  total : Fits (sumOf Rolled.total rs)
  modifier : Fits (sumOf Rolled.modifier rs)

/-- What a row comes to is kept in 64 bits. -/
theorem SumsUp.fitting (h : SumsUp rs r) : Fitting rs where
  total := h.total ▸ fits_toInt r.total
  modifier := h.modifier ▸ fits_toInt r.modifier

/-- The total is the modifier and the outcomes together. -/
def Consistent (r : Rolled) : Prop :=
  r.total.toInt = r.modifier.toInt + outcomeSum r.outcomes

theorem SumsUp.consistent (h : SumsUp rs r) (hrs : ∀ part ∈ rs, Consistent part) :
    Consistent r := by
  have hsum : sumOf Rolled.total rs =
      sumOf Rolled.modifier rs + outcomeSum (rs.flatMap Rolled.outcomes) := by
    clear h
    induction rs with
    | nil => rfl
    | cons part rs ih =>
        obtain ⟨hpart, hrs⟩ := List.forall_mem_cons.mp hrs
        rw [← List.singleton_append, sumOf_append, sumOf_append, List.flatMap_append,
          outcomeSum_append, ih hrs, sumOf_singleton, sumOf_singleton, hpart]
        simp only [List.flatMap_singleton]
        omega
  rw [Consistent, h.total, h.modifier, h.outcomes, hsum]

/-! ## Merging two by two -/

/-- An order in which a row of results is merged: there is just one, or each of
two parts is merged by itself and then both are. -/
inductive Merging where
  | one (r : Rolled)
  | both (left right : Merging)

namespace Merging

variable {m m' left right : Merging}

/-- The results as they stand. -/
def row : Merging → List Rolled
  | one r => [r]
  | both left right => left.row ++ right.row

/-- What becomes of them, if no merge is refused. -/
def result : Merging → Option Rolled
  | one r => some r
  | both left right => do
    let a ← left.result
    let b ← right.result
    a.merge b

/-- The stretches of the row that are merged into one, the whole row last. -/
def blocks : Merging → List (List Rolled)
  | one _ => []
  | both left right => left.blocks ++ right.blocks ++ [left.row ++ right.row]

theorem result_both_eq_some_iff :
    (both left right).result = some r ↔
      ∃ a b, left.result = some a ∧ right.result = some b ∧ a.merge b = some r := by
  simp only [result, Option.bind_eq_bind, Option.bind_eq_some_iff]
  constructor
  · rintro ⟨a, ha, b, hb, h⟩
    exact ⟨a, b, ha, hb, h⟩
  · rintro ⟨a, b, ha, hb, h⟩
    exact ⟨a, ha, b, hb, h⟩

theorem mem_blocks_both {block : List Rolled} :
    block ∈ (both left right).blocks ↔
      block ∈ left.blocks ∨ block ∈ right.blocks ∨ block = (both left right).row := by
  simp only [blocks, row, List.mem_append, List.mem_singleton, or_assoc]

theorem sumsUp_of_result (h : m.result = some r) : SumsUp m.row r := by
  induction m generalizing r with
  | one r' =>
      cases h
      exact sumsUp_singleton r'
  | both left right ihl ihr =>
      obtain ⟨a, b, ha, hb, hmerge⟩ := result_both_eq_some_iff.mp h
      exact (ihl ha).merge (ihr hb) hmerge

theorem fitting_of_result (h : m.result = some r) :
    ∀ block ∈ m.blocks, Fitting block := by
  induction m generalizing r with
  | one r' => simp [blocks]
  | both left right ihl ihr =>
      intro block hblock
      obtain ⟨a, b, ha, hb, -⟩ := result_both_eq_some_iff.mp h
      rcases mem_blocks_both.mp hblock with hleft | hright | rfl
      · exact ihl ha block hleft
      · exact ihr hb block hright
      · exact (sumsUp_of_result h).fitting

theorem exists_result (h : ∀ block ∈ m.blocks, Fitting block) : ∃ r, m.result = some r := by
  induction m with
  | one r => exact ⟨r, rfl⟩
  | both left right ihl ihr =>
      obtain ⟨a, ha⟩ := ihl fun block hblock => h block (mem_blocks_both.mpr (.inl hblock))
      obtain ⟨b, hb⟩ := ihr fun block hblock =>
        h block (mem_blocks_both.mpr (.inr (.inl hblock)))
      have hwhole := h _ (mem_blocks_both.mpr (.inr (.inr rfl)))
      have hfits : ∀ {field}, sumOf field (both left right).row =
          sumOf field left.row + sumOf field right.row := sumOf_append
      have htotal := hwhole.total
      have hmodifier := hwhole.modifier
      rw [hfits, ← (sumsUp_of_result ha).total, ← (sumsUp_of_result hb).total] at htotal
      rw [hfits, ← (sumsUp_of_result ha).modifier,
        ← (sumsUp_of_result hb).modifier] at hmodifier
      unfold Fits at htotal hmodifier
      obtain ⟨r, hr⟩ := exists_merge (a := a) (b := b) (by omega) (by omega)
      exact ⟨r, result_both_eq_some_iff.mpr ⟨a, b, ha, hb, hr⟩⟩

theorem result_eq_none_iff :
    m.result = none ↔ ∃ block ∈ m.blocks, ¬ Fitting block := by
  constructor
  · intro h
    by_contra hall
    push Not at hall
    obtain ⟨r, hr⟩ := exists_result hall
    rw [h] at hr
    cases hr
  · rintro ⟨block, hblock, hnot⟩
    cases h : m.result with
    | none => rfl
    | some r => exact absurd (fitting_of_result h block hblock) hnot

/-- What is merged into one is a stretch of the row. -/
theorem infix_of_mem_blocks {block : List Rolled} (h : block ∈ m.blocks) :
    block <:+: m.row := by
  induction m with
  | one r => cases h
  | both left right ihl ihr =>
      rcases mem_blocks_both.mp h with hleft | hright | rfl
      · exact (ihl hleft).trans (List.prefix_append _ _).isInfix
      · exact (ihr hright).trans (List.suffix_append _ _).isInfix
      · exact List.infix_refl _

theorem fits_sumOf_of_mem_blocks {block : List Rolled} (hblock : block ∈ m.blocks)
    (h : magnitude field m.row ≤ 2 ^ 63 - 1) : Fits (sumOf field block) := by
  obtain ⟨before, behind, hrow⟩ := infix_of_mem_blocks hblock
  have hsize := natAbs_sumOf_le field block
  rw [← hrow, magnitude_append, magnitude_append] at h
  exact fits_of_natAbs_le (by omega)

end Merging

/-- **Sums are exact or refused.** Outcomes are totalled unless their sum with the
modifier is above the range, and then the dice are blamed. Merging a row of
results gives the outcomes in order and the exact sums, whatever the order of
merging is, and is refused exactly when a sum that is formed on the way is out of
range. That cannot happen where the sums without signs are in range. A total
that is the modifier and the outcomes together stays so. -/
theorem sums_exact :
    (∀ (d : Dice) (outcomes : List UInt32),
      ((∃ error, ofOutcomes d outcomes = .error error) ↔
        2 ^ 63 - 1 < d.modifier.toInt + outcomeSum outcomes) ∧
      (∀ error, ofOutcomes d outcomes = .error error → error = .overflow d) ∧
      ∀ r, ofOutcomes d outcomes = .ok r →
        r.outcomes = outcomes ∧ r.modifier.toInt = d.modifier.toInt ∧
          r.total.toInt = d.modifier.toInt + outcomeSum outcomes) ∧
    (∀ (m : Merging) (r : Rolled), m.result = some r →
      r.outcomes = m.row.flatMap Rolled.outcomes ∧
        r.modifier.toInt = sumOf Rolled.modifier m.row ∧
        r.total.toInt = sumOf Rolled.total m.row) ∧
    (∀ (m m' : Merging) (r r' : Rolled), m.row = m'.row →
      m.result = some r → m'.result = some r' → r = r') ∧
    (∀ m : Merging, m.result = none ↔
      ∃ block ∈ m.blocks, ¬ Fits (sumOf Rolled.total block) ∨
        ¬ Fits (sumOf Rolled.modifier block)) ∧
    (∀ m : Merging, magnitude Rolled.total m.row ≤ 2 ^ 63 - 1 →
      magnitude Rolled.modifier m.row ≤ 2 ^ 63 - 1 → ∃ r, m.result = some r) ∧
    (∀ (m : Merging) (r : Rolled), (∀ part ∈ m.row, Consistent part) →
      m.result = some r → Consistent r) := by
  refine ⟨fun d outcomes => ⟨?_, fun error h => ?_, fun r h => ofOutcomes_eq_ok_iff.mp h⟩,
    fun m r h => ?_, fun m m' r r' hrow h h' => ?_, fun m => ?_, fun m htotal hmodifier => ?_,
    fun m r hrow h => (Merging.sumsUp_of_result h).consistent hrow⟩
  · constructor
    · rintro ⟨error, h⟩
      by_contra hle
      have hfits : d.modifier.toInt + outcomeSum outcomes < 2 ^ 63 := by omega
      obtain ⟨r, hr⟩ := exists_ofOutcomes hfits
      rw [h] at hr
      cases hr
    · intro hlarge
      cases h : ofOutcomes d outcomes with
      | error error => exact ⟨error, rfl⟩
      | ok r =>
          obtain ⟨-, -, htotal⟩ := ofOutcomes_eq_ok_iff.mp h
          have := r.total.toInt_lt
          omega
  · unfold ofOutcomes at h
    dsimp only at h
    split at h
    · cases h
    · cases h
      rfl
  · obtain ⟨houtcomes, hmodifier, htotal⟩ := Merging.sumsUp_of_result h
    exact ⟨houtcomes, hmodifier, htotal⟩
  · exact (Merging.sumsUp_of_result h).eq (hrow ▸ Merging.sumsUp_of_result h')
  · rw [Merging.result_eq_none_iff]
    refine exists_congr fun block => and_congr_right fun _ => ?_
    rw [← not_and_or, not_iff_not]
    exact ⟨fun h => ⟨h.total, h.modifier⟩, fun h => ⟨h.1, h.2⟩⟩
  · exact Merging.exists_result fun block hblock =>
      ⟨Merging.fits_sumOf_of_mem_blocks hblock htotal,
        Merging.fits_sumOf_of_mem_blocks hblock hmodifier⟩

/-- A total at its limit, 1 and -1, merged from the right and from the left. -/
theorem sums_exact_at_limit :
    (Merging.both (.one ⟨[], 0, .maxValue⟩)
      (.both (.one ⟨[1], 0, 1⟩) (.one ⟨[], 0, -1⟩))).result = some ⟨[1], 0, .maxValue⟩ ∧
    (Merging.both (.both (.one ⟨[], 0, .maxValue⟩) (.one ⟨[1], 0, 1⟩))
      (.one ⟨[], 0, -1⟩)).result = none := by
  obtain ⟨-, -, -, hrefused, -⟩ := sums_exact
  refine ⟨by decide, (hrefused _).mpr ⟨[⟨[], 0, .maxValue⟩, ⟨[1], 0, 1⟩],
    List.mem_cons_self, Or.inl fun h => absurd h.2 (by decide)⟩⟩

end DiceTray.Rolled
