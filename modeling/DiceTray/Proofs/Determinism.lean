import DiceTray.Proofs.Range

/-!
# Determinism

An expression is called deterministic if all of its dice have one side. That is
a matter of its text, and here it is compared with what evaluation does: such an
expression has one total, whoever rolls it, and every other expression has two.

A total is the modifiers and the sum of the outcomes. The sum is as many as
there are dice where every die shows 1, and as much as all sides where every die
shows its highest. Every die has a side, so the two agree only where no die has
more than one. Modifiers are in both totals and cannot make up for a die, and
there is no expression without dice.
-/

namespace DiceTray

variable {σ : Type} {R : Roller σ} {s s' : σ} {sides : List UInt32}

/-! ## Sides that leave no choice -/

theorem length_le_outcomeSum (pos : ∀ n ∈ sides, 0 < n) : sides.length ≤ outcomeSum sides := by
  induction sides with
  | nil => simp
  | cons n sides ih =>
      obtain ⟨hn, hsides⟩ := List.forall_mem_cons.mp pos
      have hn : 0 < n.toNat := UInt32.lt_iff_toNat_lt.mp hn
      have := ih hsides
      rw [List.length_cons, outcomeSum_cons]
      omega

/-- The highest sides come to no more than the number of dice only where each of
them is 1. -/
theorem outcomeSum_eq_length_iff (pos : ∀ n ∈ sides, 0 < n) :
    outcomeSum sides = sides.length ↔ ∀ n ∈ sides, n = 1 := by
  constructor
  · intro h
    induction sides with
    | nil => simp
    | cons n sides ih =>
        obtain ⟨hn, hsides⟩ := List.forall_mem_cons.mp pos
        have hn : 0 < n.toNat := UInt32.lt_iff_toNat_lt.mp hn
        have hle := length_le_outcomeSum hsides
        rw [outcomeSum_cons, List.length_cons] at h
        have hone : n = 1 := UInt32.toNat_inj.mp (by rw [UInt32.toNat_one]; omega)
        exact List.forall_mem_cons.mpr ⟨hone, ih hsides (by omega)⟩
  · intro h
    rw [List.eq_replicate_of_mem h, outcomeSum_replicate_one, List.length_replicate]

namespace Expr

/-- No set of dice is empty, so each of them shows among the sides. -/
theorem isDeterministic_iff_sides {e : Expr} :
    e.isDeterministic = true ↔ ∀ n ∈ sidesOf e.leaves, n = 1 := by
  rw [isDeterministic_eq_all, List.all_eq_true]
  constructor
  · intro h n hn
    obtain ⟨d, hd, hn⟩ := List.mem_flatMap.mp hn
    rw [List.eq_of_mem_replicate hn]
    exact beq_iff_eq.mp (h d hd)
  · intro h d hd
    have hcount : d.count.toNat ≠ 0 := Nat.ne_of_gt (UInt32.lt_iff_toNat_lt.mp d.count_pos)
    have hmem : d.sides ∈ d.sidesOfEach := List.mem_replicate.mpr ⟨hcount, rfl⟩
    exact beq_iff_eq.mpr (h _ (List.mem_flatMap.mpr ⟨d, hd, hmem⟩))

/-- A deterministic expression comes to its modifiers and one for each die. -/
theorem total_of_isDeterministic {e : Expr} {r : Rolled} (hR : R.Proper)
    (hdet : e.isDeterministic = true) (h : (e.eval R).run s = .ok r s') :
    r.total.toInt = modifierSum e.leaves + (sidesOf e.leaves).length := by
  have pos : ∀ n ∈ sidesOf e.leaves, 0 < n := fun _ => pos_of_mem_sidesOf
  have hsides := (outcomeSum_eq_length_iff pos).mpr (isDeterministic_iff_sides.mp hdet)
  obtain ⟨lo, hi⟩ := outcomeSum_between ((draws_of_run_eval h).forall₂_side hR pos)
  rw [(exact_of_run_eval h).total]
  omega

/-- Where ones and highest sides come to the same total, no die has more than one
side. -/
theorem isDeterministic_of_total_eq {e : Expr} {low high : Rolled}
    (hlow : (e.eval (.constant 1)).run () = .ok low ())
    (hhigh : (e.eval .highest).run () = .ok high ()) (h : low.total = high.total) :
    e.isDeterministic = true := by
  have hones := (draws_of_run_eval hlow).eq_of_constant
  have hsides := (draws_of_run_eval hhigh).eq_of_highest
  have hsum : outcomeSum low.outcomes = outcomeSum high.outcomes := by
    have htotal := congrArg Int64.toInt h
    rw [(exact_of_run_eval hlow).total, (exact_of_run_eval hhigh).total] at htotal
    omega
  rw [hones, hsides, outcomeSum_replicate_one] at hsum
  exact isDeterministic_iff_sides.mpr
    ((outcomeSum_eq_length_iff fun _ => pos_of_mem_sidesOf).mp hsum.symm)

/-- **Determinism is what it is called.** An expression of moderate size is
deterministic exactly when any two proper rollers, in whatever states, come to
the same total with it. For this it is enough that the rollers of ones and of
highest sides do. -/
theorem isDeterministic_iff_total_eq {e : Expr} (small : e.leaves.length ≤ 200000)
    (hcount : ∀ d ∈ e.leaves, d.count ≤ Dice.maxCount) :
    (e.isDeterministic = true ↔
      ∀ {σ τ : Type} {R : Roller σ} {Q : Roller τ}, R.Proper → Q.Proper →
        ∀ (s : σ) (t : τ), ∃ r s' q t', (e.eval R).run s = .ok r s' ∧
          (e.eval Q).run t = .ok q t' ∧ r.total = q.total) ∧
    (e.isDeterministic = true ↔
      ∃ low high, (e.eval (.constant 1)).run () = .ok low () ∧
        (e.eval .highest).run () = .ok high () ∧ low.total = high.total) := by
  have same (hdet : e.isDeterministic = true) {σ τ : Type} {R : Roller σ} {Q : Roller τ}
      (hR : R.Proper) (hQ : Q.Proper) (s : σ) (t : τ) :
      ∃ r s' q t', (e.eval R).run s = .ok r s' ∧ (e.eval Q).run t = .ok q t' ∧
        r.total = q.total := by
    obtain ⟨r, s', hr⟩ := exists_run_eval hR.serves small hcount s
    obtain ⟨q, t', hq⟩ := exists_run_eval hQ.serves small hcount t
    have htotal := (total_of_isDeterministic hR hdet hr).trans
      (total_of_isDeterministic hQ hdet hq).symm
    exact ⟨r, s', q, t', hr, hq, Int64.toInt_inj.mp htotal⟩
  refine ⟨⟨fun hdet => same hdet, fun h => ?_⟩, fun hdet => ?_, ?_⟩
  · obtain ⟨low, _, high, _, hlow, hhigh, htotal⟩ :=
      h Roller.proper_constant_one Roller.proper_highest () ()
    exact isDeterministic_of_total_eq hlow hhigh htotal
  · obtain ⟨low, _, high, _, hlow, hhigh, htotal⟩ :=
      same hdet Roller.proper_constant_one Roller.proper_highest () ()
    exact ⟨low, high, hlow, hhigh, htotal⟩
  · rintro ⟨low, high, hlow, hhigh, htotal⟩
    exact isDeterministic_of_total_eq hlow hhigh htotal

/-- Three dice of one side and a die of two, with modifiers that add up to
nothing: not deterministic. The dice of one side alone are. -/
theorem isDeterministic_iff_total_eq_flip :
    ∃ flat flip : Expr, flat = dice ⟨3, 1, -2, by decide, by decide⟩ ∧
      flip = both flat (dice ⟨1, 2, 2, by decide, by decide⟩) ∧
      (∀ d ∈ flip.leaves, d.count ≤ Dice.maxCount) ∧ flip.leaves.length ≤ 200000 ∧
      (∀ s : UInt64, ∃ r s', (flat.eval .seeded).run s = .ok r s' ∧ r.total = 1) ∧
      ¬ ∃ low high, (flip.eval (.constant 1)).run () = .ok low () ∧
        (flip.eval .highest).run () = .ok high () ∧ low.total = high.total := by
  let flat : Expr := dice ⟨3, 1, -2, by decide, by decide⟩
  let flip : Expr := both flat (dice ⟨1, 2, 2, by decide, by decide⟩)
  have hcount : ∀ d ∈ flip.leaves, d.count ≤ Dice.maxCount := by decide
  have small : flip.leaves.length ≤ 200000 := by decide
  obtain ⟨hall, -⟩ := isDeterministic_iff_total_eq (e := flat) (by decide) (by decide)
  obtain ⟨-, hflip⟩ := isDeterministic_iff_total_eq small hcount
  refine ⟨flat, flip, rfl, rfl, hcount, small, fun s => ?_, fun h => ?_⟩
  · obtain ⟨r, s', q, _, hr, hq, htotal⟩ :=
      hall.mp rfl Roller.proper_seeded Roller.proper_highest s ()
    have hhigh : (flat.eval .highest).run () = .ok ⟨[1, 1, 1], -2, 1⟩ () := rfl
    cases hq.symm.trans hhigh
    exact ⟨r, s', hr, htotal⟩
  · exact Bool.false_ne_true (hflip.mpr h)

end Expr

end DiceTray
