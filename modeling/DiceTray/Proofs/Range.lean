import DiceTray.Proofs.Flat
import DiceTray.Proofs.Stream
import Mathlib.Data.List.Forall2

/-!
# Outcomes in range

A proper roller shows sides of the dice it is asked for, and from this one fact
about single dice everything about whole expressions follows. The outcomes of an
expression fall into blocks, one for each leaf, of as many outcomes as the leaf
has dice. The total lies between what it is when every die shows 1 and what it
is when every die shows its highest side, since the modifiers are the same in
all three rolls.
-/

namespace DiceTray

variable {σ : Type} {R : Roller σ} {s s' : σ} {sides outcomes : List UInt32}

/-- Outcomes of some dice: one for each of them, and each of them a side. -/
structure Dice.Shows (d : Dice) (outcomes : List UInt32) : Prop where
  length : outcomes.length = d.count.toNat
  side : ∀ v ∈ outcomes, 1 ≤ v ∧ v ≤ d.sides

/-! ## Draws of a proper roller -/

namespace Draws

theorem forall₂_side (hR : R.Proper) (pos : ∀ n ∈ sides, 0 < n)
    (h : Draws R s sides outcomes s') :
    List.Forall₂ (fun n v => 1 ≤ v ∧ v ≤ n) sides outcomes := by
  induction h with
  | nil => exact .nil
  | @cons s _ _ n _ _ _ hdie _ ih =>
      obtain ⟨hn, hsides⟩ := List.forall_mem_cons.mp pos
      obtain ⟨v, t, hdie', side⟩ := hR n s hn
      rw [hdie] at hdie'
      cases hdie'
      exact .cons side (ih hsides)

theorem exists_side_of_mem (hR : R.Proper) (pos : ∀ n ∈ sides, 0 < n)
    (h : Draws R s sides outcomes s') {v : UInt32} (hv : v ∈ outcomes) :
    ∃ n ∈ sides, 1 ≤ v ∧ v ≤ n := by
  have hsides := h.forall₂_side hR pos
  clear h
  induction hsides with
  | nil => cases hv
  | @cons n _ sides _ side _ ih =>
      rcases List.mem_cons.mp hv with rfl | hv
      · exact ⟨n, List.mem_cons_self, side⟩
      · obtain ⟨m, hm, hside⟩ := ih (fun k hk => pos k (List.mem_cons_of_mem n hk)) hv
        exact ⟨m, List.mem_cons_of_mem n hm, hside⟩

/-- One set of dice is one block. -/
theorem shows {d : Dice} (hR : R.Proper) (h : Draws R s d.sidesOfEach outcomes s') :
    d.Shows outcomes where
  length := by
    rw [h.length_eq, Dice.sidesOfEach, List.length_replicate]
  side v hv := by
    have pos : ∀ n ∈ d.sidesOfEach, 0 < n := fun n hn =>
      List.eq_of_mem_replicate hn ▸ d.sides_pos
    obtain ⟨n, hn, side⟩ := h.exists_side_of_mem hR pos hv
    rwa [List.eq_of_mem_replicate hn] at side

/-- The outcomes of several sets of dice are their blocks in order. -/
theorem exists_blocks {ds : List Dice} (hR : R.Proper)
    (h : Draws R s (sidesOf ds) outcomes s') :
    ∃ blocks, outcomes = blocks.flatten ∧ List.Forall₂ Dice.Shows ds blocks := by
  induction ds generalizing s outcomes with
  | nil =>
      cases h
      exact ⟨[], rfl, .nil⟩
  | cons d ds ih =>
      obtain ⟨front, back, t, rfl, hfront, hback⟩ := h.exists_of_append
      obtain ⟨blocks, rfl, hblocks⟩ := ih hback
      exact ⟨front :: blocks, rfl, .cons (hfront.shows hR) hblocks⟩

/-! ## The lowest and the highest outcomes -/

theorem eq_of_constant {value : UInt32} {s s' : Unit}
    (h : Draws (.constant value) s sides outcomes s') :
    outcomes = List.replicate sides.length value := by
  induction h with
  | nil => rfl
  | cons hdie _ ih =>
      cases hdie
      rw [ih, List.length_cons, List.replicate_succ]

theorem eq_of_highest {s s' : Unit} (h : Draws .highest s sides outcomes s') :
    outcomes = sides := by
  induction h with
  | nil => rfl
  | cons hdie _ ih =>
      cases hdie
      rw [ih]

end Draws

theorem outcomeSum_cons (v : UInt32) (outcomes : List UInt32) :
    outcomeSum (v :: outcomes) = v.toNat + outcomeSum outcomes := by
  simp [outcomeSum]

theorem outcomeSum_replicate_one (n : Nat) : outcomeSum (List.replicate n 1) = n := by
  simp [outcomeSum]

/-- Sums of sides lie between the number of dice and the sum of the highest. -/
theorem outcomeSum_between
    (h : List.Forall₂ (fun n v => 1 ≤ v ∧ v ≤ n) sides outcomes) :
    sides.length ≤ outcomeSum outcomes ∧ outcomeSum outcomes ≤ outcomeSum sides := by
  induction h with
  | nil => simp [outcomeSum]
  | @cons n v _ _ side _ ih =>
      have lo : 1 ≤ v.toNat := UInt32.le_iff_toNat_le.mp side.1
      have hi : v.toNat ≤ n.toNat := UInt32.le_iff_toNat_le.mp side.2
      rw [List.length_cons, outcomeSum_cons, outcomeSum_cons]
      omega

namespace Roller

theorem proper_highest : highest.Proper := fun n s pos =>
  ⟨n, s, rfl, UInt32.le_iff_toNat_le.mpr (UInt32.lt_iff_toNat_lt.mp pos), UInt32.le_refl n⟩

theorem proper_constant_one : (constant 1).Proper := fun _ s pos =>
  ⟨1, s, rfl, UInt32.le_refl 1, UInt32.le_iff_toNat_le.mpr (UInt32.lt_iff_toNat_lt.mp pos)⟩

end Roller

namespace Expr

/-- Totals of one expression compare as the sums of the outcomes do. -/
theorem total_le_total {τ : Type} {Q : Roller τ} {t t' : τ} {e : Expr} {r q : Rolled}
    (hr : (e.eval R).run s = .ok r s') (hq : (e.eval Q).run t = .ok q t')
    (h : outcomeSum r.outcomes ≤ outcomeSum q.outcomes) : r.total ≤ q.total := by
  rw [Int64.le_iff_toInt_le, (exact_of_run_eval hr).total, (exact_of_run_eval hq).total]
  omega

/-- **Outcomes are in range and totals between their bounds.** With a roller that
shows sides of its dice, among them the one that always shows the highest and
the seeded one, an expression of moderate size has a result. The outcomes are
one block for each leaf, and the total is neither below that of ones nor above
that of highest sides. -/
theorem eval_between :
    Roller.highest.Proper ∧ Roller.seeded.Proper ∧
      ∀ {σ : Type} {R : Roller σ}, R.Proper → ∀ e : Expr, e.leaves.length ≤ 200000 →
        (∀ d ∈ e.leaves, d.count ≤ Dice.maxCount) → ∀ s : σ,
          ∃ r s' low high, (e.eval R).run s = .ok r s' ∧
            (e.eval (.constant 1)).run () = .ok low () ∧
            (e.eval .highest).run () = .ok high () ∧
            (∃ blocks, r.outcomes = blocks.flatten ∧
              List.Forall₂ Dice.Shows e.leaves blocks) ∧
            low.total ≤ r.total ∧ r.total ≤ high.total := by
  refine ⟨Roller.proper_highest, Roller.proper_seeded, ?_⟩
  intro σ R hR e small hcount s
  obtain ⟨r, s', hr⟩ := exists_run_eval hR.serves small hcount s
  obtain ⟨low, _, hlow⟩ := exists_run_eval Roller.proper_constant_one.serves small hcount ()
  obtain ⟨high, _, hhigh⟩ := exists_run_eval Roller.proper_highest.serves small hcount ()
  have hdraws := draws_of_run_eval hr
  have hones := (draws_of_run_eval hlow).eq_of_constant
  have hsides := (draws_of_run_eval hhigh).eq_of_highest
  obtain ⟨lo, hi⟩ := outcomeSum_between (hdraws.forall₂_side hR fun _ => pos_of_mem_sidesOf)
  refine ⟨r, s', low, high, hr, hlow, hhigh, hdraws.exists_blocks hR, ?_, ?_⟩
  · apply total_le_total hlow hr
    rwa [hones, outcomeSum_replicate_one]
  · apply total_le_total hr hhigh
    rwa [hsides]

/-- Two dice of six sides with one added, and one of twenty sides, with a seed. -/
theorem eval_between_seeded :
    ∃ e : Expr, e = both (dice ⟨2, 6, 1, by decide, by decide⟩) default ∧
      Roller.seeded.Proper ∧ e.leaves.length ≤ 200000 ∧
      (∀ d ∈ e.leaves, d.count ≤ Dice.maxCount) ∧
      ∃ r s', (e.eval .seeded).run 0x750c38d574400 = .ok r s' ∧
        (∃ blocks, r.outcomes = blocks.flatten ∧ List.Forall₂ Dice.Shows e.leaves blocks) ∧
        4 ≤ r.total ∧ r.total ≤ 33 := by
  obtain ⟨-, hseeded, h⟩ := eval_between
  let e : Expr := both (dice ⟨2, 6, 1, by decide, by decide⟩) default
  have small : e.leaves.length ≤ 200000 := by decide
  have hcount : ∀ d ∈ e.leaves, d.count ≤ Dice.maxCount := by decide
  obtain ⟨r, s', low, high, hr, hlow, hhigh, hblocks, lo, hi⟩ :=
    h hseeded e small hcount 0x750c38d574400
  have hones : (e.eval (.constant 1)).run () = .ok ⟨[1, 1, 1], 1, 4⟩ () := rfl
  have hsides : (e.eval .highest).run () = .ok ⟨[6, 6, 20], 1, 33⟩ () := rfl
  cases hlow.symm.trans hones
  cases hhigh.symm.trans hsides
  exact ⟨e, rfl, hseeded, small, hcount, r, s', hr, hblocks, lo, hi⟩

end Expr

end DiceTray
