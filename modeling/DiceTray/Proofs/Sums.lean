import DiceTray.Rolled
import Mathlib.Algebra.Order.Ring.Int

/-!
# Sums of results

What totals and merges are, in integers without bounds. A sum that fits is the
exact one, and whether it fits is all that can go wrong.
-/

namespace DiceTray

variable {d : Dice} {outcomes : List UInt32}

/-- The sum of outcomes, without bounds. -/
def outcomeSum (outcomes : List UInt32) : Nat :=
  (outcomes.map UInt32.toNat).sum

@[simp] theorem outcomeSum_append (front back : List UInt32) :
    outcomeSum (front ++ back) = outcomeSum front + outcomeSum back := by
  simp [outcomeSum]

theorem outcomeSum_le (outcomes : List UInt32) :
    outcomeSum outcomes ≤ outcomes.length * (2 ^ 32 - 1) := by
  unfold outcomeSum
  induction outcomes with
  | nil => simp
  | cons outcome outcomes ih =>
      have := outcome.toNat_lt
      rw [List.map_cons, List.sum_cons, List.length_cons, Nat.add_mul]
      omega

namespace Rolled

/-- A result is known by its outcomes and by the integers of its sums. -/
theorem eq_of_toInt_eq {r r' : Rolled} (outcomes : r.outcomes = r'.outcomes)
    (modifier : r.modifier.toInt = r'.modifier.toInt)
    (total : r.total.toInt = r'.total.toInt) : r = r' := by
  obtain ⟨_, _, _⟩ := r
  obtain ⟨_, _, _⟩ := r'
  cases outcomes
  cases Int64.toInt_inj.mp modifier
  cases Int64.toInt_inj.mp total
  rfl

/-- Outcomes are never negative, so a running total that leaves the range does
not come back: adding one by one fails exactly when the whole sum is out of
range, and gives that sum otherwise. -/
theorem addOutcomes_eq (total : Int64) (outcomes : List UInt32) :
    addOutcomes total outcomes = Width.signed64 (total.toInt + outcomeSum outcomes) := by
  unfold outcomeSum
  induction outcomes generalizing total with
  | nil => simp [addOutcomes]
  | cons outcome outcomes ih =>
      have step : addOutcomes total (outcome :: outcomes) =
          (Width.signed64 (total.toInt + outcome.toNat)).bind
            (addOutcomes · outcomes) := rfl
      rw [step]
      cases h : Width.signed64 (total.toInt + outcome.toNat) with
      | none =>
          rw [Width.signed64_eq_none_iff] at h
          have lo := total.le_toInt
          rw [Option.bind_none, eq_comm, Width.signed64_eq_none_iff]
          simp only [List.map_cons, List.sum_cons, Int.natCast_add]
          omega
      | some sum =>
          rw [Width.signed64_eq_some_iff] at h
          rw [Option.bind_some, ih, h]
          simp only [List.map_cons, List.sum_cons, Int.natCast_add, Int.add_assoc]

theorem ofOutcomes_eq_ok_iff {r : Rolled} :
    ofOutcomes d outcomes = .ok r ↔
      r.outcomes = outcomes ∧ r.modifier.toInt = d.modifier.toInt ∧
        r.total.toInt = d.modifier.toInt + outcomeSum outcomes := by
  have hadd : addOutcomes d.modifier.toInt64 outcomes =
      Width.signed64 (d.modifier.toInt + outcomeSum outcomes) := by
    rw [addOutcomes_eq, Int32.toInt_toInt64]
  unfold ofOutcomes
  dsimp only
  rw [hadd]
  cases hsum : Width.signed64 (d.modifier.toInt + outcomeSum outcomes) with
  | none =>
      rw [Width.signed64_eq_none_iff] at hsum
      have := r.total.le_toInt
      have := r.total.toInt_lt
      simp only [reduceCtorEq, false_iff]
      omega
  | some total =>
      rw [Width.signed64_eq_some_iff] at hsum
      constructor
      · rintro ⟨⟩
        exact ⟨rfl, Int32.toInt_toInt64 _, hsum⟩
      · rintro ⟨houtcomes, hmodifier, htotal⟩
        apply congrArg Except.ok
        apply eq_of_toInt_eq houtcomes.symm
        · rw [Int32.toInt_toInt64, hmodifier]
        · rw [htotal, hsum]

theorem merge_eq_some_iff {a b r : Rolled} :
    a.merge b = some r ↔
      r.outcomes = a.outcomes ++ b.outcomes ∧
        r.modifier.toInt = a.modifier.toInt + b.modifier.toInt ∧
        r.total.toInt = a.total.toInt + b.total.toInt := by
  unfold merge
  simp only [Option.bind_eq_bind, Option.bind_eq_some_iff,
    Width.signed64_eq_some_iff, Option.pure_def, Option.some.injEq]
  constructor
  · rintro ⟨total, htotal, modifier, hmodifier, rfl⟩
    exact ⟨rfl, hmodifier, htotal⟩
  · rintro ⟨houtcomes, hmodifier, htotal⟩
    exact ⟨r.total, htotal, r.modifier, hmodifier,
      eq_of_toInt_eq houtcomes.symm rfl rfl⟩

/-- A sum that is in range has a result. -/
theorem exists_ofOutcomes
    (hi : d.modifier.toInt + outcomeSum outcomes < 2 ^ 63) :
    ∃ r, ofOutcomes d outcomes = .ok r := by
  have lo := d.modifier.le_toInt
  obtain ⟨total, htotal⟩ : ∃ total : Int64,
      total.toInt = d.modifier.toInt + outcomeSum outcomes :=
    ⟨_, Int64.toInt_ofInt_of_le (by omega) hi⟩
  exact ⟨⟨outcomes, d.modifier.toInt64, total⟩,
    ofOutcomes_eq_ok_iff.mpr ⟨rfl, Int32.toInt_toInt64 _, htotal⟩⟩

theorem exists_merge {a b : Rolled}
    (total : -2 ^ 63 ≤ a.total.toInt + b.total.toInt ∧
      a.total.toInt + b.total.toInt < 2 ^ 63)
    (modifier : -2 ^ 63 ≤ a.modifier.toInt + b.modifier.toInt ∧
      a.modifier.toInt + b.modifier.toInt < 2 ^ 63) :
    ∃ r, a.merge b = some r :=
  ⟨⟨a.outcomes ++ b.outcomes, .ofInt _, .ofInt _⟩,
    merge_eq_some_iff.mpr ⟨rfl, Int64.toInt_ofInt_of_le modifier.1 modifier.2,
      Int64.toInt_ofInt_of_le total.1 total.2⟩⟩

end Rolled

end DiceTray
