/-!
# Fixed widths

A number is read or added up without bounds first and then fitted into the width it is kept in.
Each fit answers with a value exactly when the number is in range, and that value denotes the
number itself: nothing wraps and nothing is clamped.
-/

namespace DiceTray.Width

/-! ## Unsigned, 32 bits -/

/-- The 32-bit unsigned value of a number below 2^32. -/
def unsigned32 (n : Nat) : Option UInt32 :=
  if h : n < UInt32.size then some (UInt32.ofNatLT n h) else none

theorem unsigned32_eq_some_iff {n : Nat} {v : UInt32} :
    unsigned32 n = some v ↔ v.toNat = n := by
  unfold unsigned32
  split
  · rw [Option.some.injEq, ← UInt32.toNat_inj, UInt32.toNat_ofNatLT]
    exact eq_comm
  · rename_i h
    have := v.toNat_lt_size
    simp only [reduceCtorEq, false_iff]
    omega

theorem unsigned32_eq_none_iff {n : Nat} : unsigned32 n = none ↔ 0x100000000 ≤ n := by
  unfold unsigned32
  split <;> rename_i h <;> simp only [UInt32.size] at h <;> simp only [reduceCtorEq, false_iff,
    true_iff] <;> omega

@[simp] theorem unsigned32_toNat (v : UInt32) : unsigned32 v.toNat = some v :=
  unsigned32_eq_some_iff.2 rfl

/-! ## Signed, 32 bits -/

/-- The 32-bit signed value of an integer from -2^31 up to 2^31 - 1. -/
def signed32 (n : Int) : Option Int32 :=
  if -0x80000000 ≤ n ∧ n < 0x80000000 then some (Int32.ofInt n) else none

theorem signed32_eq_some_iff {n : Int} {v : Int32} : signed32 n = some v ↔ v.toInt = n := by
  have lo := v.le_toInt
  have hi := v.toInt_lt
  unfold signed32
  split
  · rename_i h
    rw [Option.some.injEq, ← Int32.toInt_inj, Int32.toInt_ofInt_of_le h.1 h.2]
    exact eq_comm
  · simp only [reduceCtorEq, false_iff]
    omega

theorem signed32_eq_none_iff {n : Int} :
    signed32 n = none ↔ n < -0x80000000 ∨ 0x80000000 ≤ n := by
  unfold signed32
  split <;> simp only [reduceCtorEq, false_iff, true_iff] <;> omega

/-! ## Signed, 64 bits -/

/-- The 64-bit signed value of an integer from -2^63 up to 2^63 - 1. -/
def signed64 (n : Int) : Option Int64 :=
  if -0x8000000000000000 ≤ n ∧ n < 0x8000000000000000 then some (Int64.ofInt n) else none

theorem signed64_eq_some_iff {n : Int} {v : Int64} : signed64 n = some v ↔ v.toInt = n := by
  have lo := v.le_toInt
  have hi := v.toInt_lt
  unfold signed64
  split
  · rename_i h
    rw [Option.some.injEq, ← Int64.toInt_inj, Int64.toInt_ofInt_of_le h.1 h.2]
    exact eq_comm
  · simp only [reduceCtorEq, false_iff]
    omega

theorem signed64_eq_none_iff {n : Int} :
    signed64 n = none ↔ n < -0x8000000000000000 ∨ 0x8000000000000000 ≤ n := by
  unfold signed64
  split <;> simp only [reduceCtorEq, false_iff, true_iff] <;> omega

@[simp] theorem signed64_toInt (v : Int64) : signed64 v.toInt = some v :=
  signed64_eq_some_iff.2 rfl

end DiceTray.Width
