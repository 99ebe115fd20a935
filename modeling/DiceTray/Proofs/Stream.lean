import DiceTray.Proofs.Draws
import DiceTray.Roller.Seeded
import Mathlib.Logic.Function.Iterate

/-!
# The stream of the seeded roller

The seeded roller shows a side of every die, from every seed. That a face is
within its die is arithmetic: a word below `2 ^ 32` times the sides, divided by
`2 ^ 32`, stays below the sides. That there is a face at all is more, since
words are refused until one fits.

The word 1 is refused for no die, because the remainders that are refused are
smaller than the sides. One state gives this word, and the stream leads there
from every seed: its step adds an odd constant, and what an odd constant is
multiplied with to reach a certain distance is found with its inverse modulo
`2 ^ 64`.
-/

namespace DiceTray.Roller

namespace Seeded

variable {sides tries : Nat} {state state' : UInt64} {outcome : UInt32}

/-- The state after so many words. -/
def after (words : Nat) (state : UInt64) : UInt64 :=
  (fun s => (next s).2)^[words] state

theorem after_succ (words : Nat) (state : UInt64) :
    after (words + 1) state = after words (next state).2 :=
  Function.iterate_succ_apply _ _ _

theorem after_eq (words : Nat) (state : UInt64) :
    after words state = state + UInt64.ofNat words * 0x2d358dccaa6c78a5 := by
  induction words generalizing state with
  | zero => simp [after]
  | succ words ih =>
      have hstep : (next state).2 = state + 0x2d358dccaa6c78a5 := rfl
      rw [after_succ, ih, hstep, UInt64.ofNat_add]
      grind

/-- The stream comes to every state. -/
theorem exists_after_eq (state target : UInt64) :
    ∃ words < UInt64.size, after words state = target := by
  have hinverse : (0x32e25c49d2beaf2d : UInt64) * 0x2d358dccaa6c78a5 = 1 := by decide
  refine ⟨((target - state) * 0x32e25c49d2beaf2d).toNat, UInt64.toNat_lt_size _, ?_⟩
  rw [after_eq, UInt64.ofNat_toNat, UInt64.mul_assoc, hinverse]
  grind

/-- Whether a word is refused for a die of so many sides. -/
def Refused (sides : Nat) (word : UInt32) : Prop :=
  word.toNat * sides % UInt32.size < UInt32.size % sides

instance : Decidable (Refused sides word) := inferInstanceAs (Decidable (_ < _))

theorem search_succ (sides tries : Nat) (state : UInt64) :
    search sides (tries + 1) state =
      if Refused sides (next state).1 then search sides tries (next state).2
      else some (UInt32.ofNat (1 + (next state).1.toNat * sides / UInt32.size),
        (next state).2) := rfl

/-- The remainders that are refused are below the sides. -/
theorem not_refused_one (pos : 0 < sides) (small : sides < UInt32.size) :
    ¬ Refused sides 1 := by
  unfold Refused
  rw [UInt32.toNat_one, Nat.one_mul, Nat.mod_eq_of_lt small]
  exact Nat.not_lt_of_gt (Nat.mod_lt _ pos)

/-- A search ends, at the latest, with a word that is not refused. -/
theorem exists_search {words : Nat} (h : words < tries)
    (fits : ¬ Refused sides (next (after words state)).1) :
    ∃ found, search sides tries state = some found := by
  induction tries generalizing words state with
  | zero => omega
  | succ tries ih =>
      rw [search_succ]
      by_cases hfirst : Refused sides (next state).1
      · rw [if_pos hfirst]
        cases words with
        | zero => exact absurd hfirst fits
        | succ words => exact ih (by omega) (after_succ words state ▸ fits)
      · rw [if_neg hfirst]
        exact ⟨_, rfl⟩

/-- A word scaled to the sides stays below them, so what is found is a side. -/
theorem side_of_search (pos : 0 < sides) (small : sides < UInt32.size)
    (h : search sides tries state = some (outcome, state')) :
    1 ≤ outcome.toNat ∧ outcome.toNat ≤ sides := by
  induction tries generalizing state with
  | zero => cases h
  | succ tries ih =>
      rw [search_succ] at h
      split at h
      · exact ih h
      · cases h
        have hword := (next state).1.toNat_lt_size
        have hface : (next state).1.toNat * sides / UInt32.size < sides :=
          Nat.div_lt_of_lt_mul (Nat.mul_lt_mul_of_pos_right hword pos)
        generalize (next state).1.toNat * sides / UInt32.size = face at hface ⊢
        rw [UInt32.toNat_ofNat_of_lt' (by omega : 1 + face < UInt32.size)]
        omega

end Seeded

open Seeded

/-- **The seeded roller shows a side of every die**, from every state. -/
theorem proper_seeded : seeded.Proper := by
  intro n s pos
  have hpos : 0 < n.toNat := UInt32.lt_iff_toNat_lt.mp pos
  have hword : (next (0xa1ba1a55 - 0x2d358dccaa6c78a5)).1 = 1 := by decide
  obtain ⟨words, hwords, hafter⟩ := exists_after_eq s (0xa1ba1a55 - 0x2d358dccaa6c78a5)
  have fits : ¬ Refused n.toNat (next (after words s)).1 := by
    rw [hafter, hword]
    exact not_refused_one hpos n.toNat_lt_size
  obtain ⟨⟨outcome, s'⟩, hfound⟩ := exists_search hwords fits
  obtain ⟨lo, hi⟩ := side_of_search hpos n.toNat_lt_size hfound
  exact ⟨outcome, s', hfound, UInt32.le_iff_toNat_le.mpr lo, UInt32.le_iff_toNat_le.mpr hi⟩

end DiceTray.Roller
