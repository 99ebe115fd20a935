import DiceTray.Roller

/-!
# The seeded roller

Pseudo-random outcomes from a 64-bit state. Each step adds an odd constant to the state, multiplies
the new state with a scrambled copy of itself, and folds the 128-bit product onto 32 bits. A word
`r` becomes the face `1 + r * n / 2 ^ 32` of a die with `n` sides. The 2^32 words do not divide
evenly among the faces, so the words with the `2 ^ 32 mod n` lowest remainders of `r * n` are
refused and the next word is tried, which leaves each face equally many.

Adding an odd constant leads through all 2^64 states before it comes back to the first. A search
that has refused a word in each of them would go on refusing, so that many tries are enough.
-/

namespace DiceTray.Roller

namespace Seeded

/-- The next word of the stream and the state after it. -/
def next (state : UInt64) : UInt32 × UInt64 :=
  let state := state + 0x2d358dccaa6c78a5
  let product := state.toNat * (state ^^^ 0x8bb84b93962eacc9).toNat
  (((UInt64.ofNat product) ^^^ (UInt64.ofNat (product / UInt64.size))).toUInt32, state)

/-- The face of the first word that is not refused, within a number of tries. -/
def search (sides : Nat) : Nat → UInt64 → Option (UInt32 × UInt64)
  | 0, _ => none
  | tries + 1, state =>
    let (word, state) := next state
    let product := word.toNat * sides
    if product % UInt32.size < UInt32.size % sides then
      search sides tries state
    else
      some (UInt32.ofNat (1 + product / UInt32.size), state)

end Seeded

/-- Outcomes of a stream that the seed fixes. The state is the seed at first. -/
def seeded : Roller UInt64 where
  die sides := Seeded.search sides.toNat UInt64.size

end DiceTray.Roller
