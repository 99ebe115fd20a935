import DiceTray.Proofs.Local

/-!
# What is read is paid for

A reader that succeeds has taken a part of its text, and for what it has read the
part cannot be too short: a term has its letter and its sides, and each further
term of a chain its `&` besides (`Takes`). So a text bounds the number of terms
that are read from it, and with the limits of the grammar also what a clause can
come to: at most so many copies of a tree with at most so many leaves, which is
no deeper than it has leaves.
-/

namespace DiceTray

open Text Written

namespace Expr

/-- The number of nodes on the longest way from the root to a leaf. -/
def depth : Expr → Nat
  | .dice _ => 1
  | .both left right => max left.depth right.depth + 1

/-- Every joint has leaves on both sides. -/
theorem depth_le_length_leaves (e : Expr) : e.depth ≤ e.leaves.length := by
  induction e with
  | dice d => exact Nat.le_refl 1
  | both left right ihl ihr =>
      have hleft := List.length_pos_iff.mpr left.leaves_ne_nil
      have hright := List.length_pos_iff.mpr right.leaves_ne_nil
      rw [depth, leaves, List.length_append]
      omega

end Expr

namespace Reader

variable {α β : Type} {text rest : List Char}

/-- A reader that succeeds has taken so many bytes at least for what it has read. -/
def Takes (bytes : α → Nat) (p : Reader α) : Prop :=
  ∀ text a rest, p text = .ok a rest → byteLength rest + bytes a ≤ byteLength text

/-! ## Steps -/

section Steps

variable {bytes : α → Nat} {bytes' : β → Nat}

theorem Trailing.takes {p : Reader α} (hp : p.Trailing) : Takes (fun _ => 0) p := by
  intro text a rest h
  have hsuffix := hp text
  rw [h] at hsuffix
  exact byteLength_le_of_suffix hsuffix

theorem takes_pure {a : α} (h : bytes a = 0) : Takes bytes (pure a) := by
  rintro text _ rest ⟨⟩
  rw [h]
  exact Nat.le_refl _

theorem takes_fail (kind : ParseError.Kind) (start : List Char) :
    Takes bytes (do throw ⟨kind, start, ← get⟩) := by
  intro text a rest h
  cases h

theorem takes_expected (what : String) : Takes bytes (expected what) := by
  intro text a rest h
  cases h

/-- The second step has to take what the first one has left to be taken. -/
theorem Takes.bind {p : Reader α} {f : α → Reader β} (hp : Takes bytes p)
    (hf : ∀ a, Takes (fun b => bytes' b - bytes a) (f a)) : Takes bytes' (p >>= f) := by
  intro text b rest h
  obtain ⟨a, mid, hpa, hfb⟩ := bind_eq_ok_iff.mp h
  have hfirst := hp text a mid hpa
  have hsecond := hf a mid b rest hfb
  dsimp only at hsecond
  omega

end Steps

/-! ## Words -/

theorem takes_literal (c : Char) :
    Takes (fun found => if found then 1 else 0) (literal [c]) := by
  rintro text (_ | _) rest h
  · exact (trailing_literal [c]).takes text false rest h
  · have hlength := congrArg byteLength (literal_eq_true_iff.mp h)
    have hdrop := byteLength_le_of_suffix (dropBlank_suffix text)
    have hsize := c.utf8Size_pos
    rw [byteLength_cons] at hlength
    dsimp only
    rw [if_pos rfl]
    omega

theorem takes_number : Takes (fun found => if found.isSome then 1 else 0) number := by
  rintro text (_ | n) rest h
  · exact trailing_number.takes text none rest h
  · obtain ⟨digits, hword, run, -⟩ := number_eq_some_iff.mp h
    have hlength := congrArg byteLength hword
    have hdrop := byteLength_le_of_suffix (dropBlank_suffix text)
    have hdigits := List.length_pos_iff.mpr run.ne_nil
    have hsize := length_le_byteLength digits
    rw [byteLength_append] at hlength
    dsimp only
    rw [Option.isSome_some, if_pos rfl]
    omega

theorem takes_require (c : Char) (what : String) :
    Takes (fun _ => 1) (require [c] what) := by
  refine (takes_literal c).bind fun found => ?_
  cases found with
  | true => exact takes_pure rfl
  | false => exact takes_expected what

/-! ## Terms and chains -/

theorem takes_afterLetter (start : List Char) (count : UInt32) :
    Takes (fun _ => 1) (afterLetter start count) := by
  refine takes_number.bind fun sides => ?_
  cases sides with
  | none => exact takes_expected _
  | some sides =>
      refine trailing_integer.takes.bind fun modifier => ?_
      cases Dice.Request.check ⟨count, sides, modifier.getD 0⟩ with
      | ok dice => exact takes_pure rfl
      | error error => exact takes_fail _ _

/-- A term has a letter and a digit. -/
theorem takes_term : Takes (fun _ => 2) term :=
  trailing_here.takes.bind fun start => trailing_number.takes.bind fun _ =>
    (takes_require 'd' _).bind fun _ => takes_afterLetter start _

/-- Each further term has an `&` in front. -/
theorem takes_moreTerms (start : List Char) (room : Nat) :
    Takes (fun ds => 3 * ds.length) (moreTerms start room) := by
  induction room with
  | zero =>
      rw [moreTerms]
      refine (takes_literal '&').bind fun found => ?_
      cases found with
      | true => exact takes_fail _ _
      | false => exact takes_pure rfl
  | succ room ih =>
      rw [moreTerms]
      refine (takes_literal '&').bind fun found => ?_
      cases found with
      | true =>
          refine takes_term.bind fun d => ih.bind fun ds => takes_pure ?_
          rw [List.length_cons, if_pos rfl]
          omega
      | false => exact takes_pure rfl

theorem length_le_of_moreTerms {start : List Char} {room : Nat} {ds : List Dice}
    (h : moreTerms start room text = .ok ds rest) : ds.length ≤ room := by
  induction room generalizing text ds with
  | zero =>
      rw [moreTerms] at h
      obtain ⟨_ | _, mid, -, h⟩ := bind_eq_ok_iff.mp h
      · cases h
        exact Nat.le_refl 0
      · cases h
  | succ room ih =>
      rw [moreTerms] at h
      obtain ⟨_ | _, mid, -, h⟩ := bind_eq_ok_iff.mp h
      · cases h
        exact Nat.zero_le _
      · obtain ⟨d, mid', -, h⟩ := bind_eq_ok_iff.mp h
        obtain ⟨more, mid'', hmore, h⟩ := bind_eq_ok_iff.mp h
        cases h
        exact Nat.succ_le_succ (ih hmore)

theorem takes_chain : Takes (fun e => 3 * e.leaves.length - 1) chain := by
  refine trailing_get.takes.bind fun start => takes_term.bind fun first =>
    (takes_moreTerms start _).bind fun more => takes_pure ?_
  rw [Expr.leaves_chain, List.length_cons]
  omega

theorem length_leaves_le_of_chain {e : Expr} (h : chain text = .ok e rest) :
    e.leaves.length ≤ maxTerms := by
  obtain ⟨start, mid, -, h⟩ := bind_eq_ok_iff.mp h
  obtain ⟨first, mid', -, h⟩ := bind_eq_ok_iff.mp h
  obtain ⟨more, mid'', hmore, h⟩ := bind_eq_ok_iff.mp h
  cases h
  have hlength := length_le_of_moreTerms hmore
  rw [Expr.leaves_chain, List.length_cons]
  exact Nat.succ_le_succ hlength

/-! ## Clauses -/

theorem le_of_repeats {n : Nat} (h : repeats text = .ok n rest) : n ≤ maxRepeats := by
  obtain ⟨start, mid, -, h⟩ := bind_eq_ok_iff.mp h
  obtain ⟨_ | count, mid', -, h⟩ := bind_eq_ok_iff.mp h
  · cases h
    decide
  · dsimp only at h
    split at h
    · cases h
    · rename_i hle
      cases h
      exact Nat.not_lt.mp hle

/-- A clause comes to copies of one expression, which it has paid for once. -/
theorem exists_replicate_of_clause {es : List Expr} (h : clause text = .ok es rest) :
    ∃ copies e, es = List.replicate copies e ∧ copies ≤ maxRepeats ∧
      e.leaves.length ≤ maxTerms ∧
      byteLength rest + (3 * e.leaves.length - 1) ≤ byteLength text := by
  obtain ⟨copies, mid, hcopies, h⟩ := bind_eq_ok_iff.mp h
  obtain ⟨e, mid', he, h⟩ := bind_eq_ok_iff.mp h
  cases h
  have hfirst : byteLength mid ≤ byteLength text := trailing_repeats.takes _ _ _ hcopies
  exact ⟨copies, e, rfl, le_of_repeats hcopies, length_leaves_le_of_chain he,
    Nat.le_trans (takes_chain _ _ _ he) hfirst⟩

theorem takes_clause : Takes (fun _ => 2) clause := by
  intro text es rest h
  obtain ⟨-, e, -, -, -, hbytes⟩ := exists_replicate_of_clause h
  have := List.length_pos_iff.mpr e.leaves_ne_nil
  dsimp only
  omega

end Reader

end DiceTray
