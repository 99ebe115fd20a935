import DiceTray.Expr.Eval
import DiceTray.Proofs.Draws
import DiceTray.Proofs.Sums

/-!
# Flat evaluation

The tree of an expression is only a way to write its dice. Evaluating it rolls
the dice in order, as one series of draws, and adds everything up exactly. How
the expression is bracketed decides no outcome and no sum. It can decide only
which sums are formed on the way, and these all fit as long as there are not
more than 200000 dice terms: a set of dice comes to at most
10000 * (2^32 - 1) + 2^31 in size, and 200000 times that is below 2^63.

A successful evaluation is taken apart once for each kind of node
(`run_eval_dice_eq_ok_iff`, `run_eval_both_eq_ok_iff`). Everything else is an
induction on the tree over these two.
-/

namespace DiceTray

variable {σ ε : Type} {R : Roller σ} {s s' s'' : σ}

/-- The sides of every single die of some dice, in the order they are rolled. -/
def sidesOf (ds : List Dice) : List UInt32 :=
  ds.flatMap Dice.sidesOfEach

/-- The sum of modifiers, without bounds. -/
def modifierSum (ds : List Dice) : Int :=
  (ds.map fun d => d.modifier.toInt).sum

@[simp] theorem sidesOf_append (front back : List Dice) :
    sidesOf (front ++ back) = sidesOf front ++ sidesOf back := by
  simp [sidesOf]

@[simp] theorem modifierSum_append (front back : List Dice) :
    modifierSum (front ++ back) = modifierSum front + modifierSum back := by
  simp [modifierSum]

@[simp] theorem sidesOf_singleton (d : Dice) : sidesOf [d] = d.sidesOfEach := by
  simp [sidesOf]

@[simp] theorem modifierSum_singleton (d : Dice) :
    modifierSum [d] = d.modifier.toInt := by
  simp [modifierSum]

theorem length_sidesOf (ds : List Dice) :
    (sidesOf ds).length = (ds.map fun d => d.count.toNat).sum := by
  simp [sidesOf, Dice.sidesOfEach, List.length_flatMap]

/-- Only dice with sides are rolled. -/
theorem pos_of_mem_sidesOf {ds : List Dice} {n : UInt32} (h : n ∈ sidesOf ds) : 0 < n := by
  obtain ⟨d, -, hn⟩ := List.mem_flatMap.mp h
  rw [List.eq_of_mem_replicate hn]
  exact d.sides_pos

/-- Exact sums for some dice. -/
structure Rolled.Exact (ds : List Dice) (r : Rolled) : Prop where
  modifier : r.modifier.toInt = modifierSum ds
  total : r.total.toInt = modifierSum ds + outcomeSum r.outcomes

/-! ## One node -/

theorem Roller.run_roll_eq_ok_iff {d : Dice} {r : Rolled} :
    (R.roll d).run s = .ok r s' ↔
      d.count ≤ Dice.maxCount ∧ ∃ outcomes, Draws R s d.sidesOfEach outcomes s' ∧
        Rolled.ofOutcomes d outcomes = .ok r := by
  unfold Roller.roll
  by_cases hmany : Dice.maxCount < d.count
  · rw [if_pos hmany]
    refine iff_of_false (fun h => ?_) fun h => ?_
    · cases h
    · exact UInt32.not_lt.mpr h.1 hmany
  · rw [if_neg hmany]
    show (R.drawAll d.sidesOfEach >>= _ : Session DiceError σ Rolled).run s = _ ↔ _
    rw [Session.run_bind_eq_ok_iff]
    constructor
    · rintro ⟨outcomes, t, hdraw, h⟩
      have hdraws := Roller.run_drawAll_eq_ok_iff.mp hdraw
      cases hof : Rolled.ofOutcomes d outcomes with
      | error error =>
          rw [hof] at h
          cases h
      | ok rolled =>
          rw [hof] at h
          cases h
          exact ⟨UInt32.not_lt.mp hmany, outcomes, hdraws, hof⟩
    · rintro ⟨-, outcomes, hdraws, hof⟩
      refine ⟨outcomes, s', Roller.run_drawAll_eq_ok_iff.mpr hdraws, ?_⟩
      rw [hof]
      rfl

namespace Expr

theorem run_eval_dice_eq_ok_iff {d : Dice} {r : Rolled} :
    ((Expr.dice d).eval R).run s = .ok r s' ↔
      d.count ≤ Dice.maxCount ∧ ∃ outcomes, Draws R s d.sidesOfEach outcomes s' ∧
        Rolled.ofOutcomes d outcomes = .ok r := by
  rw [← Roller.run_roll_eq_ok_iff]
  show EStateM.adaptExcept _ (R.roll d) s = _ ↔ R.roll d s = _
  unfold EStateM.adaptExcept
  cases R.roll d s <;> simp

theorem run_eval_both_eq_ok_iff {left right : Expr} {r : Rolled} :
    ((Expr.both left right).eval R).run s = .ok r s'' ↔
      ∃ a b s', (left.eval R).run s = .ok a s' ∧
        (right.eval R).run s' = .ok b s'' ∧ a.merge b = some r := by
  rw [eval]
  constructor
  · intro h
    obtain ⟨a, t, hleft, h⟩ := Session.run_bind_eq_ok_iff.mp h
    obtain ⟨b, t', hright, h⟩ := Session.run_bind_eq_ok_iff.mp h
    cases hmerge : a.merge b with
    | none =>
        rw [hmerge] at h
        cases h
    | some rolled =>
        rw [hmerge] at h
        cases h
        exact ⟨a, b, t, hleft, hright, hmerge⟩
  · rintro ⟨a, b, t, hleft, hright, hmerge⟩
    refine Session.run_bind_eq_ok_iff.mpr
      ⟨a, t, hleft, Session.run_bind_eq_ok_iff.mpr ⟨b, s'', hright, ?_⟩⟩
    rw [hmerge]
    rfl

/-! ## Any tree -/

theorem count_le_of_run_eval {e : Expr} {r : Rolled}
    (h : (e.eval R).run s = .ok r s') :
    ∀ d ∈ e.leaves, d.count ≤ Dice.maxCount := by
  induction e generalizing s r s' with
  | dice d =>
      obtain ⟨hcount, -⟩ := run_eval_dice_eq_ok_iff.mp h
      simpa [leaves] using hcount
  | both left right ihl ihr =>
      obtain ⟨a, b, t, hl, hr, -⟩ := run_eval_both_eq_ok_iff.mp h
      intro d hd
      rw [leaves, List.mem_append] at hd
      rcases hd with hd | hd
      · exact ihl hl d hd
      · exact ihr hr d hd

theorem draws_of_run_eval {e : Expr} {r : Rolled}
    (h : (e.eval R).run s = .ok r s') :
    Draws R s (sidesOf e.leaves) r.outcomes s' := by
  induction e generalizing s r s' with
  | dice d =>
      obtain ⟨-, outcomes, hdraws, hof⟩ := run_eval_dice_eq_ok_iff.mp h
      obtain ⟨rfl, -, -⟩ := Rolled.ofOutcomes_eq_ok_iff.mp hof
      rwa [leaves, sidesOf_singleton]
  | both left right ihl ihr =>
      obtain ⟨a, b, t, hl, hr, hmerge⟩ := run_eval_both_eq_ok_iff.mp h
      obtain ⟨houtcomes, -, -⟩ := Rolled.merge_eq_some_iff.mp hmerge
      rw [leaves, sidesOf_append, houtcomes]
      exact (ihl hl).append (ihr hr)

theorem exact_of_run_eval {e : Expr} {r : Rolled}
    (h : (e.eval R).run s = .ok r s') : r.Exact e.leaves := by
  induction e generalizing s r s' with
  | dice d =>
      obtain ⟨-, outcomes, -, hof⟩ := run_eval_dice_eq_ok_iff.mp h
      obtain ⟨rfl, hmodifier, htotal⟩ := Rolled.ofOutcomes_eq_ok_iff.mp hof
      rw [leaves]
      exact ⟨by rw [hmodifier, modifierSum_singleton],
        by rw [htotal, modifierSum_singleton]⟩
  | both left right ihl ihr =>
      obtain ⟨a, b, t, hl, hr, hmerge⟩ := run_eval_both_eq_ok_iff.mp h
      obtain ⟨houtcomes, hmodifier, htotal⟩ :=
        Rolled.merge_eq_some_iff.mp hmerge
      have ha := ihl hl
      have hb := ihr hr
      rw [leaves]
      constructor
      · rw [hmodifier, ha.modifier, hb.modifier, modifierSum_append]
      · rw [htotal, ha.total, hb.total, modifierSum_append, houtcomes,
          outcomeSum_append, Int.natCast_add]
        omega

/-- The calls of a successful evaluation, with the outcomes they gave. -/
theorem run_eval_traced {e : Expr} {r : Rolled} (calls : List (UInt32 × UInt32))
    (h : (e.eval R).run s = .ok r s') :
    (e.eval R.traced).run (s, calls) =
      .ok r (s', calls ++ (sidesOf e.leaves).zip r.outcomes) := by
  induction e generalizing s r s' calls with
  | dice d =>
      obtain ⟨hcount, outcomes, hdraws, hof⟩ := run_eval_dice_eq_ok_iff.mp h
      obtain ⟨houtcomes, -, -⟩ := Rolled.ofOutcomes_eq_ok_iff.mp hof
      rw [leaves, sidesOf_singleton, houtcomes]
      exact run_eval_dice_eq_ok_iff.mpr
        ⟨hcount, outcomes, Roller.draws_traced calls hdraws, hof⟩
  | both left right ihl ihr =>
      obtain ⟨a, b, t, hl, hr, hmerge⟩ := run_eval_both_eq_ok_iff.mp h
      obtain ⟨houtcomes, -, -⟩ := Rolled.merge_eq_some_iff.mp hmerge
      -- The right side goes on with the note that the left side has left.
      have hlength := (draws_of_run_eval hl).length_eq
      rw [leaves, sidesOf_append, houtcomes, List.zip_append hlength.symm,
        ← List.append_assoc]
      exact run_eval_both_eq_ok_iff.mpr ⟨a, b, _, ihl calls hl, ihr _ hr, hmerge⟩

/-! ## Bounds -/

end Expr

theorem modifierSum_bounds (ds : List Dice) :
    -(ds.length * 2 ^ 31 : Int) ≤ modifierSum ds ∧
      modifierSum ds ≤ ds.length * 2 ^ 31 := by
  induction ds with
  | nil => simp [modifierSum]
  | cons d ds ih =>
      have lo := d.modifier.le_toInt
      have hi := d.modifier.toInt_lt
      have hsum : modifierSum (d :: ds) = d.modifier.toInt + modifierSum ds := by
        simp [modifierSum]
      rw [hsum, List.length_cons]
      omega

theorem length_sidesOf_le {ds : List Dice}
    (h : ∀ d ∈ ds, d.count ≤ Dice.maxCount) :
    (sidesOf ds).length ≤ ds.length * 10000 := by
  rw [length_sidesOf]
  induction ds with
  | nil => simp
  | cons d ds ih =>
      have hd : d.count.toNat ≤ 10000 :=
        UInt32.le_iff_toNat_le.mp (h d List.mem_cons_self)
      have hds := ih fun d' hd' => h d' (List.mem_cons_of_mem d hd')
      rw [List.map_cons, List.sum_cons, List.length_cons]
      omega

/-- What exact sums can come to. -/
theorem Rolled.Exact.bounds {ds : List Dice} {r : Rolled} (hexact : r.Exact ds)
    (hcount : ∀ d ∈ ds, d.count ≤ Dice.maxCount)
    (hdraws : Draws R s (sidesOf ds) r.outcomes s') :
    (-(ds.length * 2 ^ 31 : Int) ≤ r.modifier.toInt ∧
      r.modifier.toInt ≤ ds.length * 2 ^ 31) ∧
    -(ds.length * 2 ^ 31 : Int) ≤ r.total.toInt ∧
      r.total.toInt ≤ ds.length * (10000 * (2 ^ 32 - 1) + 2 ^ 31) := by
  have hmodifier := modifierSum_bounds ds
  have houtcomes := outcomeSum_le r.outcomes
  have hlength := length_sidesOf_le hcount
  rw [← hdraws.length_eq] at hlength
  rw [hexact.modifier, hexact.total]
  omega

/-- One set of dice stays below `10000 * 2 ^ 32`, far from the limit. -/
theorem Rolled.exists_ofOutcomes_of_draws {d : Dice} {outcomes : List UInt32}
    (hcount : d.count ≤ Dice.maxCount) (hdraws : Draws R s d.sidesOfEach outcomes s') :
    ∃ r, ofOutcomes d outcomes = .ok r := by
  have hle := outcomeSum_le outcomes
  have hlength := hdraws.length_eq
  rw [Dice.sidesOfEach, List.length_replicate] at hlength
  have hmany : d.count.toNat ≤ 10000 := UInt32.le_iff_toNat_le.mp hcount
  have hi := d.modifier.toInt_lt
  exact exists_ofOutcomes (by omega)

namespace Expr

/-- The results of both sides exist, so they are exact and keep the bounds of
their own leaves. Together they keep those of all leaves. -/
theorem exists_merge_of_run_eval {left right : Expr} {a b : Rolled}
    (small : (both left right).leaves.length ≤ 200000)
    (hleft : (left.eval R).run s = .ok a s') (hright : (right.eval R).run s' = .ok b s'') :
    ∃ r, a.merge b = some r := by
  rw [leaves, List.length_append] at small
  have hboundsa := (exact_of_run_eval hleft).bounds (count_le_of_run_eval hleft)
    (draws_of_run_eval hleft)
  have hboundsb := (exact_of_run_eval hright).bounds (count_le_of_run_eval hright)
    (draws_of_run_eval hright)
  exact Rolled.exists_merge (by omega) (by omega)

/-- **Only the roller and the counts can stop a moderate expression.** With not
more than 200000 dice terms no sum on the way leaves its range, whatever the
outcomes. -/
theorem run_eval_of_draws {e : Expr} {outcomes : List UInt32}
    (small : e.leaves.length ≤ 200000)
    (hcount : ∀ d ∈ e.leaves, d.count ≤ Dice.maxCount)
    (hdraws : Draws R s (sidesOf e.leaves) outcomes s') :
    ∃ r, (e.eval R).run s = .ok r s' := by
  induction e generalizing s outcomes s' with
  | dice d =>
      rw [leaves] at hcount hdraws
      rw [sidesOf_singleton] at hdraws
      have hd := hcount d List.mem_cons_self
      obtain ⟨r, hr⟩ := Rolled.exists_ofOutcomes_of_draws hd hdraws
      exact ⟨r, run_eval_dice_eq_ok_iff.mpr ⟨hd, outcomes, hdraws, hr⟩⟩
  | both left right ihl ihr =>
      have hlength := small
      rw [leaves, List.length_append] at hlength
      rw [leaves, sidesOf_append] at hdraws
      simp only [leaves, List.mem_append] at hcount
      obtain ⟨front, back, t, -, hfront, hback⟩ := hdraws.exists_of_append
      obtain ⟨a, ha⟩ := ihl (by omega) (fun d hd => hcount d (Or.inl hd)) hfront
      obtain ⟨b, hb⟩ := ihr (by omega) (fun d hd => hcount d (Or.inr hd)) hback
      obtain ⟨r, hr⟩ := exists_merge_of_run_eval small ha hb
      exact ⟨r, run_eval_both_eq_ok_iff.mpr ⟨a, b, t, ha, hb, hr⟩⟩

/-- Success is a matter of the leaves. -/
theorem exists_run_eval_iff {e : Expr} (small : e.leaves.length ≤ 200000) :
    (∃ r s', (e.eval R).run s = .ok r s') ↔
      (∀ d ∈ e.leaves, d.count ≤ Dice.maxCount) ∧
        ∃ outcomes s', Draws R s (sidesOf e.leaves) outcomes s' := by
  constructor
  · rintro ⟨r, s', h⟩
    exact ⟨count_le_of_run_eval h, r.outcomes, s', draws_of_run_eval h⟩
  · rintro ⟨hcount, outcomes, s', hdraws⟩
    obtain ⟨r, hr⟩ := run_eval_of_draws small hcount hdraws
    exact ⟨r, s', hr⟩

/-- A roller that always has an outcome stops no moderate expression. -/
theorem exists_run_eval {e : Expr} (hR : R.Serves) (small : e.leaves.length ≤ 200000)
    (hcount : ∀ d ∈ e.leaves, d.count ≤ Dice.maxCount) (s : σ) :
    ∃ r s', (e.eval R).run s = .ok r s' :=
  (exists_run_eval_iff small).mpr ⟨hcount, hR.exists_draws s fun _ => pos_of_mem_sidesOf⟩

/-- A result is fixed by the leaves. -/
theorem run_eval_unique {e₁ e₂ : Expr} {r₁ r₂ : Rolled}
    (hleaves : e₁.leaves = e₂.leaves)
    (h₁ : (e₁.eval R).run s = .ok r₁ s') (h₂ : (e₂.eval R).run s = .ok r₂ s'') :
    r₁ = r₂ ∧ s' = s'' := by
  have hexact₁ := exact_of_run_eval h₁
  have hexact₂ := exact_of_run_eval h₂
  have hdraws₁ := draws_of_run_eval h₁
  have hdraws₂ := draws_of_run_eval h₂
  rw [hleaves] at hexact₁ hdraws₁
  obtain ⟨houtcomes, hstate⟩ := hdraws₁.unique hdraws₂
  refine ⟨?_, hstate⟩
  apply Rolled.eq_of_toInt_eq houtcomes
  · rw [hexact₁.modifier, hexact₂.modifier]
  · rw [hexact₁.total, hexact₂.total, houtcomes]

/-- **Evaluation is flat.** A successful evaluation of any tree is one series of
draws, every leaf's dice with its sides, leaf by leaf: the roller is called for
these dice and for nothing else, the outcomes are what it gave, in this order,
and both sums are exact. Bracketing therefore changes no result, and for not
more than 200000 leaves it does not decide either whether there is one. -/
theorem eval_flat (R : Roller σ) (s : σ) :
    (∀ (e : Expr) (r : Rolled) (s' : σ), (e.eval R).run s = .ok r s' →
      Draws R s (sidesOf e.leaves) r.outcomes s' ∧
      r.outcomes.length = (e.leaves.map fun d => d.count.toNat).sum ∧
      (∀ calls, (e.eval R.traced).run (s, calls) =
        .ok r (s', calls ++ (sidesOf e.leaves).zip r.outcomes)) ∧
      r.modifier.toInt = modifierSum e.leaves ∧
      r.total.toInt = r.modifier.toInt + outcomeSum r.outcomes) ∧
    ∀ e₁ e₂ : Expr, e₁.leaves = e₂.leaves →
      (∀ r₁ r₂ s₁ s₂, (e₁.eval R).run s = .ok r₁ s₁ →
        (e₂.eval R).run s = .ok r₂ s₂ → r₁ = r₂ ∧ s₁ = s₂) ∧
      (e₁.leaves.length ≤ 200000 →
        ((∃ r s', (e₁.eval R).run s = .ok r s') ↔
          ∃ r s', (e₂.eval R).run s = .ok r s')) := by
  refine ⟨fun e r s' h => ?_, fun e₁ e₂ hleaves => ⟨?_, fun small => ?_⟩⟩
  · have hdraws := draws_of_run_eval h
    have hexact := exact_of_run_eval h
    refine ⟨hdraws, ?_, fun calls => run_eval_traced calls h, hexact.modifier, ?_⟩
    · rw [hdraws.length_eq, length_sidesOf]
    · rw [hexact.total, hexact.modifier]
  · intro r₁ r₂ s₁ s₂ h₁ h₂
    exact run_eval_unique hleaves h₁ h₂
  · have small₂ : e₂.leaves.length ≤ 200000 := hleaves ▸ small
    rw [exists_run_eval_iff small, exists_run_eval_iff small₂, hleaves]

/-- Three usual dice with outcomes from a list, bracketed either way. -/
theorem eval_flat_listed :
    ((both (both default default) default).eval Roller.listed).run
        [3, 11, 2, 9] = .ok ⟨[3, 11, 2], 0, 16⟩ [9] ∧
      (∀ calls, ((both (both default default) default).eval
        Roller.listed.traced).run ([3, 11, 2, 9], calls) =
          .ok ⟨[3, 11, 2], 0, 16⟩
            ([9], calls ++ [(20, 3), (20, 11), (20, 2)])) ∧
      ∃ r s', ((both default (both default default)).eval Roller.listed).run
        [3, 11, 2, 9] = .ok r s' := by
  obtain ⟨hflat, hregroup⟩ := eval_flat Roller.listed [3, 11, 2, 9]
  have hrun : ((both (both default default) default).eval Roller.listed).run
      [3, 11, 2, 9] = .ok ⟨[3, 11, 2], 0, 16⟩ [9] := rfl
  refine ⟨hrun, (hflat _ _ _ hrun).2.2.1, ?_⟩
  have hsame := (hregroup _ (both default (both default default)) rfl).2
  exact (hsame (by decide)).mp ⟨_, _, hrun⟩

end Expr

end DiceTray
