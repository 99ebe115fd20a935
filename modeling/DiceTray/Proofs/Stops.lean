import DiceTray.Proofs.Rollable

/-!
# Where an evaluation stops

An evaluation that has no result has stopped at a certain set of dice. All dice
before it have been rolled, in order, and nothing behind it has been touched.
Either these dice are too many, which is noticed before the first of them is
drawn, or the roller has run dry within them. No sum is ever at fault as long as
no tree has more than 200000 leaves.

`Stops` says this of a list of dice, and it does not matter how the list is cut
into expressions or how these are bracketed: dice may be added behind
(`Stops.append_right`), and dice that were rolled may be put in front
(`Stops.behind`). The tree and the list of expressions are two inductions over
these two steps.
-/

namespace DiceTray

variable {σ : Type} {R : Roller σ} {s s' t : σ} {halt : Halt EvalError}

/-- How rolling some dice in order from state `s` comes to no end: with which
cause, and in which state. -/
inductive Stops (R : Roller σ) (s : σ) : List Dice → Halt EvalError → σ → Prop
  | dry {before after : List Dice} {front back outcomes : List UInt32} {n : UInt32}
      {s' : σ} (within : ∀ d ∈ before, d.count ≤ Dice.maxCount)
      (sides : sidesOf before = front ++ n :: back)
      (draws : Draws R s front outcomes s') (none : R.die n s' = none) :
      Stops R s (before ++ after) .dry s'
  | excess {before after : List Dice} {d : Dice} {outcomes : List UInt32} {s' : σ}
      (within : ∀ d ∈ before, d.count ≤ Dice.maxCount)
      (draws : Draws R s (sidesOf before) outcomes s')
      (excess : Dice.maxCount < d.count) :
      Stops R s (before ++ d :: after) (.fault (.dice (.dice d) (.tooManyDice d.count))) s'

namespace Stops

/-- What stands behind the dice that are not rolled has no part in it. -/
theorem append_right {ds : List Dice} (h : Stops R s ds halt s') (more : List Dice) :
    Stops R s (ds ++ more) halt s' := by
  cases h with
  | dry within sides draws none =>
      rw [List.append_assoc]
      exact .dry within sides draws none
  | excess within draws excess =>
      rw [List.append_assoc]
      exact .excess within draws excess

/-- Dice that were rolled before are dice in front. -/
theorem behind {front ds : List Dice} {outcomes : List UInt32}
    (hcount : ∀ d ∈ front, d.count ≤ Dice.maxCount)
    (hdraws : Draws R s (sidesOf front) outcomes t) (h : Stops R t ds halt s') :
    Stops R s (front ++ ds) halt s' := by
  have both {before : List Dice} (within : ∀ d ∈ before, d.count ≤ Dice.maxCount) :
      ∀ d ∈ front ++ before, d.count ≤ Dice.maxCount := fun d hd =>
    (List.mem_append.mp hd).elim (hcount d) (within d)
  cases h with
  | @dry before after tail back _ n _ within sides draws none =>
      have hsides : sidesOf (front ++ before) = (sidesOf front ++ tail) ++ n :: back := by
        rw [sidesOf_append, sides, List.append_assoc]
      rw [← List.append_assoc]
      exact .dry (both within) hsides (hdraws.append draws) none
  | excess within draws excess =>
      have hall := hdraws.append draws
      rw [← sidesOf_append] at hall
      rw [← List.append_assoc]
      exact .excess (both within) hall excess

/-- A roller that always has an outcome can only be stopped by a set of dice
that is too large. -/
theorem exists_excess {ds : List Dice} (hR : R.Serves) (h : Stops R s ds halt s') :
    ∃ before d after outcomes, ds = before ++ d :: after ∧
      (∀ d' ∈ before, d'.count ≤ Dice.maxCount) ∧ Dice.maxCount < d.count ∧
      halt = .fault (.dice (.dice d) (.tooManyDice d.count)) ∧
      Draws R s (sidesOf before) outcomes s' := by
  cases h with
  | @dry before after front back outcomes n s' within sides draws none =>
      have hn : n ∈ sidesOf before := by
        rw [sides]
        exact List.mem_append_right _ List.mem_cons_self
      obtain ⟨_, _, hdie⟩ := hR n s' (pos_of_mem_sidesOf hn)
      rw [none] at hdie
      cases hdie
  | excess within draws excess => exact ⟨_, _, _, _, rfl, within, excess, rfl, draws⟩

end Stops

/-- The first dice that are too many cut a list in one way. -/
theorem first_excess_unique {before before' after after' : List Dice} {d d' : Dice}
    (h : before ++ d :: after = before' ++ d' :: after')
    (within : ∀ x ∈ before, x.count ≤ Dice.maxCount) (excess : Dice.maxCount < d.count)
    (within' : ∀ x ∈ before', x.count ≤ Dice.maxCount)
    (excess' : Dice.maxCount < d'.count) : before = before' ∧ d = d' := by
  have cut {before after : List Dice} {d : Dice}
      (within : ∀ x ∈ before, x.count ≤ Dice.maxCount) (excess : Dice.maxCount < d.count) :
      (before ++ d :: after).takeWhile (fun x => x.count ≤ Dice.maxCount) = before := by
    rw [List.takeWhile_append_of_pos (by simpa using within),
      List.takeWhile_cons_of_neg (by simpa using excess), List.append_nil]
  have hbefore : before = before' := by rw [← cut within excess, h, cut within' excess']
  subst hbefore
  rw [List.append_cancel_left_eq] at h
  exact ⟨rfl, (List.cons.inj h).1⟩

/-! ## One node -/

theorem Roller.stops_of_run_roll {d : Dice} {halt : Halt DiceError}
    (h : (R.roll d).run s = .error halt s') :
    Stops R s [d] (halt.map (EvalError.dice (.dice d))) s' := by
  have alone {ds : List Dice} {halt : Halt EvalError} (h : Stops R s ([] ++ ds) halt s') :
      Stops R s ds halt s' := h
  unfold Roller.roll at h
  by_cases hmany : Dice.maxCount < d.count
  · rw [if_pos hmany] at h
    cases h
    exact alone (.excess (by simp) .nil hmany)
  · rw [if_neg hmany] at h
    change (R.drawAll d.sidesOfEach >>= _ : Session DiceError σ Rolled).run s = _ at h
    have hcount := UInt32.not_lt.mp hmany
    rcases Session.run_bind_eq_error_iff.mp h with hdraw | ⟨outcomes, t, hdraw, h⟩
    · obtain ⟨rfl, front, n, back, outcomes, hsides, hdraws, hnone⟩ :=
        Roller.draws_of_run_drawAll_eq_error hdraw
      rw [← sidesOf_singleton] at hsides
      exact Stops.dry (by simpa using hcount) hsides hdraws hnone
    · have hdraws := Roller.run_drawAll_eq_ok_iff.mp hdraw
      obtain ⟨r, hr⟩ := Rolled.exists_ofOutcomes_of_draws hcount hdraws
      rw [hr] at h
      cases h

namespace Expr

theorem stops_of_run_eval_dice {d : Dice}
    (h : ((dice d).eval R).run s = .error halt s') : Stops R s [d] halt s' := by
  change EStateM.adaptExcept _ (R.roll d) s = _ at h
  unfold EStateM.adaptExcept at h
  cases hroll : R.roll d s with
  | ok r t => simp [hroll] at h
  | error halt' t =>
      rw [hroll] at h
      cases h
      exact Roller.stops_of_run_roll hroll

/-- Whichever side stops, stops the whole, and the merge does not. -/
theorem stops_of_run_eval_both {left right : Expr}
    (small : (both left right).leaves.length ≤ 200000)
    (h : ((both left right).eval R).run s = .error halt s') :
    (left.eval R).run s = .error halt s' ∨
      ∃ a t, (left.eval R).run s = .ok a t ∧ (right.eval R).run t = .error halt s' := by
  rw [eval] at h
  rcases Session.run_bind_eq_error_iff.mp h with hleft | ⟨a, t, hleft, h⟩
  · exact Or.inl hleft
  · refine Or.inr ⟨a, t, hleft, ?_⟩
    rcases Session.run_bind_eq_error_iff.mp h with hright | ⟨b, t', hright, h⟩
    · exact hright
    · obtain ⟨r, hr⟩ := exists_merge_of_run_eval small hleft hright
      rw [hr] at h
      cases h

/-! ## Any tree, any list of trees -/

theorem stops_of_run_eval {e : Expr} (small : e.leaves.length ≤ 200000)
    (h : (e.eval R).run s = .error halt s') : Stops R s e.leaves halt s' := by
  induction e generalizing s with
  | dice d => exact stops_of_run_eval_dice h
  | both left right ihl ihr =>
      have hlength := small
      rw [leaves, List.length_append] at hlength
      rw [leaves]
      rcases stops_of_run_eval_both small h with hleft | ⟨a, t, hleft, hright⟩
      · exact (ihl (by omega) hleft).append_right _
      · exact (ihr (by omega) hright).behind (count_le_of_run_eval hleft)
          (draws_of_run_eval hleft)

theorem stops_of_run_evalAll {es : List Expr}
    (small : ∀ e ∈ es, e.leaves.length ≤ 200000)
    (h : (evalAll R es).run s = .error halt s') :
    Stops R s (es.flatMap leaves) halt s' := by
  induction es generalizing s with
  | nil => cases h
  | cons e es ih =>
      obtain ⟨hsmall, hmore⟩ := List.forall_mem_cons.mp small
      rw [evalAll_cons] at h
      rw [List.flatMap_cons]
      rcases Session.run_bind_eq_error_iff.mp h with heval | ⟨r, t, heval, h⟩
      · exact (stops_of_run_eval hsmall heval).append_right _
      · rcases Session.run_bind_eq_error_iff.mp h with hrest | ⟨rs, t', -, h⟩
        · exact (ih hmore hrest).behind (count_le_of_run_eval heval) (draws_of_run_eval heval)
        · cases h

theorem InOrder.count_le {es : List Expr} {rs : List Rolled} (h : InOrder R s es rs s') :
    ∀ d ∈ es.flatMap leaves, d.count ≤ Dice.maxCount := by
  induction h with
  | nil => simp
  | cons heval _ ih =>
      rw [List.flatMap_cons]
      exact List.forall_mem_append.mpr ⟨count_le_of_run_eval heval, ih⟩

/-- Whether there are results does not depend on the outcomes. -/
theorem exists_run_evalAll_eq_error_iff {es : List Expr} (hR : R.Serves)
    (small : ∀ e ∈ es, e.leaves.length ≤ 200000) (s : σ) :
    (∃ halt s', (evalAll R es).run s = .error halt s') ↔
      ∃ d ∈ es.flatMap leaves, Dice.maxCount < d.count := by
  constructor
  · rintro ⟨halt, s', h⟩
    obtain ⟨before, d, after, _, hds, -, excess, -⟩ :=
      (stops_of_run_evalAll small h).exists_excess hR
    exact ⟨d, hds ▸ by simp, excess⟩
  · rintro ⟨d, hd, excess⟩
    cases h : (evalAll R es).run s with
    | error halt s' => exact ⟨halt, s', rfl⟩
    | ok rs s' =>
        have hcount := (run_evalAll_eq_ok_iff.mp h).count_le d hd
        exact absurd excess (UInt32.not_lt.mpr hcount)

/-- The note of an evaluation that stops: all dice in front of those that are too
many, with their outcomes. -/
theorem run_evalAll_traced {es : List Expr} {before after : List Dice} {d : Dice}
    {outcomes : List UInt32} (hR : R.Serves)
    (small : ∀ e ∈ es, e.leaves.length ≤ 200000)
    (hds : es.flatMap leaves = before ++ d :: after)
    (within : ∀ d' ∈ before, d'.count ≤ Dice.maxCount)
    (excess : Dice.maxCount < d.count) (hdraws : Draws R s (sidesOf before) outcomes s')
    (calls : List (UInt32 × UInt32)) :
    (evalAll R.traced es).run (s, calls) =
      .error (.fault (.dice (.dice d) (.tooManyDice d.count)))
        (s', calls ++ (sidesOf before).zip outcomes) := by
  obtain ⟨halt, last, h⟩ := (exists_run_evalAll_eq_error_iff hR.traced small (s, calls)).mpr
    ⟨d, hds ▸ by simp, excess⟩
  -- The roller that takes notes stops at the first excess too.
  obtain ⟨before', d', after', outcomes', hds', within', excess', rfl, hdraws'⟩ :=
    (stops_of_run_evalAll small h).exists_excess hR.traced
  obtain ⟨rfl, rfl⟩ := first_excess_unique (hds.symm.trans hds') within excess within' excess'
  obtain ⟨-, rfl⟩ := hdraws'.unique (Roller.draws_traced calls hdraws)
  exact h

/-- **Refusals are exact.** With a roller that always has an outcome, expressions
of not more than 200000 leaves each have their results unless some dice are too
many. If some are, the first such dice are what is reported, and the roller has
been asked for all dice before them and for no others. Expressions can be
evaluated in two parts: if the first part stops, so does the whole, and
otherwise the second part goes on where the first has left the roller. -/
theorem evalAll_exact {es : List Expr} (hR : R.Serves)
    (small : ∀ e ∈ es, e.leaves.length ≤ 200000) (s : σ) :
    ((∃ halt s', (evalAll R es).run s = .error halt s') ↔
      ∃ d ∈ es.flatMap leaves, Dice.maxCount < d.count) ∧
    (∀ halt s', (evalAll R es).run s = .error halt s' →
      ∃ before d after outcomes, es.flatMap leaves = before ++ d :: after ∧
        (∀ d' ∈ before, d'.count ≤ Dice.maxCount) ∧ Dice.maxCount < d.count ∧
        halt = .fault (.dice (.dice d) (.tooManyDice d.count)) ∧
        Draws R s (sidesOf before) outcomes s' ∧
        ∀ calls, (evalAll R.traced es).run (s, calls) =
          .error halt (s', calls ++ (sidesOf before).zip outcomes)) ∧
    ∀ first second, es = first ++ second →
      (∀ halt t, (evalAll R first).run s = .error halt t →
        (evalAll R es).run s = .error halt t) ∧
      ∀ rs t, (evalAll R first).run s = .ok rs t →
        (∀ halt t', (evalAll R second).run t = .error halt t' →
          (evalAll R es).run s = .error halt t') ∧
        ∀ more t', (evalAll R second).run t = .ok more t' →
          (evalAll R es).run s = .ok (rs ++ more) t' := by
  refine ⟨exists_run_evalAll_eq_error_iff hR small s, fun halt s' h => ?_, ?_⟩
  · obtain ⟨before, d, after, outcomes, hds, within, excess, rfl, hdraws⟩ :=
      (stops_of_run_evalAll small h).exists_excess hR
    refine ⟨before, d, after, outcomes, hds, within, excess, rfl, hdraws, fun calls => ?_⟩
    exact run_evalAll_traced hR small hds within excess hdraws calls
  · rintro first second rfl
    rw [evalAll_append]
    refine ⟨fun halt t h => ?_, fun rs t h => ⟨fun halt t' h' => ?_, fun more t' h' => ?_⟩⟩
    · exact Session.run_bind_eq_error_iff.mpr (Or.inl h)
    · exact Session.run_bind_eq_error_iff.mpr
        (Or.inr ⟨rs, t, h, Session.run_bind_eq_error_iff.mpr (Or.inl h')⟩)
    · exact Session.run_bind_eq_ok_iff.mpr
        ⟨rs, t, h, Session.run_bind_eq_ok_iff.mpr ⟨more, t', h', rfl⟩⟩

/-- Dice that are too many, between others. -/
theorem evalAll_exact_oversized :
    ∃ (big : Dice) (es : List Expr), big.count = 10001 ∧
      es = [both default (dice big), default] ∧ (Roller.constant 7).Serves ∧
      (∀ e ∈ es, e.leaves.length ≤ 200000) ∧
      ∃ halt, (evalAll (Roller.constant 7) es).run () = .error halt () ∧
        ∃ before d after outcomes, es.flatMap leaves = before ++ d :: after ∧
          (∀ d' ∈ before, d'.count ≤ Dice.maxCount) ∧ Dice.maxCount < d.count ∧
          halt = .fault (.dice (.dice d) (.tooManyDice d.count)) ∧
          Draws (Roller.constant 7) () (sidesOf before) outcomes () ∧
          ∀ calls, (evalAll (Roller.constant 7).traced es).run ((), calls) =
            .error halt ((), calls ++ (sidesOf before).zip outcomes) := by
  let big : Dice := ⟨10001, 6, 0, by decide, by decide⟩
  have hR : (Roller.constant 7).Serves := fun _ _ _ => ⟨_, _, rfl⟩
  have small : ∀ e ∈ [both default (dice big), default], e.leaves.length ≤ 200000 := by
    decide
  obtain ⟨hstops, hfirst, -⟩ := evalAll_exact hR small ()
  obtain ⟨halt, s', h⟩ := hstops.mpr ⟨big, by decide, by decide⟩
  exact ⟨big, _, rfl, rfl, hR, small, halt, h, hfirst halt s' h⟩

end Expr

end DiceTray
