import DiceTray.Proofs.Clones
import DiceTray.Proofs.Stops
import DiceTray.Roller.Peekable

/-!
# A list of outcomes is used up in order

The roller that hands out a list loses nothing and hands out nothing twice.
Whatever is done with it and with its clones, one step after the other, and
however a use ends, for each of them the values drawn and then those that are
left are the list at the beginning. What was drawn is what the roller notes that
takes notes (`Roller.traced`), and a clone has the notes of its roller.

The roller can be asked whether it has a value left, and it looks ahead for that.
All that is read off its slot and its list is what remains of both: in this it is
in step with the plain list (`inStep_listed`), which is never asked and of which
no clones are made.

How many values an evaluation takes is then a matter of where it stops (`Stops`).
It needs a value for every die in front of the first dice that are too many, and
if there are too few for these, none is left afterwards, even where dice that are
too many stand further behind.
-/

namespace DiceTray

variable {σ α : Type} {R : Roller σ} {s s' : σ}

/-! ## Looking ahead -/

namespace Peekable

open Pool (run run_inStep)

/-- A roller that looks ahead, and the list of what remains. -/
def Remains (it : Peekable) (left : List UInt32) : Prop :=
  it.remaining = left

theorem inStep_listed : Roller.InStep Remains Roller.peekable Roller.listed := by
  rintro n it _ rfl
  rw [← Roller.die_peekable]
  cases Roller.peekable.die n it with
  | none => exact .none
  | some drawn => exact .some ⟨rfl, rfl⟩

/-- A question to a roller that takes notes. There is nothing to note. -/
def tracedCanRoll (noted : Peekable × List (UInt32 × UInt32)) :
    Bool × Peekable × List (UInt32 × UInt32) :=
  (noted.1.canRoll.1, noted.1.canRoll.2, noted.2)

/-- A roller, and the same roller with its notes: what was noted and what remains
are the list at the beginning. -/
structure Conserves (initial : List UInt32) (it : Peekable)
    (noted : Peekable × List (UInt32 × UInt32)) : Prop where
  state : noted.1 = it
  outcomes : noted.2.map Prod.snd ++ it.remaining = initial

theorem inStep_traced (initial : List UInt32) :
    Roller.InStep (Conserves initial) Roller.peekable Roller.peekable.traced := by
  rintro n _ ⟨it, calls⟩ ⟨rfl, rfl⟩
  cases hdie : Roller.peekable.die n it with
  | none =>
      have hdie' : Roller.peekable.traced.die n (it, calls) = none := by
        simp [Roller.traced, hdie]
      rw [hdie']
      exact .none
  | some drawn =>
      rw [Roller.die_traced_eq_some calls hdie]
      refine .some ⟨rfl, rfl, ?_⟩
      rw [List.map_append, List.append_assoc, Roller.remaining_of_die_peekable hdie]
      rfl

theorem conserves_canRoll {initial : List UInt32} {it : Peekable}
    {noted : Peekable × List (UInt32 × UInt32)} (h : Conserves initial it noted) :
    it.canRoll.1 = (tracedCanRoll noted).1 ∧
      Conserves initial it.canRoll.2 (tracedCanRoll noted).2 := by
  obtain ⟨rfl, houtcomes⟩ := h
  exact ⟨rfl, rfl, by rwa [remaining_canRoll]⟩

/-- In every pool of rollers that has come of a list, each of them and its notes
make up the list. -/
theorem run_traced (initial : List UInt32) (steps : List (Nat × Act)) :
    ∃ replies pool,
      run Roller.peekable canRoll steps [ofList initial] = (replies, pool.map Prod.fst) ∧
      run Roller.peekable.traced tracedCanRoll steps [(ofList initial, [])] = (replies, pool) ∧
      ∀ noted ∈ pool, Conserves initial noted.1 noted := by
  obtain ⟨replies, hpool⟩ := run_inStep (inStep_traced initial)
    (fun _ _ h => conserves_canRoll h) steps
    (.cons ⟨rfl, remaining_ofList initial⟩ .nil :
      List.Forall₂ (Conserves initial) [ofList initial] [(ofList initial, [])])
  have hstates : List.Forall₂ (· = ·) (run Roller.peekable canRoll steps [ofList initial]).2
      ((run Roller.peekable.traced tracedCanRoll steps [(ofList initial, [])]).2.map Prod.fst) :=
    List.forall₂_map_right_iff.mpr (hpool.imp fun _ _ h => h.state.symm)
  rw [List.forall₂_eq_eq_eq] at hstates
  rw [hstates, List.forall₂_map_left_iff, List.forall₂_same] at hpool
  exact ⟨_, _, Prod.ext replies hstates, rfl, hpool⟩

end Peekable

/-! ## Lists of outcomes -/

variable {left left' outcomes : List UInt32}

/-- What a list gives is a piece from its front. -/
theorem Draws.eq_append {sides : List UInt32}
    (h : Draws Roller.listed left sides outcomes left') : left = outcomes ++ left' := by
  induction h with
  | nil => rfl
  | @cons s _ _ _ _ _ _ hdie _ ih =>
      cases s with
      | nil => cases hdie
      | cons v s =>
          cases hdie
          rw [ih, List.cons_append]

theorem Roller.die_listed_eq_none {n : UInt32} (h : listed.die n left = none) : left = [] := by
  cases left with
  | nil => rfl
  | cons v left => cases h

/-- How many values some dice take from a list: one for each die in front of the
first dice that are too many. -/
def valuesFor (ds : List Dice) : Nat :=
  ((ds.takeWhile fun d => d.count ≤ Dice.maxCount).map fun d => d.count.toNat).sum

theorem valuesFor_append {before : List Dice} (within : ∀ d ∈ before, d.count ≤ Dice.maxCount)
    (after : List Dice) :
    valuesFor (before ++ after) = (sidesOf before).length + valuesFor after := by
  unfold valuesFor
  rw [List.takeWhile_append_of_pos (by simpa using within), List.map_append, List.sum_append,
    length_sidesOf]

theorem valuesFor_cons_of_excess {d : Dice} (excess : Dice.maxCount < d.count)
    (after : List Dice) : valuesFor (d :: after) = 0 := by
  unfold valuesFor
  rw [List.takeWhile_cons_of_neg (by simpa using excess)]
  rfl

/-- How the evaluation of some dice with a list ends: in a list that is too short
it runs dry, and otherwise it takes the values it needs, and whether some dice
are too many decides what comes of it. -/
structure Spends (ds : List Dice) (left : List UInt32)
    (result : Except (Halt EvalError) α × List UInt32) : Prop where
  dry : left.length < valuesFor ds → result = (.error .dry, [])
  rest : valuesFor ds ≤ left.length → result.2 = left.drop (valuesFor ds)
  ok : valuesFor ds ≤ left.length → (∀ d ∈ ds, d.count ≤ Dice.maxCount) →
    ∃ a, result.1 = .ok a
  excess : valuesFor ds ≤ left.length → ∀ before d after, ds = before ++ d :: after →
    (∀ d' ∈ before, d'.count ≤ Dice.maxCount) → Dice.maxCount < d.count →
      result.1 = .error (.fault (.dice (.dice d) (.tooManyDice d.count)))

theorem spends_of_ok {ds : List Dice} (a : α) (within : ∀ d ∈ ds, d.count ≤ Dice.maxCount)
    (h : Draws Roller.listed left (sidesOf ds) outcomes left') :
    Spends ds left (.ok a, left') := by
  have hvalues : valuesFor ds = outcomes.length := by
    have := valuesFor_append within []
    rw [List.append_nil] at this
    rw [this, h.length_eq]
    rfl
  obtain rfl := h.eq_append
  refine ⟨fun short => ?_, fun _ => ?_, fun _ _ => ⟨a, rfl⟩, ?_⟩
  · rw [hvalues, List.length_append] at short
    omega
  · rw [hvalues, List.drop_left]
  · rintro - before d after rfl - excess
    exact absurd excess (UInt32.not_lt.mpr (within d (by simp)))

/-- Where an evaluation stops says how many values it has taken. -/
theorem spends_of_stops {ds : List Dice} {halt : Halt EvalError}
    (h : Stops Roller.listed left ds halt left') :
    Spends ds left ((.error halt : Except _ α), left') := by
  cases h with
  | @dry before after front back outcomes n _ within sides draws none =>
      obtain rfl := Roller.die_listed_eq_none none
      have hvalues := valuesFor_append within after
      have hlength := draws.length_eq
      rw [sides, List.length_append, List.length_cons] at hvalues
      obtain rfl := draws.eq_append
      rw [List.append_nil]
      -- The die that found nothing is one of those there were values needed for.
      have short : outcomes.length < valuesFor (before ++ after) := by omega
      exact ⟨fun _ => rfl, fun h => absurd h (Nat.not_le.mpr short),
        fun h => absurd h (Nat.not_le.mpr short), fun h => absurd h (Nat.not_le.mpr short)⟩
  | @excess before after d outcomes _ within draws excess =>
      have hvalues := valuesFor_append within (d :: after)
      rw [valuesFor_cons_of_excess excess, Nat.add_zero, ← draws.length_eq] at hvalues
      obtain rfl := draws.eq_append
      refine ⟨fun short => ?_, fun _ => ?_, fun _ all => ?_, ?_⟩
      · rw [hvalues, List.length_append] at short
        omega
      · rw [hvalues, List.drop_left]
      · exact absurd excess (UInt32.not_lt.mpr (all d (by simp)))
      · intro _ before' d' after' hds within' excess'
        obtain ⟨-, rfl⟩ := first_excess_unique hds within excess within' excess'
        rfl

namespace Expr

theorem spends_eval {e : Expr} (small : e.leaves.length ≤ 200000) (left : List UInt32) :
    Spends e.leaves left ((e.eval Roller.listed).settle left) := by
  cases h : (e.eval Roller.listed).run left with
  | ok r left' =>
      rw [Session.settle_of_ok h]
      exact spends_of_ok r (count_le_of_run_eval h) (draws_of_run_eval h)
  | error halt left' =>
      rw [Session.settle_of_error h]
      exact spends_of_stops (stops_of_run_eval small h)

theorem InOrder.exists_draws {s s' : σ} {es : List Expr} {rs : List Rolled}
    (h : InOrder R s es rs s') :
    ∃ outcomes, Draws R s (sidesOf (es.flatMap leaves)) outcomes s' := by
  induction h with
  | nil => exact ⟨[], .nil⟩
  | cons heval _ ih =>
      obtain ⟨outcomes, hdraws⟩ := ih
      rw [List.flatMap_cons, sidesOf_append]
      exact ⟨_, (draws_of_run_eval heval).append hdraws⟩

theorem spends_evalAll {es : List Expr} (small : ∀ e ∈ es, e.leaves.length ≤ 200000)
    (left : List UInt32) :
    Spends (es.flatMap leaves) left ((evalAll Roller.listed es).settle left) := by
  cases h : (evalAll Roller.listed es).run left with
  | ok rs left' =>
      have hrs := run_evalAll_eq_ok_iff.mp h
      obtain ⟨outcomes, hdraws⟩ := hrs.exists_draws
      rw [Session.settle_of_ok h]
      exact spends_of_ok rs hrs.count_le hdraws
  | error halt left' =>
      rw [Session.settle_of_error h]
      exact spends_of_stops (stops_of_run_evalAll small h)

end Expr

namespace Peekable

/-- An evaluation with a look ahead ends as with the list of what remains. -/
theorem spends_of_inStep {ds : List Dice} {it : Peekable}
    {p : Session EvalError Peekable α} {q : Session EvalError (List UInt32) α}
    (h : Session.InStep Remains p q) (hq : Spends ds it.remaining (q.settle it.remaining)) :
    Spends ds it.remaining (Prod.map id remaining (p.settle it)) := by
  obtain ⟨same, hrest⟩ := h it _ rfl
  have heq : Prod.map id remaining (p.settle it) = q.settle it.remaining := Prod.ext same hrest
  rwa [heq]

open Pool (answersOf answersOf_run run usesOf)
open Roller (listed peekable)
open Use (inTurn)

/-- **A list of outcomes is used up in order.** A list is handed out by a roller
that looks ahead, and by clones of it. After any steps, however the uses among
them have ended, the values that one of them has drawn and then those that remain
for it are the list at the beginning, and asked whether it can serve another die
it says whether a value remains. Later steps get from it what a plain list of the
values that remain gives to the uses among them that are of this roller. So
neither a question nor anything done with another roller, such as a clone, has a
part in what it draws.

An evaluation takes exactly the values it needs and then reports the first dice
that are too many, if there are such dice, and gives a result otherwise. With
fewer values it runs dry and leaves none. -/
theorem runs_conserve (initial : List UInt32) :
    (∀ steps : List (Nat × Act), ∃ replies pool,
      run peekable canRoll steps [ofList initial] = (replies, pool.map Prod.fst) ∧
      run peekable.traced tracedCanRoll steps [(ofList initial, [])] = (replies, pool) ∧
      (∀ it calls, (it, calls) ∈ pool → calls.map Prod.snd ++ it.remaining = initial) ∧
      ∀ k it, (pool.map Prod.fst)[k]? = some it →
        (Act.canRoll.on peekable canRoll it).1 = .canRoll (decide (it.remaining ≠ [])) ∧
        ∀ later,
          answersOf k (run peekable canRoll later (pool.map Prod.fst)).1 =
            (inTurn listed (usesOf k later) it.remaining).1 ∧
          ∃ it', (run peekable canRoll later (pool.map Prod.fst)).2[k]? = some it' ∧
            it'.remaining = (inTurn listed (usesOf k later) it.remaining).2) ∧
    ∀ it : Peekable,
      (∀ e : Expr, e.leaves.length ≤ 200000 →
        Spends e.leaves it.remaining (Prod.map id remaining ((e.eval peekable).settle it))) ∧
      ∀ es : List Expr, (∀ e ∈ es, e.leaves.length ≤ 200000) →
        Spends (es.flatMap Expr.leaves) it.remaining
          (Prod.map id remaining ((Expr.evalAll peekable es).settle it)) := by
  refine ⟨fun steps => ?_, fun it => ⟨fun e small => ?_, fun es small => ?_⟩⟩
  · obtain ⟨replies, pool, hrun, htraced, hpool⟩ := run_traced initial steps
    refine ⟨replies, pool, hrun, htraced, fun it calls hmem => (hpool _ hmem).outcomes, ?_⟩
    intro k it hk
    refine ⟨?_, fun later => ?_⟩
    · show Reply.canRoll it.canRoll.1 = _
      rw [fst_canRoll]
      cases it.remaining <;> rfl
    · exact answersOf_run inStep_listed (fun it _ h => it.remaining_canRoll.trans h) later hk rfl
  · exact spends_of_inStep (inStep_listed.eval e) (Expr.spends_eval small it.remaining)
  · exact spends_of_inStep (inStep_listed.evalAll es) (Expr.spends_evalAll small it.remaining)

/-- A die, a clone that is rolled and asked, a question, and a die again. Then an
evaluation in which dice are too many draws the die in front of them, and from an
empty list it runs dry. -/
theorem runs_conserve_interrupted :
    ∃ (steps : List (Nat × Act)) (e : Expr) (big : Dice) (it : Peekable), big.count = 10001 ∧
      e = .both default (.both (.dice big) default) ∧
      steps = [(0, .use (.die 6)), (0, .clone), (1, .use (.roll default)), (1, .canRoll),
        (0, .canRoll), (0, .use (.die 20))] ∧
      e.leaves.length ≤ 200000 ∧ it.slot = some (some 17) ∧ it.remaining = [17, 2, 9] ∧
      (∃ pool, run peekable.traced tracedCanRoll steps [(ofList [4, 17, 2, 9], [])] =
          ([(0, .answer (.outcome (.ok 4))), (0, .cloned),
            (1, .answer (.rolled (.ok ⟨[17], 0, 17⟩))), (1, .canRoll true), (0, .canRoll true),
            (0, .answer (.outcome (.ok 17)))], pool) ∧
        pool.map (fun noted => noted.1.remaining) = [[2, 9], [2, 9]] ∧
        ∀ it calls, (it, calls) ∈ pool → calls.map Prod.snd ++ it.remaining = [4, 17, 2, 9]) ∧
      Prod.map id remaining ((e.eval peekable).settle it) =
        (.error (.fault (.dice (.dice big) (.tooManyDice 10001))), [2, 9]) ∧
      Prod.map id remaining ((e.eval peekable).settle (ofList [])) = (.error .dry, []) := by
  let big : Dice := ⟨10001, 6, 0, by decide, by decide⟩
  let e : Expr := .both default (.both (.dice big) default)
  let steps : List (Nat × Act) := [(0, .use (.die 6)), (0, .clone), (1, .use (.roll default)),
    (1, .canRoll), (0, .canRoll), (0, .use (.die 20))]
  let it : Peekable := ⟨some (some 17), [2, 9], nofun⟩
  have small : e.leaves.length ≤ 200000 := by decide
  have hneeds : valuesFor e.leaves = 1 := by decide
  let replies : List (Nat × Reply) := [(0, .answer (.outcome (.ok 4))), (0, .cloned),
    (1, .answer (.rolled (.ok ⟨[17], 0, 17⟩))), (1, .canRoll true), (0, .canRoll true),
    (0, .answer (.outcome (.ok 17)))]
  let pool : List (Peekable × List (UInt32 × UInt32)) :=
    [(ofList [2, 9], [(6, 4), (20, 17)]), (⟨some (some 2), [9], nofun⟩, [(6, 4), (20, 17)])]
  have hrun : run peekable.traced tracedCanRoll steps [(ofList [4, 17, 2, 9], [])] =
      (replies, pool) := rfl
  obtain ⟨hsteps, hspends⟩ := runs_conserve [4, 17, 2, 9]
  obtain ⟨_, _, -, htraced, hvalues, -⟩ := hsteps steps
  cases htraced.symm.trans hrun
  have hplenty := (hspends it).1 e small
  have hempty := (hspends (ofList [])).1 e small
  refine ⟨steps, e, big, it, rfl, rfl, rfl, small, rfl, rfl, ⟨pool, hrun, rfl, hvalues⟩, ?_, ?_⟩
  · refine Prod.ext (hplenty.excess (by decide) [default] big [default] rfl ?_ (by decide)) ?_
    · decide
    · rw [hplenty.rest (by decide), hneeds]
      rfl
  · exact hempty.dry (by decide)

end Peekable

end DiceTray
