import DiceTray.Proofs.FirstLine
import DiceTray.Proofs.Range
import DiceTray.Proofs.Rollable

/-!
# All or nothing

A run of the program prints nothing, or it prints a line for every expression of
a roll. There is nothing in between, since what parses can be rolled with any
roller that always shows a side, as the seeded one does. How the text came to
the program decides nothing else: the arguments are joined to the text, or the
first line of standard input is the text.

Dice of one side leave the roller no choice. Runs on the same text then print
the same, however the text came and with whatever rollers.
-/

namespace DiceTray

variable {σ τ : Type} {R : Roller σ} {Q : Roller τ} {s s' : σ} {t t' : τ}

namespace Expr

/-! ## Dice of one side -/

/-- All dice of an expression have one side. -/
def OneSided (e : Expr) : Prop :=
  ∀ d ∈ e.leaves, d.sides = 1

/-- How many dice an expression rolls. -/
def diceCount (e : Expr) : Nat :=
  (e.leaves.map fun d => d.count.toNat).sum

/-- The result of an expression in which every die shows 1. -/
structure Ones (e : Expr) (r : Rolled) : Prop where
  outcomes : r.outcomes = List.replicate e.diceCount 1
  modifier : r.modifier.toInt = modifierSum e.leaves
  total : r.total.toInt = e.diceCount + modifierSum e.leaves

theorem OneSided.ones {e : Expr} {r : Rolled} (hone : e.OneSided) (hR : R.Proper)
    (h : (e.eval R).run s = .ok r s') : e.Ones r := by
  have hdraws := draws_of_run_eval h
  have hexact := exact_of_run_eval h
  have hones : r.outcomes = List.replicate e.diceCount 1 := by
    refine List.eq_replicate_iff.mpr ⟨hdraws.length_eq.trans (length_sidesOf _), fun v hv => ?_⟩
    obtain ⟨n, hn, lo, hi⟩ :=
      hdraws.exists_side_of_mem hR (fun _ => pos_of_mem_sidesOf) hv
    obtain ⟨d, hd, hmem⟩ := List.mem_flatMap.mp hn
    rw [List.eq_of_mem_replicate hmem, hone d hd] at hi
    exact UInt32.le_antisymm hi lo
  refine ⟨hones, hexact.modifier, ?_⟩
  rw [hexact.total, hones, outcomeSum_replicate_one]
  omega

theorem Ones.unique {e : Expr} {r q : Rolled} (hr : e.Ones r) (hq : e.Ones q) : r = q :=
  Rolled.eq_of_toInt_eq (hr.outcomes.trans hq.outcomes.symm)
    (hr.modifier.trans hq.modifier.symm) (hr.total.trans hq.total.symm)

/-- Rollers have no say in dice of one side. -/
theorem InOrder.unique_of_oneSided {es : List Expr} {rs qs : List Rolled} (hR : R.Proper)
    (hQ : Q.Proper) (hone : ∀ e ∈ es, e.OneSided) (h : InOrder R s es rs s')
    (h' : InOrder Q t es qs t') : rs = qs := by
  induction h generalizing qs t with
  | nil =>
      cases h'
      rfl
  | cons heval _ ih =>
      obtain ⟨he, hmore⟩ := List.forall_mem_cons.mp hone
      cases h' with
      | cons heval' hrest' =>
          rw [(he.ones hR heval).unique (he.ones hQ heval'), ih hmore hrest']

end Expr

namespace CommandLine

open DiceTray.Expr

/-! ## One run -/

section Run

variable {args : List String} {stdin : List UInt8} {text : String}

theorem run_of_error {error : ParseError} (hinput : input args stdin = some text)
    (hparse : Roll.parse text = .error error) (s : σ) :
    run R s args stdin = .rejected text error := by
  unfold run
  rw [hinput]
  dsimp only
  rw [hparse]

/-- What parses is rolled to its end. -/
theorem run_of_ok {es : List Expr} (hR : R.Serves) (hinput : input args stdin = some text)
    (hparse : Roll.parse text = .ok es) (s : σ) :
    ∃ rs s', InOrder R s es rs s' ∧ run R s args stdin = .rolled text (es.zip rs) := by
  obtain ⟨rs, s', hrs⟩ := exists_inOrder hR (moderate_of_parse hparse) s
  refine ⟨rs, s', hrs, ?_⟩
  unfold run
  rw [hinput]
  dsimp only
  rw [hparse]
  dsimp only
  rw [run_evalAll_eq_ok_iff.mpr hrs]

theorem stdout_rolled (text : String) (es : List Expr) (rs : List Rolled) :
    (Outcome.rolled text (es.zip rs)).stdout =
      s!"Parsing: {text}\n" ++ String.join (List.zipWith (fun e r => s!"{e}: {r}\n") es rs) := by
  show Outcome.announcement text ++ String.join ((es.zip rs).map (Function.uncurry Outcome.line)) = _
  rw [List.map_uncurry_zip_eq_zipWith]
  rfl

/-- Runs on one text of dice of one side come to the same. -/
theorem run_eq_of_oneSided {args' : List String} {stdin' : List UInt8} (hR : R.Proper)
    (hQ : Q.Proper) (hinput : input args stdin = some text)
    (hinput' : input args' stdin' = some text)
    (hone : ∀ es, Roll.parse text = .ok es → ∀ e ∈ es, e.OneSided) (s : σ) (t : τ) :
    run R s args stdin = run Q t args' stdin' := by
  cases hparse : Roll.parse text with
  | error error => rw [run_of_error hinput hparse, run_of_error hinput' hparse]
  | ok es =>
      obtain ⟨rs, s', hrs, hrun⟩ := run_of_ok hR.serves hinput hparse s
      obtain ⟨qs, t', hqs, hrun'⟩ := run_of_ok hQ.serves hinput' hparse t
      rw [hrun, hrun', hrs.unique_of_oneSided hR hQ (hone es hparse) hqs]

end Run

/-- The text that a run is given: the arguments with a blank between each two or,
where there are none, the first line of standard input. -/
inductive Given : List String → String → String → Prop
  | joined {arg : String} {args : List String} {stdin : String} :
      Given (arg :: args) stdin (" ".intercalate (arg :: args))
  | line {stdin text : String} (first : FirstLine stdin.toList text.toList) :
      Given [] stdin text

theorem Given.input_eq {args : List String} {stdin text : String} (h : Given args stdin text) :
    input args stdin.toUTF8.data.toList = some text := by
  cases h with
  | joined => rfl
  | line first => rw [input_nil, first.eq, String.ofList_toList]

theorem exists_given (args : List String) (stdin : String) : ∃ text, Given args stdin text := by
  cases args with
  | nil =>
      obtain ⟨line, first⟩ : ∃ line, FirstLine stdin.toList line := ⟨_, firstLine_takeWhile _⟩
      exact ⟨.ofList line, .line (by rwa [String.toList_ofList])⟩
  | cons arg args => exact ⟨_, .joined⟩

/-- **All or nothing.** With the seeded roller, or any other that always shows a
side of its dice, a run on any text either fails and prints nothing, or it
succeeds, announces the text and prints one line for each expression with its
result. Where all dice have one side, each total is the number of the dice with
the modifiers.

How a text of such dice, or a text that is no roll, arrives makes no difference:
as arguments that give the text when they are joined, or as the first line of
standard input with anything behind it. Neither does the roller. -/
theorem run_all_or_nothing :
    Roller.seeded.Proper ∧
    ∀ {σ : Type} {R : Roller σ}, R.Proper →
      (∀ (s : σ) (args : List String) (stdin : String),
        (∃ text, Given args stdin text) ∧
        ∀ text, Given args stdin text →
          (∀ error, Roll.parse text = .error error →
            (run R s args stdin.toUTF8.data.toList).exitCode = 1 ∧
            (run R s args stdin.toUTF8.data.toList).stdout = "") ∧
          ∀ es, Roll.parse text = .ok es →
            (run R s args stdin.toUTF8.data.toList).exitCode = 0 ∧
            ∃ rs s', InOrder R s es rs s' ∧ rs.length = es.length ∧
              (run R s args stdin.toUTF8.data.toList).stdout =
                s!"Parsing: {text}\n" ++
                  String.join (List.zipWith (fun e r => s!"{e}: {r}\n") es rs) ∧
              List.Forall₂ (fun e r => e.OneSided → e.Ones r) es rs) ∧
      ∀ (text : String) (args : List String), args ≠ [] → " ".intercalate args = text →
        '\n' ∉ text.toList → (∀ c ∈ text.toList.getLast?, c ≠ '\r') →
        (∀ es, Roll.parse text = .ok es → ∀ e ∈ es, e.OneSided) →
        ∀ {τ : Type} {Q : Roller τ}, Q.Proper → ∀ (s : σ) (t : τ) (stdin more : List UInt8),
          (run R s args stdin).exitCode =
            (run Q t [] (text.toUTF8.data.toList ++ 10 :: more)).exitCode ∧
          (run R s args stdin).stdout =
            (run Q t [] (text.toUTF8.data.toList ++ 10 :: more)).stdout := by
  refine ⟨Roller.proper_seeded, fun {σ R} hR =>
    ⟨fun s args stdin => ⟨exists_given args stdin, fun text h => ⟨?_, ?_⟩⟩, ?_⟩⟩
  · intro error hparse
    rw [run_of_error h.input_eq hparse]
    exact ⟨rfl, rfl⟩
  · intro es hparse
    obtain ⟨rs, s', hrs, hrun⟩ := run_of_ok hR.serves h.input_eq hparse s
    rw [hrun]
    exact ⟨rfl, rs, s', hrs, hrs.length_eq, stdout_rolled text es rs,
      hrs.forall₂ fun _ _ _ _ heval hone => hone.ones hR heval⟩
  · intro text args ne hargs feeds trimmed hone τ Q hQ s t stdin more
    have hinput : input args stdin = some text := by
      cases args with
      | nil => exact absurd rfl ne
      | cons arg args => exact congrArg some hargs
    rw [run_eq_of_oneSided hR hQ hinput (input_nil_append feeds trimmed more) hone s t]
    exact ⟨rfl, rfl⟩

/-- Three ones and a modifier, twice, and a one: as arguments, and as a line. -/
theorem run_all_or_nothing_ones :
    " ".intercalate ["2x", "3d1+4;", "d1"] = "2x 3d1+4; d1" ∧
      '\n' ∉ "2x 3d1+4; d1".toList ∧ (∀ c ∈ "2x 3d1+4; d1".toList.getLast?, c ≠ '\r') ∧
      ∃ es, Roll.parse "2x 3d1+4; d1" = .ok es ∧ (∀ e ∈ es, e.OneSided) ∧
        ∀ (seed : UInt64) (more : List UInt8),
          (run .seeded seed [] ("2x 3d1+4; d1".toUTF8.data.toList ++ 10 :: more)).exitCode = 0 ∧
          (run .seeded seed [] ("2x 3d1+4; d1".toUTF8.data.toList ++ 10 :: more)).stdout =
            "Parsing: 2x 3d1+4; d1\n" ++ "3d1+4: 7 <= [1, 1, 1] (modifier: 4)\n" ++
              "3d1+4: 7 <= [1, 1, 1] (modifier: 4)\n" ++ "1d1: 1 <= [1]\n" := by
  let three : Expr := .dice ⟨3, 1, 4, by decide, by decide⟩
  let one : Expr := .dice ⟨1, 1, 0, by decide, by decide⟩
  have hargs : " ".intercalate ["2x", "3d1+4;", "d1"] = "2x 3d1+4; d1" := by decide +kernel
  have feeds : '\n' ∉ "2x 3d1+4; d1".toList := by decide +kernel
  have hlast : "2x 3d1+4; d1".toList.getLast? = some '1' := by decide +kernel
  have trimmed : ∀ c ∈ "2x 3d1+4; d1".toList.getLast?, c ≠ '\r' := by
    rw [hlast]
    rintro _ ⟨⟩
    decide
  have hparse : Roll.parse "2x 3d1+4; d1" = .ok [three, three, one] := by decide +kernel
  have hone : ∀ e ∈ [three, three, one], e.OneSided := by
    simp [OneSided, three, one, leaves]
  refine ⟨hargs, feeds, trimmed, _, hparse, hone, fun seed more => ?_⟩
  obtain ⟨hseeded, hall⟩ := run_all_or_nothing
  obtain ⟨hnothing, hsame⟩ := hall hseeded
  obtain ⟨hexit, rs, -, -, -, hout, hones⟩ :=
    ((hnothing seed ["2x", "3d1+4;", "d1"] "").2 _ (hargs ▸ .joined)).2 _ hparse
  obtain ⟨hexit', hout'⟩ := hsame _ _ (List.cons_ne_nil _ _) hargs feeds trimmed
    (fun es h => by
      cases hparse.symm.trans h
      exact hone) hseeded seed seed "".toUTF8.data.toList more
  rw [← hexit', ← hout', hexit, hout]
  refine ⟨rfl, ?_⟩
  -- The results are known, since every die shows 1.
  have hthree : three.Ones ⟨[1, 1, 1], 4, 7⟩ := ⟨rfl, rfl, rfl⟩
  have hsingle : one.Ones ⟨[1], 0, 1⟩ := ⟨rfl, rfl, rfl⟩
  obtain _ | ⟨ha, _ | ⟨hb, _ | ⟨hc, _ | _⟩⟩⟩ := hones
  rw [(ha (hone three (by simp))).unique hthree, (hb (hone three (by simp))).unique hthree,
    (hc (hone one (by simp))).unique hsingle]
  decide +kernel

end CommandLine

end DiceTray
