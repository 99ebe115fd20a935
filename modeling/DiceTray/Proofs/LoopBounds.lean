import DiceTray.Proofs.Passes

/-!
# What loops come to

The loop over `&` makes a chain of what its first term and its passes have read,
and the loop over `;` makes a roll of what its clauses come to. Both are bounded
by the text that they have gone over. A term takes two bytes and each separator
one more, so there are no more terms or clauses than a third of the bytes, up to
rounding, and a tree is no deeper than it has terms. Only the copies of a clause
are not paid for one by one, and there are at most 1024 of them.
-/

namespace DiceTray.Cursor

open Text

variable {α β ε : Type} {n : Nat} {c c' : Cursor}

/-! ## Passes that are paid for -/

theorem placeOf_of_isBoundary {whole : List Char} {start : Nat} (h : IsBoundary whole start) :
    PlaceOf whole start (dropBytes start whole) := by
  have := h.byteLength_eq
  unfold PlaceOf
  omega

theorem paid_termPass {whole : List Char} {start : Nat} (hstart : IsBoundary whole start) :
    Paid whole 0 (termPass start) :=
  paid_of_takes (follows_termPass (placeOf_of_isBoundary hstart)) (Reader.takes_termPass _)

theorem paid_clausePass (whole : List Char) : Paid whole 2 clausePass :=
  paid_of_takes follows_clausePass Reader.takes_clausePass

/-! ## What passes gather -/

theorem turn_of_run_termPass {start : Nat} {gathered : List Dice} {turn : Turn (List Dice)}
    (hstart : IsBoundary c.text start) (h : IsBoundary c.text c.position)
    (hrun : (termPass start gathered).run c = .ok turn c') :
    turn = .ended gathered ∨ ∃ d, turn = .again (gathered ++ [d]) := by
  obtain ⟨rest, hread, -⟩ :=
    (follows_termPass (placeOf_of_isBoundary hstart) gathered).exists_of_ok h hrun
  exact Reader.turn_of_termPass hread

/-- Every pass but the last adds a term. -/
theorem Runs.length_terms {start : Nat} {gathered all : List Dice}
    {result : EStateM.Result ParseError Cursor (List Dice)}
    (hruns : Runs (termPass start) n gathered c result) (hok : result = .ok all c')
    (hstart : IsBoundary c.text start) (h : IsBoundary c.text c.position) :
    all.length + 1 = gathered.length + n := by
  induction hruns with
  | ended hrun =>
      cases hok
      rcases turn_of_run_termPass hstart h hrun with hturn | ⟨d, hturn⟩
      · cases hturn
        rfl
      · cases hturn
  | fault _ => cases hok
  | again hrun _ ih =>
      have hfurther := paid_termPass hstart rfl h hrun
      have hlength := ih hok (hfurther.text_eq.symm ▸ hstart) hfurther.place
      rcases turn_of_run_termPass hstart h hrun with hturn | ⟨d, hturn⟩
      · cases hturn
      · cases hturn
        rw [List.length_append, List.length_singleton] at hlength
        omega

/-- A pass over a clause adds copies of an expression, which it has paid for once. -/
theorem gathered_of_run_clausePass {gathered : List Expr} {turn : Turn (List Expr)}
    (h : IsBoundary c.text c.position) (hrun : (clausePass gathered).run c = .ok turn c') :
    ∃ copies e, turn.gathered = gathered ++ List.replicate copies e ∧
      copies ≤ maxRepeats ∧ e.leaves.length ≤ maxTerms ∧
      Further (3 * e.leaves.length - 1) c c' := by
  obtain ⟨rest, hread, hfurther⟩ := (follows_clausePass gathered).exists_of_ok h hrun
  obtain ⟨copies, e, hturn, hcopies, hleaves, hbytes⟩ := Reader.gathered_of_clausePass hread
  exact ⟨copies, e, hturn, hcopies, hleaves, hfurther _ hbytes⟩

/-- What a loop over clauses has gathered, each expression within the limits and
paid for on its own. -/
theorem Runs.gathered_clauses {gathered es : List Expr}
    {result : EStateM.Result ParseError Cursor (List Expr)}
    (hruns : Runs clausePass n gathered c result) (hok : result = .ok es c')
    (h : IsBoundary c.text c.position) :
    ∃ more, es = gathered ++ more ∧ more.length ≤ maxRepeats * n ∧
      ∀ e ∈ more, e.leaves.length ≤ maxTerms ∧ Further (3 * e.leaves.length - 1) c c' := by
  induction hruns with
  | ended hrun =>
      cases hok
      obtain ⟨copies, e, hes, hcopies, hleaves, hfurther⟩ := gathered_of_run_clausePass h hrun
      refine ⟨List.replicate copies e, hes, ?_, fun e' he' => ?_⟩
      · rw [List.length_replicate, Nat.mul_one]
        exact hcopies
      · rw [List.eq_of_mem_replicate he']
        exact ⟨hleaves, hfurther⟩
  | fault _ => cases hok
  | again hrun hruns ih =>
      obtain ⟨copies, e, hturn, hcopies, hleaves, hfirst⟩ := gathered_of_run_clausePass h hrun
      obtain ⟨more, rfl, hlength, hmore⟩ := ih hok hfirst.place
      have hlater := hruns.further (paid_clausePass _) hok rfl hfirst.place
      refine ⟨List.replicate copies e ++ more, ?_, ?_, fun e' he' => ?_⟩
      · rw [← List.append_assoc]
        exact congrArg (· ++ more) hturn
      · rw [List.length_append, List.length_replicate, Nat.mul_succ, Nat.add_comm]
        exact Nat.add_le_add hlength hcopies
      · rcases List.mem_append.mp he' with hcopy | hother
        · rw [List.eq_of_mem_replicate hcopy]
          exact ⟨hleaves, (hfirst.trans hlater).mono (Nat.le_add_right _ _)⟩
        · obtain ⟨hleaves', hfurther⟩ := hmore e' hother
          exact ⟨hleaves', (hfirst.trans hfurther).mono (Nat.le_add_left _ _)⟩

/-! ## Loops in productions -/

/-- How an attempt from `c` ends, by how what is attempted ends. -/
def attempted (c : Cursor) (f : α → β) :
    EStateM.Result ε Cursor α → EStateM.Result ε Cursor β
  | .ok a c' => .ok (f a) c'
  | .error error _ => .error error c

section Attempts

variable {p : Reader α} {rest : List Char}

theorem run_attempt_read_of_ok {a : α} (h : p c.rest = .ok a rest) :
    (attempt (read p)).run c = .ok a (facing c.text rest) :=
  run_attempt_of_ok (run_read_eq_ok_iff.mpr ⟨rest, h, rfl⟩)

theorem run_attempt_read_of_error {fault : Fault} (h : p c.rest = .error fault rest) :
    (attempt (read p)).run c = .error (fault.toError (byteLength c.text)) c := by
  have hrun : (read p).run c = .error (fault.toError (byteLength c.text)) (c.moveTo rest) :=
    run_read_eq_error_iff.mpr ⟨fault, rest, h, rfl, rfl⟩
  have hback := run_attempt_of_error hrun
  exact hback

/-- An attempt at a reader that does what a loop does, and something with the
value. -/
theorem run_attempt_read_eq_attempted {q : Reader β} {f : β → α}
    {result : EStateM.Result ParseError Cursor β}
    (hp : p c.rest = (do return f (← q)) rest) (h : Ends c.text Eq result (q rest)) :
    (attempt (read p)).run c = attempted c f result := by
  generalize hq : q rest = result' at h
  cases h with
  | ok hV _ =>
      subst hV
      exact run_attempt_read_of_ok (hp.trans (Reader.bind_of_ok hq))
  | error => exact run_attempt_read_of_error (hp.trans (Reader.bind_of_error hq))

end Attempts

/-- Without its first term there is no chain. -/
theorem run_chain_of_term_error {error : ParseError} (h : term.run c = .error error c') :
    chain.run c = .error error c := by
  cases hread : Reader.term c.rest with
  | ok d rest =>
      have hterm : term.run c = .ok d _ := run_attempt_read_of_ok hread
      rw [hterm] at h
      cases h
  | error fault rest =>
      have hterm : term.run c = .error _ c := run_attempt_read_of_error hread
      rw [hterm] at h
      cases h
      exact run_attempt_read_of_error
        ((Reader.bind_of_ok (Reader.get_eq _)).trans (Reader.bind_of_error hread))

section Places

variable (h : IsBoundary c.text c.position)

include h

theorem further_of_term {first : Dice} (hterm : term.run c = .ok first c') :
    Further 2 c c' :=
  (follows_read Reader.trailing_term).attempt.further Reader.takes_term h hterm

/-- Behind its first term a chain is read by its loop. -/
theorem run_chain_eq_attempted {first : Dice}
    {result : EStateM.Result ParseError Cursor (List Dice)} (hterm : term.run c = .ok first c')
    (hruns : Runs (termPass c.position) n [] c' result) :
    chain.run c = attempted c (Expr.chain first) result := by
  rw [eq_facing h] at hterm
  obtain ⟨rest, hread, hrest, rfl⟩ :=
    (follows_read Reader.trailing_term).attempt.exists_facing_of_ok c.rest_suffix hterm
  have hends := hruns.ends (follows_termPass (placeOf_of_isBoundary h))
    (Reader.unrolls_moreTerms _) hrest rfl
  refine run_attempt_read_eq_attempted ?_ hends
  refine (Reader.bind_of_ok (Reader.get_eq _)).trans ((Reader.bind_of_ok hread).trans ?_)
  simp [Cursor.rest]

theorem run_clauses_eq_attempted {result : EStateM.Result ParseError Cursor (List Expr)}
    (hruns : Runs clausePass n [] c result) : clauses.run c = attempted c id result := by
  have hends := hruns.ends follows_clausePass Reader.unrolls_clauses c.rest_suffix (eq_facing h)
  refine run_attempt_read_eq_attempted ?_ hends
  simp

/-- A chain that is read has a pass for each of its terms. -/
theorem exists_runs_of_chain {e : Expr} (hrun : chain.run c = .ok e c') :
    ∃ first more c'', term.run c = .ok first c'' ∧ e = .chain first more ∧
      Runs (termPass c.position) e.leaves.length [] c'' (.ok more c') := by
  cases hterm : term.run c with
  | error error c'' =>
      rw [run_chain_of_term_error hterm] at hrun
      cases hrun
  | ok first c'' =>
      have hfirst := further_of_term h hterm
      obtain ⟨n, result, hruns, -⟩ :=
        Runs.exists_of_paid (paid_termPass h) [] hfirst.text_eq hfirst.place
      rw [run_chain_eq_attempted h hterm hruns] at hrun
      cases result with
      | error error last => cases hrun
      | ok more last =>
          cases hrun
          -- One term was read in front of the loop, and the last pass reads none.
          have hlength := hruns.length_terms rfl (hfirst.text_eq.symm ▸ h) hfirst.place
          refine ⟨first, more, c'', rfl, rfl, ?_⟩
          rw [Expr.leaves_chain, List.length_cons, hlength, List.length_nil, Nat.zero_add]
          exact hruns

theorem exists_runs_of_clauses {es : List Expr} (hrun : clauses.run c = .ok es c') :
    ∃ k, Runs clausePass k [] c (.ok es c') := by
  obtain ⟨k, result, hruns, -⟩ := Runs.exists_of_paid (paid_clausePass c.text) [] rfl h
  rw [run_clauses_eq_attempted h hruns] at hrun
  cases result with
  | error error last => cases hrun
  | ok all last =>
      cases hrun
      exact ⟨k, hruns⟩

theorem further_of_chain {e : Expr} (hrun : chain.run c = .ok e c') :
    Further (3 * e.leaves.length - 1) c c' :=
  (follows_read Reader.trailing_chain).attempt.further Reader.takes_chain h hrun

end Places

/-- **Bounded loops.** From any place of a text the loop over `&` and the loop over
`;` come to an end, after no more passes than a third of the bytes in front of
them, and one. Every pass that is not the last goes over three bytes at least.
Chains and rolls of clauses are what these loops come to. So what is read has
taken three bytes for each of its terms or clauses, less the separator that the
first of them has not. Of what a roll of clauses comes to, no expression has more
than 1024 leaves, or more than a third of the bytes, and none is deeper. There are
at most 1024 expressions for each three bytes. -/
theorem loops_bounded (h : IsBoundary c.text c.position) :
    ((∀ start gathered, IsBoundary c.text start →
        ∃ n result, Runs (termPass start) n gathered c result ∧
          3 * n ≤ byteLength c.text - c.position + 3) ∧
      ∀ gathered, ∃ n result, Runs clausePass n gathered c result ∧
        3 * n ≤ byteLength c.text - c.position + 3) ∧
    ((∀ start gathered more c', IsBoundary c.text start →
        (termPass start gathered).run c = .ok (.again more) c' →
          c.position + 3 ≤ c'.position) ∧
      ∀ gathered more c', (clausePass gathered).run c = .ok (.again more) c' →
        c.position + 3 ≤ c'.position) ∧
    ((∀ error c', term.run c = .error error c' → chain.run c = .error error c) ∧
      (∀ first c' n result, term.run c = .ok first c' →
        Runs (termPass c.position) n [] c' result →
          chain.run c = attempted c (Expr.chain first) result) ∧
      ∀ n result, Runs clausePass n [] c result → clauses.run c = attempted c id result) ∧
    (∀ e c', chain.run c = .ok e c' →
      (∃ first more c'', term.run c = .ok first c'' ∧ e = .chain first more ∧
        Runs (termPass c.position) e.leaves.length [] c'' (.ok more c')) ∧
      c.position + 3 * e.leaves.length - 1 ≤ c'.position ∧
      c'.position ≤ byteLength c.text) ∧
    (∀ es c', clauses.run c = .ok es c' → ∃ k, Runs clausePass k [] c (.ok es c')) ∧
    ∀ k es c', Runs clausePass k [] c (.ok es c') →
      c.position + 3 * k - 1 ≤ c'.position ∧ c'.position ≤ byteLength c.text ∧
      es.length ≤ 1024 * ((c'.position - c.position + 1) / 3) ∧
      ∀ e ∈ es, e.leaves.length ≤ min 1024 ((c'.position - c.position + 1) / 3) ∧
        e.depth ≤ min 1024 ((c'.position - c.position + 1) / 3) := by
  refine ⟨⟨fun start gathered hstart => ?_, fun gathered => ?_⟩,
    ⟨fun start gathered more c' hstart hrun => ?_, fun gathered more c' hrun => ?_⟩,
    ⟨fun _ _ => run_chain_of_term_error, fun _ _ _ _ => run_chain_eq_attempted h,
      fun _ _ => run_clauses_eq_attempted h⟩,
    fun e c' hrun => ⟨exists_runs_of_chain h hrun, ?_⟩,
    fun _ _ => exists_runs_of_clauses h, fun k es c' hruns => ?_⟩
  · exact Runs.exists_of_paid (paid_termPass hstart) gathered rfl h
  · exact Runs.exists_of_paid (paid_clausePass c.text) gathered rfl h
  · exact (paid_termPass hstart rfl h hrun).le
  · exact (paid_clausePass c.text rfl h hrun).le
  · have hfurther := further_of_chain h hrun
    have hpos := List.length_pos_iff.mpr e.leaves_ne_nil
    have hle := hfurther.le
    exact ⟨by omega, hfurther.le_byteLength⟩
  · have hfurther := hruns.further (paid_clausePass c.text) rfl rfl h
    obtain ⟨more, hes, hlength, hmore⟩ := hruns.gathered_clauses rfl h
    rw [List.nil_append] at hes
    subst hes
    have hle := hfurther.le
    change es.length ≤ 1024 * k at hlength
    refine ⟨by omega, hfurther.le_byteLength, by omega, fun e he => ?_⟩
    obtain ⟨hleaves, hown⟩ := hmore e he
    have hdepth := e.depth_le_length_leaves
    have hpaid := hown.le
    change e.leaves.length ≤ 1024 at hleaves
    omega

/-- Two clauses behind another one. The second is asked for no times. -/
theorem loops_bounded_behind_clause :
    let text := "d4; 2x d6&d8;0xd4 ".toList
    let e : Expr := .chain ⟨1, 6, 0, by decide, by decide⟩ [⟨1, 8, 0, by decide, by decide⟩]
    IsBoundary text 3 ∧ Runs clausePass 2 [] ⟨text, 3⟩ (.ok [e, e] ⟨text, 18⟩) ∧
      clauses.run ⟨text, 3⟩ = .ok [e, e] ⟨text, 18⟩ ∧
      3 + 3 * 2 - 1 ≤ 18 ∧ [e, e].length ≤ 1024 * ((18 - 3 + 1) / 3) ∧
      e.depth ≤ min 1024 ((18 - 3 + 1) / 3) := by
  intro text e
  have h : IsBoundary text 3 := ⟨['d', '4', ';'], _, rfl, rfl⟩
  have hfirst : (clausePass []).run ⟨text, 3⟩ = .ok (.again [e, e]) ⟨text, 13⟩ := by
    decide +kernel
  have hlast : (clausePass [e, e]).run ⟨text, 13⟩ = .ok (.ended [e, e]) ⟨text, 18⟩ := by
    decide +kernel
  have hruns : Runs clausePass 2 [] ⟨text, 3⟩ (.ok [e, e] ⟨text, 18⟩) :=
    .again hfirst (.ended hlast)
  obtain ⟨-, -, ⟨-, -, hclauses⟩, -, -, hbounds⟩ := @loops_bounded ⟨text, 3⟩ h
  obtain ⟨hbytes, -, hlength, hsize⟩ := hbounds 2 [e, e] _ hruns
  exact ⟨h, hruns, hclauses 2 _ hruns, hbytes, hlength, (hsize e List.mem_cons_self).2⟩

end DiceTray.Cursor
