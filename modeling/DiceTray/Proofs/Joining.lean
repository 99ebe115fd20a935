import DiceTray.Proofs.Alike
import DiceTray.Proofs.Blame

/-!
# Rolls one behind the other

Two texts with a `;` between them are read one after the other. If both are
rolls, so is the whole, and its expressions are those of the first and then
those of the second. If one of them is not, the whole fails as the first such
text does by itself.

Where the first text ends, readers now find the mark. None of them takes it for
a part of a clause, so a run on the first text is told from the run on the whole
by what it leaves and by what it blames at the very end (`Lengthened`). Behind
the mark the second text is read as if it stood alone, since readers know no
positions.
-/

namespace DiceTray

open Text

/-! ## Text behind a mark -/

namespace Text

variable {p : Char → Bool} {c : Char}

theorem takeWhile_append_stop (h : p c = false) (front back : List Char) :
    (front ++ c :: back).takeWhile p = front.takeWhile p := by
  induction front with
  | nil => simp [h]
  | cons d front ih =>
      rw [List.cons_append, List.takeWhile_cons, List.takeWhile_cons, ih]

theorem dropWhile_append_stop (h : p c = false) (front back : List Char) :
    (front ++ c :: back).dropWhile p = front.dropWhile p ++ c :: back := by
  induction front with
  | nil => simp [h]
  | cons d front ih =>
      rw [List.cons_append, List.dropWhile_cons, List.dropWhile_cons, ih]
      split <;> rfl

end Text

namespace Reader

variable {more : List Char}

/-- A text that goes on with `;`. -/
def Lengthens (more text text' : List Char) : Prop :=
  text' = text ++ ';' :: more

theorem dropBlank_append_semicolon (text more : List Char) :
    dropBlank (text ++ ';' :: more) = dropBlank text ++ ';' :: more :=
  dropWhile_append_stop (by decide) text more

/-- A fault of a text that goes on with `;`. Its place stays the same, but two
faults reach further: what is missing at the end has the mark in its place, and
what is left over ends where the text does. -/
inductive Lengthened (more : List Char) : Fault → Fault → Prop
  | kept {kind : ParseError.Kind} {start stop : List Char}
      (blames : OfWords kind ∨ kind = .chainTooLong) :
      Lengthened more ⟨kind, start, stop⟩
        ⟨kind, start ++ ';' :: more, stop ++ ';' :: more⟩
  | missing {what : String} {c : Char} {rest : List Char} :
      Lengthened more ⟨.expected what, c :: rest, rest⟩
        ⟨.expected what, c :: rest ++ ';' :: more, rest ++ ';' :: more⟩
  | missingAtEnd {what : String} :
      Lengthened more ⟨.expected what, [], []⟩ ⟨.expected what, ';' :: more, more⟩
  | trailing {start : List Char} :
      Lengthened more ⟨.trailingInput, start, []⟩
        ⟨.trailingInput, start ++ ';' :: more, []⟩

theorem number_lengthens :
    Relates (Lengthens more) (Lengthened more) Eq number number := by
  rintro text _ rfl
  unfold number
  dsimp only
  rw [dropBlank_append_semicolon, takeWhile_append_stop rfl, dropWhile_append_stop rfl]
  split
  · exact .ok rfl rfl
  · split
    · exact .ok rfl rfl
    · exact .error (.kept (Or.inl .overflow))

theorem literal_lengthens {c : Char} (hc : c ≠ ';') :
    Relates (Lengthens more) (Lengthened more) Eq (literal [c]) (literal [c]) := by
  rintro text _ rfl
  have hlong := dropBlank_append_semicolon text more
  cases hd : dropBlank text with
  | nil =>
      rw [hd, List.nil_append] at hlong
      rw [literal_of_head_ne (by simp [hd]), literal_of_head_ne (by simp [hlong, hc.symm]),
        hd, hlong]
      exact .ok rfl rfl
  | cons d rest =>
      rw [hd, List.cons_append] at hlong
      by_cases hcd : d = c
      · subst hcd
        rw [literal_of_head_eq hd, literal_of_head_eq hlong]
        exact .ok rfl rfl
      · rw [literal_of_head_ne (by simp [hd, hcd]), literal_of_head_ne (by simp [hlong, hcd]),
          hd, hlong]
        exact .ok rfl rfl

theorem keeps_lengthens : Keeps (Lengthens more) (Lengthened more) where
  here hT := by
    cases hT
    exact dropBlank_append_semicolon _ _
  number := number_lengthens
  literal c hc := by
    apply literal_lengthens
    rintro rfl
    exact absurd hc (by decide)
  expected what := by
    rintro text _ rfl
    show Alike _ _ _ (.error ⟨.expected what, dropBlank text, _⟩ _)
      (.error ⟨.expected what, dropBlank (text ++ ';' :: more), _⟩ _)
    rw [dropBlank_append_semicolon]
    cases dropBlank text with
    | nil => exact .error .missingAtEnd
    | cons c rest => exact .error .missing
  fault hkind hstart hstop := by
    cases hstart
    cases hstop
    exact .kept (Or.inl hkind)

theorem clause_lengthens :
    Relates (Lengthens more) (Lengthened more) Eq clause clause :=
  keeps_lengthens.clause fun hstart hstop => by
    cases hstart
    cases hstop
    exact .kept (Or.inr rfl)

/-! ## Whole rolls -/

/-- A whole roll is a clause with nothing behind it or, behind a `;`, another
whole roll. -/
theorem complete_clauses_eq :
    complete clauses = (do
      let es ← clause
      if ← literal [';'] then
        let more ← complete clauses
        return es ++ more
      else
        let text ← here
        unless text.isEmpty do
          throw ⟨.trailingInput, text, []⟩
        return es) := by
  unfold complete
  conv => lhs; rw [clauses_eq]
  rw [bind_assoc]
  refine bind_congr fun es => ?_
  rw [bind_assoc]
  refine bind_congr fun found => ?_
  cases found with
  | true =>
      simp only [if_true, bind_assoc, pure_bind]
      refine bind_congr fun more => bind_congr fun text => ?_
      split <;> simp
  | false => simp

/-- What comes of a roll whose expressions stand behind others. -/
def behind (es : List Expr) :
    EStateM.Result Fault (List Char) (List Expr) →
      EStateM.Result Fault (List Char) (List Expr)
  | .ok es' rest => .ok (es ++ es') rest
  | .error fault rest => .error fault rest

theorem behind_behind (es es' : List Expr)
    (result : EStateM.Result Fault (List Char) (List Expr)) :
    behind es (behind es' result) = behind (es ++ es') result := by
  cases result with
  | ok es'' rest => exact congrArg (EStateM.Result.ok · rest) (List.append_assoc ..).symm
  | error fault rest => rfl

section Steps

variable {text rest rest' : List Char} {es : List Expr}

theorem complete_clauses_of_error {fault : Fault} (h : clause text = .error fault rest) :
    complete clauses text = .error fault rest := by
  rw [complete_clauses_eq, bind_of_error h]

theorem complete_clauses_of_end (h : clause text = .ok es rest)
    (hd : dropBlank rest = []) : complete clauses text = .ok es [] := by
  have hmark : literal [';'] rest = .ok false [] := by
    rw [literal_of_head_ne (by simp [hd]), hd]
  rw [complete_clauses_eq, bind_of_ok h, bind_of_ok hmark]
  rfl

theorem complete_clauses_of_semicolon (h : clause text = .ok es rest)
    (hd : dropBlank rest = ';' :: rest') :
    complete clauses text = behind es (complete clauses rest') := by
  conv => lhs; rw [complete_clauses_eq]
  rw [bind_of_ok h, bind_of_ok (literal_of_head_eq hd), if_pos rfl]
  cases hrest : complete clauses rest' with
  | ok es' rest'' => exact bind_of_ok hrest
  | error fault rest'' => exact bind_of_error hrest

theorem complete_clauses_of_left {c : Char} (h : clause text = .ok es rest)
    (hd : dropBlank rest = c :: rest') (hc : c ≠ ';') :
    complete clauses text = .error ⟨.trailingInput, c :: rest', []⟩ (c :: rest') := by
  have hmark : literal [';'] rest = .ok false (c :: rest') := by
    rw [literal_of_head_ne (by simp [hd, hc]), hd]
  have hhere : here (c :: rest') = .ok (c :: rest') (c :: rest') := by
    rw [here_eq, dropBlank_cons_of_not_isBlank (isBlank_of_dropBlank_eq_cons hd)]
  rw [complete_clauses_eq, bind_of_ok h, bind_of_ok hmark, if_neg (by decide),
    bind_of_ok hhere]
  rfl

end Steps

/-- How the run on a text that goes on with `;` is told from the one on the text
alone. -/
inductive Joined (more : List Char) :
    EStateM.Result Fault (List Char) (List Expr) →
      EStateM.Result Fault (List Char) (List Expr) → Prop
  | goesOn {es : List Expr} {rest : List Char} :
      Joined more (.ok es rest) (behind es (complete clauses more))
  | fails {fault fault' : Fault} {rest rest' : List Char} :
      Lengthened more fault fault' → Joined more (.error fault rest) (.error fault' rest')

theorem Joined.behind {result result' : EStateM.Result Fault (List Char) (List Expr)}
    (h : Joined more result result') (es : List Expr) :
    Joined more (behind es result) (behind es result') := by
  cases h with
  | goesOn =>
      rw [behind_behind]
      exact .goesOn
  | fails hE => exact .fails hE

theorem joined_complete_clauses (text more : List Char) :
    Joined more (complete clauses text) (complete clauses (text ++ ';' :: more)) := by
  -- Every clause shortens the text.
  induction hn : text.length using Nat.strongRecOn generalizing text with
  | ind n ih =>
      subst hn
      have hclause := clause_lengthens text (text ++ ';' :: more) rfl
      generalize hrun : clause text = result at hclause
      generalize hlong : clause (text ++ ';' :: more) = result' at hclause
      cases hclause with
      | error hE =>
          rw [complete_clauses_of_error hrun, complete_clauses_of_error hlong]
          exact .fails hE
      | @ok es _ rest _ hV hT =>
          subst hV
          cases hT
          have hdrop := dropBlank_append_semicolon rest more
          cases hd : dropBlank rest with
          | nil =>
              rw [hd] at hdrop
              rw [complete_clauses_of_end hrun hd,
                complete_clauses_of_semicolon hlong hdrop]
              exact .goesOn
          | cons c rest' =>
              rw [hd] at hdrop
              by_cases hc : c = ';'
              · subst hc
                rw [complete_clauses_of_semicolon hrun hd,
                  complete_clauses_of_semicolon hlong hdrop]
                have shorter := Nat.lt_trans
                  (length_lt_of_literal (by simp) (literal_of_head_eq hd))
                  (shortens_clause _ _ _ hrun)
                exact (ih _ shorter rest' rfl).behind es
              · rw [complete_clauses_of_left hrun hd hc,
                  complete_clauses_of_left hlong hdrop hc]
                exact .fails .trailing

/-! ## Offsets -/

theorem blamed_of_complete_clauses {whole rest : List Char} {fault : Fault}
    (h : complete clauses whole = .error fault rest) : Blamed whole fault :=
  blamed_of_complete tracks_clauses h

end Reader

open Reader

/-- What is blamed lies in the text. -/
theorem Blamed.byteLength_le {whole : List Char} {fault : Fault} (h : Blamed whole fault) :
    byteLength fault.start ≤ byteLength whole ∧
      byteLength fault.stop ≤ byteLength whole := by
  obtain ⟨rfl, -⟩ := h
  simp only [byteLength_append]
  omega

namespace ParseError

/-- An error of a text that stands behind so many bytes. -/
def behind (error : ParseError) (length : Nat) : ParseError :=
  ⟨error.kind, error.span.start + length, error.span.stop + length⟩

/-- An error of a text of so many bytes that goes on with `;` up to a total. What
is left over ends with the whole text, and what is missing at the end of the
text has the mark in its place. -/
def inFront (error : ParseError) (length total : Nat) : ParseError :=
  match error.kind with
  | .trailingInput => ⟨error.kind, error.span.start, total⟩
  | .expected _ =>
    if error.span = ⟨length, length⟩ then ⟨error.kind, length, length + 1⟩ else error
  | _ => error

end ParseError

theorem Fault.toError_behind {fault : Fault} {whole : List Char}
    (h : Blamed whole fault) (length : Nat) :
    fault.toError (length + byteLength whole) =
      (fault.toError (byteLength whole)).behind length := by
  obtain ⟨hstart, hstop⟩ := h.byteLength_le
  simp only [Fault.toError, ParseError.behind, ParseError.mk.injEq, Span.mk.injEq,
    true_and]
  omega

/-- Places keep their offsets when the text goes on. -/
theorem Fault.toError_append (kind : ParseError.Kind) (start stop back : List Char)
    (length : Nat) :
    Fault.toError ⟨kind, start ++ back, stop ++ back⟩ (length + byteLength back) =
      Fault.toError ⟨kind, start, stop⟩ length := by
  simp only [Fault.toError, byteLength_append, Nat.add_sub_add_right]

theorem Fault.toError_inFront {fault fault' : Fault} {whole more : List Char}
    (h : Blamed whole fault) (hlong : Lengthened more fault fault') :
    fault'.toError (byteLength (whole ++ ';' :: more)) =
      (fault.toError (byteLength whole)).inFront (byteLength whole)
        (byteLength (whole ++ ';' :: more)) := by
  rw [byteLength_append]
  cases hlong with
  | kept blames =>
      rw [Fault.toError_append]
      rcases blames with (_ | _ | _) | rfl <;> rfl
  | @missing what c rest =>
      -- There is a character to blame, so the span is not the end of the text.
      have hstart := h.byteLength_le.1
      have hsize := c.utf8Size_pos
      rw [Fault.toError_append]
      refine (if_neg fun hspan => ?_).symm
      simp only [Fault.toError, Span.mk.injEq, byteLength_cons] at hspan hstart
      omega
  | missingAtEnd =>
      have hmark : byteLength (';' :: more) = 1 + byteLength more := byteLength_cons _ _
      simp only [Fault.toError, ParseError.inFront, byteLength_nil, Nat.sub_zero, if_true,
        ParseError.mk.injEq, Span.mk.injEq, true_and]
      omega
  | trailing =>
      simp only [Fault.toError, ParseError.inFront, byteLength_nil, byteLength_append,
        Nat.sub_zero, Nat.add_sub_add_right]

/-- **Rolls one behind the other.** If both texts are rolls, the whole is the
roll of the expressions of the first and then of the second. An error of the
second text is the same error further behind, and an error of the first text is
the same error at the same place, whatever the second is. -/
theorem Roll.parse_append (a b : String) :
    Roll.parse (a ++ ";" ++ b) =
      match Roll.parse a with
      | .error error =>
        .error (error.inFront a.utf8ByteSize (a ++ ";" ++ b).utf8ByteSize)
      | .ok es =>
        match Roll.parse b with
        | .error error => .error (error.behind (a.utf8ByteSize + 1))
        | .ok es' => .ok (es ++ es') := by
  have htext : lowerCase (a ++ ";" ++ b).toList =
      lowerCase a.toList ++ ';' :: lowerCase b.toList := by
    simp only [String.toList_append, lowerCase_append, List.append_assoc]
    rfl
  have hsize : (a ++ ";" ++ b).utf8ByteSize =
      byteLength (lowerCase a.toList ++ ';' :: lowerCase b.toList) := by
    rw [← htext, byteLength_lowerCase, byteLength_toList]
  have hjoined := joined_complete_clauses (lowerCase a.toList) (lowerCase b.toList)
  simp only [Roll.parse, parse_eq, htext, hsize, ← byteLength_toList a,
    ← byteLength_toList b, ← byteLength_lowerCase a.toList, ← byteLength_lowerCase b.toList]
  generalize ha : complete clauses (lowerCase a.toList) = result at hjoined
  generalize complete clauses (lowerCase a.toList ++ ';' :: lowerCase b.toList) =
    result' at hjoined
  cases hjoined with
  | fails hlong =>
      exact congrArg Except.error
        (Fault.toError_inFront (blamed_of_complete_clauses ha) hlong)
  | @goesOn es rest =>
      cases hb : complete clauses (lowerCase b.toList) with
      | ok es' rest' => rfl
      | error fault rest' =>
          have hbehind := Fault.toError_behind (blamed_of_complete_clauses hb)
            (byteLength (lowerCase a.toList) + 1)
          refine congrArg Except.error (Eq.trans ?_ hbehind)
          rw [byteLength_append, byteLength_cons, Nat.add_assoc]
          rfl

end DiceTray
