import DiceTray.Proofs.Alike
import DiceTray.Proofs.Recognition

/-!
# One text read in three ways

A text can be read as one set of dice, as one expression, or as a whole roll.
Each way accepts what the one before it does, with the same dice. Where the text
has none of the marks that only the wider reading knows (`&` between terms, `x`
behind a repeat count, `;` between clauses), the two also refuse it for the same
reason and blame the same part of it. The single exception is a chain with too
many terms: it begins where its reader does, which is at the start of the text
for an expression and at the first word for a clause.
-/

namespace DiceTray

open Text

/-! ## What is accepted -/

namespace Grammar

/-- The marks of a chain are those of its terms and the one between them. -/
theorem Chain.mem {ts : List Token} {e : Expr} (h : Chain ts e) {c : Char}
    (hc : .mark c ∈ ts) : (c = 'd' ∨ c = '+' ∨ c = '-') ∨ c = '&' := by
  obtain ⟨hs, -, -⟩ := h
  generalize e.leaves = ds at hs
  induction hs with
  | one hterm => exact Or.inl (hterm.mem hc)
  | more hterm _ ih =>
      rw [List.mem_append, List.mem_cons] at hc
      rcases hc with hc | hc | hc
      · exact Or.inl (hterm.mem hc)
      · exact Or.inr (Token.mark.inj hc)
      · exact ih hc

/-- One set of dice is a chain of one term. -/
theorem chain_dice_iff {ts : List Token} {d : Dice} :
    Chain ts (.dice d) ↔ Term ts d := by
  constructor
  · intro h
    rcases series_cons_iff.mp h.terms with ⟨-, hterm⟩ | ⟨_, _, _, _, hs⟩
    · exact hterm
    · exact absurd hs series_nil
  · intro h
    exact ⟨.one h, by simp [Expr.leaves], trivial⟩

/-- Without a repeat count a clause gives one expression. -/
theorem Clause.of_free {ts : List Token} {es : List Expr} (h : Clause ts es)
    (free : .mark 'x' ∉ ts) : ∃ e, es = [e] ∧ Chain ts e := by
  cases h with
  | once he => exact ⟨_, rfl, he⟩
  | times _ _ => simp at free

/-- A roll of one expression and without a repeat count is a chain. -/
theorem roll_singleton_iff {ts : List Token} {e : Expr} (free : .mark 'x' ∉ ts) :
    Roll ts [e] ↔ Chain ts e := by
  constructor
  · intro h
    generalize hes : [e] = es at h
    obtain ⟨hs⟩ := h
    cases hs with
    | one hclause =>
        obtain ⟨e', rfl, he⟩ := hclause.of_free free
        cases hes
        exact he
    | @more front rest part parts hclause hrest =>
        -- A further clause has an expression of its own.
        exfalso
        simp only [List.mem_append, List.mem_cons, not_or] at free
        obtain ⟨e', rfl, -⟩ := hclause.of_free free.1
        rw [List.flatten_cons, List.singleton_append] at hes
        have hnil : parts.flatten = [] := (List.cons.inj hes).2.symm
        cases hrest with
        | one hclause' =>
            obtain ⟨e'', rfl, -⟩ := hclause'.of_free free.2.2
            simp at hnil
        | more hclause' _ =>
            obtain ⟨e'', rfl, -⟩ := hclause'.of_free fun hmem =>
              free.2.2 (List.mem_append_left _ hmem)
            simp at hnil
  · intro h
    exact .intro (.one (.once h))

end Grammar

/-- A text has no repeat count where no letter for one is in it. -/
theorem x_mem_tokensOf_iff {text : String} :
    .mark 'x' ∈ Reader.tokensOf text ↔ 'x' ∈ text.toList ∨ 'X' ∈ text.toList :=
  (mark_mem_tokens_iff (by decide) (by decide)).trans x_mem_lowerCase_iff

/-! ## What is refused -/

namespace Reader

variable {text : List Char}

/-- A mark is not found in a text that has none of its kind. -/
theorem literal_of_not_mem {c : Char} (h : c ∉ text) :
    literal [c] text = .ok false (dropBlank text) := by
  apply literal_of_head_ne
  intro hhead
  exact h ((dropBlank_suffix text).subset (List.mem_of_mem_head? hhead))

/-- What a reader leaves has no characters but those of its text. -/
theorem Trailing.not_mem {α : Type} {p : Reader α} (hp : Trailing p) {a : α}
    {rest : List Char} (hrun : p text = .ok a rest) {c : Char} (h : c ∉ text) :
    c ∉ rest := by
  have hsuffix := hp text
  rw [hrun] at hsuffix
  exact fun hmem => h (hsuffix.subset hmem)

/-- Texts with the same words, whatever blanks they begin with. -/
def SameWords (text text' : List Char) : Prop :=
  dropBlank text = dropBlank text'

/-- Two runs that leave the same words go on alike to the end. -/
theorem Alike.complete_sameWords {α β : Type} {E : Fault → Fault → Prop}
    {V : α → β → Prop} {p : Reader α} {q : Reader β} {text' : List Char}
    (h : Alike SameWords E V (p text) (q text'))
    (trailing : ∀ start, E ⟨.trailingInput, start, []⟩ ⟨.trailingInput, start, []⟩) :
    Alike SameWords E V (Reader.complete p text) (Reader.complete q text') := by
  apply h.complete
  · intro rest rest' hT
    rw [hT]
    rfl
  · intro rest rest' hT
    rw [hT]
  · intro rest rest' hT
    rw [hT]
    exact trailing _

/-! ### Terms and chains -/

/-- Without `&` a chain is its first term. -/
theorem chain_alike_term (free : '&' ∉ text) :
    Alike SameWords Eq (fun d e => e = Expr.dice d) (term text) (chain text) := by
  show Alike _ _ _ _ ((get >>= fun start => term >>= fun first =>
    moreTerms start (maxTerms - 1) >>= fun more => pure (Expr.chain first more)) text)
  rw [bind_of_ok (get_eq text)]
  cases hrun : term text with
  | error fault rest =>
      rw [bind_of_error hrun]
      exact .error rfl
  | ok d rest =>
      have hmore : moreTerms text (maxTerms - 1) rest = .ok [] (dropBlank rest) := by
        have hmark := literal_of_not_mem (trailing_term.not_mem hrun free)
        show moreTerms text 1023 rest = _
        rw [moreTerms, bind_of_ok hmark]
        rfl
      rw [bind_of_ok hrun, bind_of_ok hmore]
      exact .ok rfl (dropBlank_dropBlank rest).symm

/-! ### Chains and rolls -/

/-- Faults of an expression and of a roll on one text. They are the same, but
for the place where a chain that is too long begins. -/
inductive SameBlame (text : List Char) : Fault → Fault → Prop
  | same {fault : Fault} : fault.kind ≠ .chainTooLong → SameBlame text fault fault
  | tooLong {stop : List Char} :
      SameBlame text ⟨.chainTooLong, text, stop⟩ ⟨.chainTooLong, dropBlank text, stop⟩

/-- A reader that blames words only does so on the same text. -/
theorem relates_sameBlame {α : Type} {p : Reader α}
    (h : ∀ s fault rest, p s = .error fault rest → fault.kind ≠ .chainTooLong) :
    Relates Eq (SameBlame text) Eq p p :=
  relates_self fun s fault rest hrun => .same (h s fault rest hrun)

theorem keeps_sameBlame : Keeps Eq (SameBlame text) where
  here h := congrArg dropBlank h
  number := relates_sameBlame fun s fault rest hrun => by
    rw [kind_of_number hrun]
    decide
  literal c _ := relates_sameBlame fun s fault rest hrun =>
    absurd hrun literal_ne_error
  expected what := relates_sameBlame fun s fault rest hrun => by
    cases hrun
    simp
  fault hkind hstart hstop := by
    subst hstart hstop
    apply SameBlame.same
    rcases hkind with _ | _ | _ <;> simp

/-- A term begins with its first word. -/
theorem term_dropBlank (text : List Char) : term (dropBlank text) = term text := by
  have hhere : here (dropBlank text) = here text := by
    rw [here_eq, here_eq, dropBlank_dropBlank]
  unfold term
  rw [bind_of_ok (here_eq text), bind_of_ok (hhere.trans (here_eq text))]

/-- A chain that is read from its first word on ends as from the start of the
text, but for the place where it began. -/
theorem chain_alike_dropBlank (text : List Char) :
    Alike Eq (SameBlame text) Eq (chain text) (chain (dropBlank text)) := by
  have hk : Keeps Eq (SameBlame text) := keeps_sameBlame
  unfold chain
  rw [bind_of_ok (get_eq text), bind_of_ok (get_eq (dropBlank text))]
  have hterm : Alike Eq (SameBlame text) Eq (term text) (term (dropBlank text)) := by
    rw [term_dropBlank]
    exact hk.term text text rfl
  apply hterm.bind
  rintro d _ rest _ - - rfl rfl
  apply (hk.moreTerms ?_ (maxTerms - 1) rest rest rfl).bind
  · rintro ds _ rest' _ - - rfl rfl
    exact .ok rfl rfl
  · rintro stop _ rfl
    exact .tooLong

/-- Where there is no `x`, there is no repeat count. -/
theorem repeats_of_free (free : 'x' ∉ text) :
    repeats text = .ok 1 (dropBlank text) := by
  have hnone : lookFor (do
      let count ← number
      return if ← literal ['x'] then count else none) (dropBlank text) =
        .ok none (dropBlank text) := by
    unfold lookFor
    cases hrun : number (dropBlank text) with
    | error fault rest => rw [bind_of_error hrun]
    | ok count rest =>
        have hfree : 'x' ∉ rest := trailing_number.not_mem hrun fun hmem =>
          free ((dropBlank_suffix text).subset hmem)
        rw [bind_of_ok hrun, bind_of_ok (literal_of_not_mem hfree)]
        rfl
  unfold repeats
  rw [bind_of_ok (here_eq text), bind_of_ok hnone]
  rfl

/-- Without `x` and `;` a roll is the chain behind the blanks of its text. -/
theorem chain_alike_clauses (free : 'x' ∉ text) (single : ';' ∉ text) :
    Alike SameWords (SameBlame text) (fun e es => es = [e]) (chain text)
      (clauses text) := by
  have hclause : clause text =
      (chain >>= fun e => pure (List.replicate 1 e)) (dropBlank text) :=
    bind_of_ok (repeats_of_free free)
  have hchain := chain_alike_dropBlank text
  generalize chain text = result at hchain
  generalize hrun : chain (dropBlank text) = result' at hchain
  rw [clauses_eq]
  cases hchain with
  | error hE =>
      rw [bind_of_error (hclause.trans (bind_of_error hrun))]
      exact .error hE
  | @ok e _ rest _ he hrest =>
      subst he hrest
      have hmark : literal [';'] rest = .ok false (dropBlank rest) :=
        literal_of_not_mem (trailing_chain.not_mem hrun fun hmem =>
          single ((dropBlank_suffix text).subset hmem))
      rw [bind_of_ok (hclause.trans (bind_of_ok hrun)), bind_of_ok hmark]
      exact .ok rfl (dropBlank_dropBlank rest).symm

end Reader

/-! ## Whole texts -/

/-- Punctuation is in a text as it is read only where it was given. -/
theorem not_mem_lowerCase {c : Char} (small : c.toNat < 97) {text : List Char}
    (h : c ∉ text) : c ∉ lowerCase text := by
  intro hmem
  rcases mem_lowerCase hmem with hmem | ⟨d, -, lo, -, hd⟩
  · exact h hmem
  · omega

/-- The first word stands as many bytes into a text as its blanks take up. -/
theorem byteLength_sub_dropBlank (text : List Char) :
    byteLength (lowerCase text) - byteLength (dropBlank (lowerCase text)) =
      byteLength (text.takeWhile isBlank) := by
  have happend : byteLength ((lowerCase text).takeWhile isBlank) +
      byteLength (dropBlank (lowerCase text)) = byteLength (lowerCase text) := by
    rw [← byteLength_append]
    exact congrArg byteLength List.takeWhile_append_dropWhile
  rw [← happend, takeWhile_isBlank_lowerCase, byteLength_lowerCase, Nat.add_sub_cancel]

section WholeTexts

variable {text : String}

theorem Dice.parse_eq_ok_iff_expr {d : Dice} :
    Dice.parse text = .ok d ↔ Expr.parse text = .ok (.dice d) := by
  rw [Dice.parse_eq_ok_iff, Expr.parse_eq_ok_iff, Grammar.chain_dice_iff]

theorem Expr.parse_eq_ok_iff_roll {e : Expr} :
    Expr.parse text = .ok e ↔
      Roll.parse text = .ok [e] ∧ 'x' ∉ text.toList ∧ 'X' ∉ text.toList := by
  rw [Expr.parse_eq_ok_iff, Roll.parse_eq_ok_iff, ← not_or, ← x_mem_tokensOf_iff]
  constructor
  · intro h
    -- No mark of a chain is an `x`.
    have free : .mark 'x' ∉ Reader.tokensOf text := fun hmem => by
      rcases h.mem hmem with (h | h | h) | h <;> revert h <;> decide
    exact ⟨(Grammar.roll_singleton_iff free).mpr h, free⟩
  · rintro ⟨h, free⟩
    exact (Grammar.roll_singleton_iff free).mp h

theorem Dice.parse_eq_error_iff_expr (free : '&' ∉ text.toList) {error : ParseError} :
    Dice.parse text = .error error ↔ Expr.parse text = .error error := by
  have halike := (Reader.chain_alike_term
    (not_mem_lowerCase (by decide) free)).complete_sameWords fun _ => rfl
  unfold Dice.parse Expr.parse
  rcases halike.parse with ⟨d, e, -, hd, he⟩ | ⟨fault, _, rfl, hd, he⟩
  · rw [hd, he]
    simp
  · rw [hd, he, Except.error.injEq, Except.error.injEq]

/-- How an expression and a roll come out of one text that has no mark which only
a roll knows. -/
theorem outcomes_of_single (small : 'x' ∉ text.toList) (capital : 'X' ∉ text.toList)
    (single : ';' ∉ text.toList) :
    (∃ e, Expr.parse text = .ok e ∧ Roll.parse text = .ok [e]) ∨
      (∃ error, error.kind ≠ .chainTooLong ∧ Expr.parse text = .error error ∧
        Roll.parse text = .error error) ∨
      ∃ stop, Expr.parse text = .error ⟨.chainTooLong, ⟨0, stop⟩⟩ ∧
        Roll.parse text = .error
          ⟨.chainTooLong, ⟨byteLength (text.toList.takeWhile isBlank), stop⟩⟩ := by
  have free : 'x' ∉ lowerCase text.toList := by
    rw [x_mem_lowerCase_iff, not_or]
    exact ⟨small, capital⟩
  have halike := (Reader.chain_alike_clauses free
    (not_mem_lowerCase (by decide) single)).complete_sameWords
      fun _ => .same (by simp)
  rcases halike.parse with ⟨e, _, rfl, he, hes⟩ | ⟨fault, fault', hblame, he, hes⟩
  · exact Or.inl ⟨e, he, hes⟩
  · cases hblame with
    | same hkind => exact Or.inr (Or.inl ⟨_, hkind, he, hes⟩)
    | @tooLong stop =>
        have hsize : text.utf8ByteSize = byteLength (lowerCase text.toList) := by
          rw [byteLength_lowerCase, byteLength_toList]
        rw [Fault.toError, hsize, Nat.sub_self] at he
        rw [Fault.toError, hsize, byteLength_sub_dropBlank] at hes
        exact Or.inr (Or.inr ⟨_, he, hes⟩)

end WholeTexts

/-- **One text, three readings.** A text is a set of dice where it is the
expression of these dice alone, and it is an expression where it is the roll of
this expression alone and has no `x` in it. A text without `&` is refused as dice
and as an expression with the same error. So is a text without `x` and `;` as an
expression and as a roll, but for a chain that is too long: it begins with the
text in the one case and with the first word in the other. -/
theorem parse_agree (text : String) :
    (∀ d, Dice.parse text = .ok d ↔ Expr.parse text = .ok (.dice d)) ∧
      (∀ e, Expr.parse text = .ok e ↔
        Roll.parse text = .ok [e] ∧ 'x' ∉ text.toList ∧ 'X' ∉ text.toList) ∧
      ('&' ∉ text.toList → ∀ error,
        Dice.parse text = .error error ↔ Expr.parse text = .error error) ∧
      ('x' ∉ text.toList → 'X' ∉ text.toList → ';' ∉ text.toList →
        ((∃ error, Expr.parse text = .error error) ↔
          ∃ error, Roll.parse text = .error error) ∧
        ∀ error, Expr.parse text = .error error →
          (error.kind ≠ .chainTooLong → Roll.parse text = .error error) ∧
            (error.kind = .chainTooLong → error.span.start = 0 ∧
              Roll.parse text = .error ⟨.chainTooLong,
                ⟨byteLength (text.toList.takeWhile isBlank), error.span.stop⟩⟩)) := by
  refine ⟨fun d => Dice.parse_eq_ok_iff_expr, fun e => Expr.parse_eq_ok_iff_roll,
    fun free error => Dice.parse_eq_error_iff_expr free, fun small capital single => ?_⟩
  rcases outcomes_of_single small capital single with ⟨e, hexpr, hroll⟩ |
    ⟨error, hkind, hexpr, hroll⟩ | ⟨stop, hexpr, hroll⟩
  · rw [hexpr, hroll]
    simp
  · rw [hexpr, hroll]
    refine ⟨by simp, fun error' herror => ?_⟩
    cases herror
    exact ⟨fun _ => rfl, fun h => absurd h hkind⟩
  · rw [hexpr, hroll]
    refine ⟨by simp, fun error' herror => ?_⟩
    cases herror
    exact ⟨fun h => absurd rfl h, fun _ => ⟨rfl, rfl⟩⟩

/-- A modifier out of range is refused in all three ways with the same error, be
there white space in front or not. -/
theorem parse_agree_large_modifier :
    Expr.parse " 3D6 - 3000000000" = .error ⟨.overflow, ⟨5, 17⟩⟩ ∧
      Dice.parse " 3D6 - 3000000000" = .error ⟨.overflow, ⟨5, 17⟩⟩ ∧
      Roll.parse " 3D6 - 3000000000" = .error ⟨.overflow, ⟨5, 17⟩⟩ := by
  have hexpr : Expr.parse " 3D6 - 3000000000" = .error ⟨.overflow, ⟨5, 17⟩⟩ := by
    decide +kernel
  obtain ⟨-, -, hdice, hroll⟩ := parse_agree " 3D6 - 3000000000"
  exact ⟨hexpr, (hdice (by decide) _).mpr hexpr,
    ((hroll (by decide) (by decide) (by decide)).2 _ hexpr).1 (by decide)⟩

end DiceTray
