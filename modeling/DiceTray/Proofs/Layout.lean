import DiceTray.Proofs.Alike
import DiceTray.Proofs.Recognition

/-!
# Layout does not matter

White space, the case of letters and leading zeros are not part of what a text
says. Two texts with the same tokens are both accepted, with the same value, or
both refused, for the same reason. Only the places that are blamed may differ,
since these are counted in the bytes of the text.

For acceptance this is the token view of the readers (`Reads`). A refusal says
in addition what is wrong, and that is settled by comparing the two runs word by
word.
-/

namespace DiceTray

open Text

namespace Reader

variable {α : Type} {R : List Token → α → List Token → Prop}

/-- Texts with the same tokens. -/
def SameTokens (text text' : List Char) : Prop :=
  tokens text = tokens text'

/-- Faults of the same kind, whatever they blame. -/
def SameKind (fault fault' : Fault) : Prop :=
  fault.kind = fault'.kind

/-- A reader that is understood on tokens ends in the same way on the same
tokens, if it has one way to fail. -/
theorem Reads.relates {p : Reader α} (hp : Reads (fun _ => True) p R)
    (kind : ParseError.Kind)
    (hkind : ∀ text fault rest, p text = .error fault rest → fault.kind = kind) :
    Relates SameTokens SameKind Eq p p := by
  have carry : ∀ text text' a rest, tokens text = tokens text' →
      p text = .ok a rest → ∃ rest', p text' = .ok a rest' ∧ tokens rest' = tokens rest := by
    intro text text' a rest hT hrun
    have hR := (hp text a _ trivial).mp ⟨rest, hrun, rfl⟩
    rw [hT] at hR
    exact (hp text' a _ trivial).mpr hR
  intro text text' hT
  cases hrun : p text with
  | ok a rest =>
      obtain ⟨rest', hrun', hrest⟩ := carry text text' a rest hT hrun
      rw [hrun']
      exact .ok rfl hrest.symm
  | error fault rest =>
      cases hrun' : p text' with
      | ok a rest' =>
          obtain ⟨_, hrun'', -⟩ := carry text' text a rest' hT.symm hrun'
          rw [hrun] at hrun''
          cases hrun''
      | error fault' rest' =>
          exact .error ((hkind _ _ _ hrun).trans (hkind _ _ _ hrun').symm)

/-- Every word goes by tokens. -/
theorem keeps_sameTokens : Keeps SameTokens SameKind where
  here {text text'} hT := by
    show tokens (dropBlank text) = tokens (dropBlank text')
    rw [tokens_dropBlank, tokens_dropBlank]
    exact hT
  number := reads_number.relates .overflow fun _ _ _ => kind_of_number
  literal c hc :=
    (reads_literal (isDigit_of_mem_clauseMarks hc)).relates .overflow
      fun _ _ _ h => absurd h literal_ne_error
  expected what := by
    apply (reads_expected what).relates (.expected what)
    intro text fault rest h
    cases h
    rfl
  fault _ _ _ := rfl

theorem sameTokens_dropBlank_eq_nil {text text' : List Char}
    (h : SameTokens text text') : dropBlank text = [] ↔ dropBlank text' = [] := by
  rw [← tokens_eq_nil_iff, ← tokens_eq_nil_iff, h]

/-- On whole texts the same tokens give the same outcome but for the span. -/
theorem Relates.mapError_parse {p : Reader α}
    (hp : Relates SameTokens SameKind Eq p p) {text text' : String}
    (h : tokensOf text = tokensOf text') :
    (p.parse text).mapError ParseError.kind =
      (p.parse text').mapError ParseError.kind := by
  have hcomplete := (hp (lowerCase text.toList) (lowerCase text'.toList) h).complete
    (fun _ _ => keeps_sameTokens.here) (fun _ _ => sameTokens_dropBlank_eq_nil)
    fun _ _ _ => rfl
  rcases hcomplete.parse with ⟨a, a', rfl, ha, ha'⟩ | ⟨fault, fault', hkind, hf, hf'⟩
  · rw [ha, ha']
  · rw [hf, hf']
    exact congrArg Except.error hkind

end Reader

open Reader

/-- **Layout does not matter.** Texts with the same tokens read as the same
roll, as the same expression and as the same dice, or are refused with the same
kind of fault, with all that it names. -/
theorem mapError_parse_eq_of_tokensOf_eq {text text' : String}
    (h : tokensOf text = tokensOf text') :
    (Roll.parse text).mapError ParseError.kind =
        (Roll.parse text').mapError ParseError.kind ∧
      (Expr.parse text).mapError ParseError.kind =
        (Expr.parse text').mapError ParseError.kind ∧
      (Dice.parse text).mapError ParseError.kind =
        (Dice.parse text').mapError ParseError.kind := by
  have hk := keeps_sameTokens
  refine ⟨(hk.clauses (fun _ _ => rfl) ?_).mapError_parse h,
    (hk.chain fun _ _ => rfl).mapError_parse h, hk.term.mapError_parse h⟩
  exact (reads_literal rfl).relates .overflow fun _ _ _ h =>
    absurd h literal_ne_error

/-- Dice without sides are refused for that, however they are laid out. -/
theorem mapError_parse_spread_out :
    tokensOf " 2X\t03 d 6 ;\u3000007D00 - 1" = tokensOf "2x3d6;7d0-1" ∧
      Roll.parse "2x3d6;7d0-1" = .error ⟨.dice (.tooFewSides 0), ⟨6, 11⟩⟩ ∧
      (Roll.parse " 2X\t03 d 6 ;\u3000007D00 - 1").mapError ParseError.kind =
        (Roll.parse "2x3d6;7d0-1").mapError ParseError.kind ∧
      (Expr.parse " 2X\t03 d 6 ;\u3000007D00 - 1").mapError ParseError.kind =
        (Expr.parse "2x3d6;7d0-1").mapError ParseError.kind ∧
      (Dice.parse " 2X\t03 d 6 ;\u3000007D00 - 1").mapError ParseError.kind =
        (Dice.parse "2x3d6;7d0-1").mapError ParseError.kind := by
  have htokens : tokensOf " 2X\t03 d 6 ;\u3000007D00 - 1" = tokensOf "2x3d6;7d0-1" := by
    decide +kernel
  exact ⟨htokens, by decide +kernel, mapError_parse_eq_of_tokensOf_eq htokens⟩

end DiceTray
