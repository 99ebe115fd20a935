import DiceTray.Proofs.Alike
import DiceTray.Proofs.Local

/-!
# Where trailing input begins

A text with trailing input can be read up to the place where the trailing input
begins, and no longer part from its start on can be read. Every part that is
longer has trailing input from the same place on. This is because a shorter rest
goes unnoticed by the reader that has left it (`unnoticed_of_shorter`), and because
only the end of a whole text is ever blamed for trailing input.
-/

namespace DiceTray

open Text Written

namespace Reader

variable {α : Type} {text rest rest' : List Char}

/-! ## Shorter rests -/

theorem sameNext_of_shorter (h : rest' <+: rest) : SameNext rest rest' := by
  obtain ⟨cut, rfl⟩ := h
  intro c hc
  rw [List.head?_append, Option.mem_def.mp hc]
  rfl

theorem noNumber_of_shorter (h : rest' <+: rest) (free : NoNumber rest) :
    NoNumber rest' := by
  obtain ⟨cut, rfl⟩ := h
  intro c hc
  obtain ⟨more, hd⟩ := List.head?_eq_some_iff.mp hc
  apply free
  rw [dropBlank_append_of_eq_cons hd]
  rfl

/-- A shorter rest shows nothing that the longer one has not shown. -/
theorem unnoticed_of_shorter (h : rest' <+: rest) : Unnoticed rest rest' where
  next := sameNext_of_shorter h
  number := noNumber_of_shorter h
  signed := by
    refine noNumber_of_shorter ?_
    obtain ⟨cut, rfl⟩ := h
    cases hd : dropBlank rest' with
    | nil => simp [behindSign, hd]
    | cons c more =>
        rw [behindSign_of_cons hd, behindSign_of_cons (dropBlank_append_of_eq_cons hd cut)]
        split
        · exact List.prefix_append more cut
        · exact List.prefix_append (c :: more) cut

/-! ## Whole texts -/

/-- Only the end of a whole text is blamed for trailing input. -/
theorem keeps_notTrailing :
    Keeps Eq fun fault _ => fault.kind ≠ .trailingInput where
  here h := congrArg dropBlank h
  number := relates_self fun text fault rest hrun => by
    rw [kind_of_number hrun]
    decide
  literal c _ := relates_self fun text fault rest hrun => absurd hrun literal_ne_error
  expected what := relates_self fun text fault rest hrun => by
    cases hrun
    simp
  fault hkind _ _ := by
    rcases hkind with _ | _ | _ <;> simp

/-- What is left behind the blanks may be cut anywhere. -/
theorem Stands.exists_cut {p : Reader α} {a : α} (stands : Stands Unnoticed p p text)
    (h : p text = .ok a rest) :
    ∃ front, text = front ++ dropBlank rest ∧ ∀ more, more <+: dropBlank rest →
      ∃ last, p (front ++ more) = .ok a last ∧ dropBlank last = more := by
  obtain ⟨read, rfl, hread⟩ := stands a rest h
  refine ⟨read ++ leadingBlanks rest, ?_, fun more hmore =>
    ⟨leadingBlanks rest ++ more, ?_, SameNext.dropBlank_eq (sameNext_of_shorter hmore)⟩⟩
  · rw [List.append_assoc, leadingBlanks_append_dropBlank]
  · rw [List.append_assoc]
    apply hread
    apply unnoticed_of_shorter
    conv => rhs; rw [← leadingBlanks_append_dropBlank rest]
    exact (List.prefix_append_right_inj _).mpr hmore

/-- Of a text with trailing input the part in front can be read, and no longer
one, for the same reason. -/
theorem trailing_of_complete {p : Reader α} (stands : ∀ {text}, Stands Unnoticed p p text)
    (blames : Relates Eq (fun fault _ => fault.kind ≠ .trailingInput) Eq p p)
    {fault : Fault} (h : complete p text = .error fault rest)
    (hkind : fault.kind = .trailingInput) :
    ∃ front start, text = front ++ start ∧ fault = ⟨.trailingInput, start, []⟩ ∧
      (∃ a last, complete p front = .ok a last) ∧
      ∀ more, more <+: start → more ≠ [] →
        ∃ last, complete p (front ++ more) = .error ⟨.trailingInput, more, []⟩ last := by
  rcases complete_eq_error_iff.mp h with hrun | ⟨a, mid, hrun, hd, rfl, -⟩
  · have hblames := blames text text rfl
    rw [hrun] at hblames
    cases hblames with
    | error hne => exact absurd hkind hne
  · obtain ⟨front, hfront, cut⟩ := stands.exists_cut hrun
    refine ⟨front, dropBlank mid, hfront, rfl, ?_, fun more hmore hne => ?_⟩
    · obtain ⟨last, hlast, hnil⟩ := cut [] List.nil_prefix
      rw [List.append_nil] at hlast
      exact ⟨a, [], complete_of_end hlast hnil⟩
    · obtain ⟨last, hlast, rfl⟩ := cut more hmore
      exact ⟨_, complete_of_left hlast hne⟩

end Reader

open Reader

/-- Of two parts in front of a text the longer one begins with the shorter one. -/
theorem exists_append_of_utf8ByteSize_lt {front back front' back' : String}
    (h : front ++ back = front' ++ back') (hlt : front.utf8ByteSize < front'.utf8ByteSize) :
    ∃ more, front' = front ++ more ∧ back = more ++ back' := by
  have hlist := congrArg String.toList h
  rw [String.toList_append, String.toList_append] at hlist
  rcases List.append_eq_append_iff.mp hlist with ⟨more, hfront, hback⟩ | ⟨more, hfront, -⟩
  · refine ⟨String.ofList more, String.toList_inj.mp ?_, String.toList_inj.mp ?_⟩
    · rw [hfront, String.toList_append, String.toList_ofList]
    · rw [hback, String.toList_append, String.toList_ofList]
  · rw [← byteLength_toList front, hfront, byteLength_append, byteLength_toList] at hlt
    omega

/-- The part of a text up to an offset can be read, and every longer part has
trailing input from this offset on. -/
structure LongestValid {α : Type} (P : String → Except ParseError α) (text : String)
    (offset : Nat) : Prop where
  valid : ∃ front back value, text = front ++ back ∧ front.utf8ByteSize = offset ∧
    P front = .ok value
  longer : ∀ front back, text = front ++ back → offset < front.utf8ByteSize →
    P front = .error ⟨.trailingInput, ⟨offset, front.utf8ByteSize⟩⟩

theorem Reader.longestValid_of_parse {α : Type} {p : Reader α}
    (stands : ∀ {text}, Stands Unnoticed p p text)
    (blames : Relates Eq (fun fault _ => fault.kind ≠ .trailingInput) Eq p p)
    {text : String} {span : Span} (h : p.parse text = .error ⟨.trailingInput, span⟩) :
    span.stop = text.utf8ByteSize ∧ LongestValid p.parse text span.start := by
  obtain ⟨fault, rest, hrun, herror⟩ := parse_eq_error.mp h
  obtain ⟨_, _, hsplit, rfl, ⟨a, last, hvalid⟩, hlonger⟩ :=
    trailing_of_complete stands blames hrun (congrArg ParseError.kind herror)
  obtain ⟨front, back, rfl, rfl, rfl⟩ := exists_append_of_lowerCase hsplit
  simp only [Fault.toError, ParseError.mk.injEq, byteLength_lowerCase, byteLength_toList,
    byteLength_nil, String.utf8ByteSize_append, Nat.add_sub_cancel, Nat.sub_zero,
    true_and] at herror
  rw [← herror]
  refine ⟨String.utf8ByteSize_append.symm, ⟨front, back, a, rfl, rfl, ?_⟩, ?_⟩
  · exact parse_eq_ok.mpr ⟨last, hvalid⟩
  · intro front' back' htext (hlt : front.utf8ByteSize < front'.utf8ByteSize)
    obtain ⟨more, rfl, rfl⟩ := exists_append_of_utf8ByteSize_lt htext hlt
    have hne : lowerCase more.toList ≠ [] := fun h => by
      rw [String.utf8ByteSize_append, ← byteLength_toList more, ← byteLength_lowerCase, h,
        byteLength_nil] at hlt
      omega
    have hprefix : lowerCase more.toList <+: lowerCase (more ++ back').toList :=
      ⟨lowerCase back'.toList, by rw [String.toList_append, lowerCase_append]⟩
    obtain ⟨last, hcut⟩ := hlonger _ hprefix hne
    rw [← lowerCase_append, ← String.toList_append] at hcut
    refine parse_eq_error.mpr ⟨_, last, hcut, ?_⟩
    simp only [Fault.toError, byteLength_lowerCase, byteLength_toList, byteLength_nil,
      String.utf8ByteSize_append, Nat.add_sub_cancel, Nat.sub_zero]

/-- **Trailing input.** Where a text as a roll, an expression or dice has trailing
input, this goes on to the end of the text and begins where the longest part that
can be read ends. That part is accepted by itself, and whatever is cut off behind
it leaves the trailing input, as far as it is there, at the same place. -/
theorem parse_trailing (text : String) (span : Span) :
    (Roll.parse text = .error ⟨.trailingInput, span⟩ →
      span.stop = text.utf8ByteSize ∧ LongestValid Roll.parse text span.start) ∧
    (Expr.parse text = .error ⟨.trailingInput, span⟩ →
      span.stop = text.utf8ByteSize ∧ LongestValid Expr.parse text span.start) ∧
    (Dice.parse text = .error ⟨.trailingInput, span⟩ →
      span.stop = text.utf8ByteSize ∧ LongestValid Dice.parse text span.start) :=
  ⟨longestValid_of_parse stands_clauses
      (keeps_notTrailing.clauses (fun _ _ => by simp)
        (relates_self fun _ _ _ hrun => absurd hrun literal_ne_error)),
    longestValid_of_parse stands_chain (keeps_notTrailing.chain fun _ _ => by simp),
    longestValid_of_parse stands_term keeps_notTrailing.term⟩

/-- A sign without a number is trailing input, and so is what follows it. -/
theorem parse_trailing_sign :
    Roll.parse "2X D6 + \u00e9" = .error ⟨.trailingInput, ⟨6, 10⟩⟩ ∧
      LongestValid Roll.parse "2X D6 + \u00e9" 6 := by
  have hparse : Roll.parse "2X D6 + \u00e9" = .error ⟨.trailingInput, ⟨6, 10⟩⟩ := by
    decide +kernel
  exact ⟨hparse, ((parse_trailing _ _).1 hparse).2⟩

end DiceTray
