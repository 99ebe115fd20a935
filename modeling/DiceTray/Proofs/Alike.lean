import DiceTray.Parse

/-!
# Two runs side by side

A reader of the language touches its text only through single words: it drops
blanks, takes a number, or looks for a mark. So whenever two texts are related
in a way that the words keep (`Keeps`), reading a term, a chain, a clause or a
roll from the one ends as it does from the other: both succeed with equal
values, in front of related texts, or both fail with related faults.

The relation between texts and the one between faults are left open here. What
the words have to keep is asked for once, and every comparison of two runs is a
choice of the two relations.
-/

namespace DiceTray.Reader

open Text

variable {α α' β β' : Type}

/-- Two runs that end in the same way: with related values in front of related
texts, or with related faults. -/
inductive Alike (T : List Char → List Char → Prop) (E : Fault → Fault → Prop)
    (V : α → α' → Prop) :
    EStateM.Result Fault (List Char) α → EStateM.Result Fault (List Char) α' → Prop
  | ok {a : α} {a' : α'} {rest rest' : List Char} :
      V a a' → T rest rest' → Alike T E V (.ok a rest) (.ok a' rest')
  | error {fault fault' : Fault} {rest rest' : List Char} :
      E fault fault' → Alike T E V (.error fault rest) (.error fault' rest')

/-- From related texts two readers end in the same way. -/
def Relates (T : List Char → List Char → Prop) (E : Fault → Fault → Prop)
    (V : α → α' → Prop) (p : Reader α) (p' : Reader α') : Prop :=
  ∀ text text', T text text' → Alike T E V (p text) (p' text')

section Steps

variable {T : List Char → List Char → Prop} {E : Fault → Fault → Prop}
  {V : α → α' → Prop} {W : β → β' → Prop}

/-- One reader after the other, from two given texts. What the first ones did
is known to the second ones. -/
theorem Alike.bind {p : Reader α} {p' : Reader α'} {f : α → Reader β}
    {f' : α' → Reader β'} {text text' : List Char}
    (h : Alike T E V (p text) (p' text'))
    (hf : ∀ a a' rest rest', p text = .ok a rest → p' text' = .ok a' rest' →
      V a a' → T rest rest' → Alike T E W (f a rest) (f' a' rest')) :
    Alike T E W ((p >>= f) text) ((p' >>= f') text') := by
  generalize hp : p text = result at h
  generalize hp' : p' text' = result' at h
  cases h with
  | ok hV hT =>
      rw [bind_of_ok hp, bind_of_ok hp']
      exact hf _ _ _ _ hp hp' hV hT
  | error hE =>
      rw [bind_of_error hp, bind_of_error hp']
      exact .error hE

theorem Relates.bind {p : Reader α} {p' : Reader α'} {f : α → Reader β}
    {f' : α' → Reader β'} (hp : Relates T E V p p')
    (hf : ∀ a a', V a a' → Relates T E W (f a) (f' a')) :
    Relates T E W (p >>= f) (p' >>= f') := fun text text' hT =>
  (hp text text' hT).bind fun a a' _ _ _ _ hV hT' => hf a a' hV _ _ hT'

theorem relates_pure {a : α} {a' : α'} (h : V a a') :
    Relates T E V (pure a) (pure a') :=
  fun _ _ hT => .ok h hT

theorem relates_throw {fault fault' : Fault} (h : E fault fault') :
    Relates T E V (throw fault) (throw fault') :=
  fun _ _ _ => .error h

theorem relates_get : Relates T E T get get :=
  fun _ _ hT => .ok hT hT

theorem Relates.orUnread {p p' : Reader (Option α)} (hp : Relates T E Eq p p') :
    Relates T E Eq (orUnread p) (orUnread p') := by
  intro text text' hT
  have h := hp text text' hT
  unfold Reader.orUnread
  generalize p text = result at h
  generalize p' text' = result' at h
  cases h with
  | @ok found _ _ _ hV hT' =>
      subst hV
      rcases found with _ | a
      · exact .ok rfl hT
      · exact .ok rfl hT'
  | error hE => exact .error hE

theorem Relates.lookFor {p p' : Reader (Option α)} (hp : Relates T E Eq p p') :
    Relates T E Eq (lookFor p) (lookFor p') := by
  intro text text' hT
  have h := hp text text' hT
  unfold Reader.lookFor
  generalize p text = result at h
  generalize p' text' = result' at h
  cases h with
  | @ok found _ _ _ hV hT' =>
      subst hV
      rcases found with _ | a
      · exact .ok rfl hT
      · exact .ok rfl hT'
  | error _ => exact .ok rfl hT

/-- Rounds go on for as long on both sides. -/
theorem Relates.separated {p p' : Reader α} {sep : List Char} {hp : Shortens p}
    {hp' : Shortens p'} {hsep : sep ≠ []} (items : Relates T E Eq p p')
    (marks : Relates T E Eq (literal sep) (literal sep)) :
    Relates T E Eq (separated p sep hp hsep) (separated p' sep hp' hsep) := by
  intro text text' hT
  -- Every round shortens the text on the left.
  induction hn : text.length using Nat.strongRecOn generalizing text text' with
  | ind n ih =>
      subst hn
      rw [separated_eq p, separated_eq p']
      apply (items text text' hT).bind
      rintro a _ rest rest' hfirst - rfl hrest
      apply (marks rest rest' hrest).bind
      rintro found _ more more' hmark - rfl hmore
      by_cases hfound : found = true
      · subst hfound
        have shorter :=
          Nat.lt_trans (length_lt_of_literal hsep hmark) (hp _ _ _ hfirst)
        apply (ih _ shorter more more' hmore rfl).bind
        rintro as _ last last' - - rfl hlast
        exact .ok rfl hlast
      · rw [Bool.not_eq_true] at hfound
        subst hfound
        exact .ok rfl hmore

/-- Reading to the end, if both texts end together. -/
theorem Alike.complete {p : Reader α} {p' : Reader α'} {text text' : List Char}
    (h : Alike T E V (p text) (p' text'))
    (here : ∀ rest rest', T rest rest' → T (dropBlank rest) (dropBlank rest'))
    (ends : ∀ rest rest', T rest rest' →
      (dropBlank rest = [] ↔ dropBlank rest' = []))
    (trailing : ∀ rest rest', T rest rest' →
      E ⟨.trailingInput, dropBlank rest, []⟩ ⟨.trailingInput, dropBlank rest', []⟩) :
    Alike T E V (complete p text) (complete p' text') := by
  apply h.bind
  intro a a' rest rest' _ _ hV hT
  have hhere := here _ _ hT
  rw [bind_of_ok (here_eq rest), bind_of_ok (here_eq rest')]
  by_cases hnil : dropBlank rest = []
  · rw [hnil, (ends _ _ hT).mp hnil] at hhere ⊢
    exact .ok hV hhere
  · have hnil' : dropBlank rest' ≠ [] := fun h => hnil ((ends _ _ hT).mpr h)
    rw [List.isEmpty_eq_false_iff.mpr hnil, List.isEmpty_eq_false_iff.mpr hnil']
    exact .error (trailing _ _ hT)

/-- Two whole texts that are read alike are both accepted or both refused. -/
theorem Alike.parse {p : Reader α} {p' : Reader α'} {text text' : String}
    (h : Alike T E V (Reader.complete p (lowerCase text.toList))
      (Reader.complete p' (lowerCase text'.toList))) :
    (∃ a a', V a a' ∧ p.parse text = .ok a ∧ p'.parse text' = .ok a') ∨
      ∃ fault fault', E fault fault' ∧
        p.parse text = .error (fault.toError text.utf8ByteSize) ∧
        p'.parse text' = .error (fault'.toError text'.utf8ByteSize) := by
  rw [parse_eq p, parse_eq p']
  generalize Reader.complete p (lowerCase text.toList) = result at h ⊢
  generalize Reader.complete p' (lowerCase text'.toList) = result' at h ⊢
  cases h with
  | ok hV _ => exact Or.inl ⟨_, _, hV, rfl, rfl⟩
  | error hE => exact Or.inr ⟨_, _, hE, rfl, rfl⟩

end Steps

/-- On one text a reader does as it does itself, if its faults are related to
themselves. -/
theorem relates_self {E : Fault → Fault → Prop} {p : Reader α}
    (h : ∀ text fault rest, p text = .error fault rest → E fault fault) :
    Relates Eq E Eq p p := by
  rintro text _ rfl
  cases hrun : p text with
  | ok a rest => exact .ok rfl rfl
  | error fault rest => exact .error (h _ _ _ hrun)

/-! ## How words fail -/

theorem kind_of_number {text rest : List Char} {fault : Fault}
    (h : number text = .error fault rest) : fault.kind = .overflow := by
  unfold number at h
  dsimp only at h
  split at h
  · cases h
  · split at h
    · cases h
    · cases h
      rfl

theorem literal_ne_error {lit text rest : List Char} {fault : Fault} :
    literal lit text ≠ .error fault rest := by
  intro h
  unfold literal at h
  dsimp only at h
  split at h <;> cases h

/-! ## What the words keep -/

/-- The marks that stand within a clause. -/
def clauseMarks : List Char := ['d', 'x', '&', '+', '-']

theorem isDigit_of_mem_clauseMarks {c : Char} (hc : c ∈ clauseMarks) :
    c.isDigit = false := by
  simp only [clauseMarks, List.mem_cons, List.not_mem_nil, or_false] at hc
  rcases hc with rfl | rfl | rfl | rfl | rfl <;> rfl

/-- Faults that blame words which were read to their end. A chain that is too
long is not one of them, since it begins in front of the first word. -/
inductive OfWords : ParseError.Kind → Prop
  | overflow : OfWords .overflow
  | tooManyRepeats : OfWords .tooManyRepeats
  | dice (cause : DiceError) : OfWords (.dice cause)

/-- Relations between texts and between faults that the words of a clause keep. -/
structure Keeps (T : List Char → List Char → Prop) (E : Fault → Fault → Prop) :
    Prop where
  here : ∀ {text text' : List Char}, T text text' →
    T (dropBlank text) (dropBlank text')
  number : Relates T E Eq number number
  literal : ∀ c ∈ clauseMarks, Relates T E Eq (literal [c]) (literal [c])
  expected : ∀ {α : Type} (what : String),
    Relates T E Eq (expected what : Reader α) (expected what)
  fault : ∀ {kind : ParseError.Kind} {start start' stop stop' : List Char},
    OfWords kind → T start start' → T stop stop' →
      E ⟨kind, start, stop⟩ ⟨kind, start', stop'⟩

namespace Keeps

variable {T : List Char → List Char → Prop} {E : Fault → Fault → Prop}

theorem relates_here (hk : Keeps T E) : Relates T E T Reader.here Reader.here :=
  fun _ _ hT => .ok (hk.here hT) (hk.here hT)

/-- A fault from a place that was remembered up to here. -/
theorem fail (hk : Keeps T E) {kind : ParseError.Kind} (hkind : OfWords kind)
    {start start' : List Char} (hstart : T start start') :
    Relates T E Eq (do throw ⟨kind, start, ← get⟩ : Reader α)
      (do throw ⟨kind, start', ← get⟩) :=
  relates_get.bind fun _ _ hstop => relates_throw (hk.fault hkind hstart hstop)

theorem require (hk : Keeps T E) {c : Char} (hc : c ∈ clauseMarks) (what : String) :
    Relates T E Eq (require [c] what) (require [c] what) := by
  apply (hk.literal c hc).bind
  rintro (_ | _) _ rfl
  · exact hk.expected what
  · exact relates_pure rfl

theorem sign (hk : Keeps T E) : Relates T E Eq sign sign := by
  apply (hk.literal '+' (by decide)).bind
  rintro (_ | _) _ rfl
  · apply (hk.literal '-' (by decide)).bind
    rintro (_ | _) _ rfl
    · exact relates_pure rfl
    · exact relates_pure rfl
  · exact relates_pure rfl

theorem integer (hk : Keeps T E) : Relates T E Eq integer integer := by
  refine hk.relates_here.bind fun start start' hstart => Relates.orUnread ?_
  apply hk.sign.bind
  rintro factor _ rfl
  apply hk.number.bind
  rintro (_ | n) _ rfl
  · exact relates_pure rfl
  · dsimp only
    rcases Width.signed32 (factor * n.toNat) with _ | value
    · exact hk.fail .overflow hstart
    · exact relates_pure rfl

theorem afterLetter (hk : Keeps T E) {start start' : List Char}
    (hstart : T start start') (count : UInt32) :
    Relates T E Eq (afterLetter start count) (afterLetter start' count) := by
  apply hk.number.bind
  rintro (_ | sides) _ rfl
  · exact hk.expected _
  · apply hk.integer.bind
    rintro modifier _ rfl
    rcases Dice.Request.check ⟨count, sides, modifier.getD 0⟩ with error | dice
    · exact hk.fail (.dice error) hstart
    · exact relates_pure rfl

theorem term (hk : Keeps T E) : Relates T E Eq term term := by
  refine hk.relates_here.bind fun start start' hstart => ?_
  apply hk.number.bind
  rintro count _ rfl
  exact (hk.require (by decide) _).bind fun _ _ _ => hk.afterLetter hstart _

theorem moreTerms (hk : Keeps T E) {start start' : List Char}
    (tooLong : ∀ {stop stop' : List Char}, T stop stop' →
      E ⟨.chainTooLong, start, stop⟩ ⟨.chainTooLong, start', stop'⟩) (room : Nat) :
    Relates T E Eq (moreTerms start room) (moreTerms start' room) := by
  induction room with
  | zero =>
      rw [Reader.moreTerms, Reader.moreTerms]
      apply (hk.literal '&' (by decide)).bind
      rintro (_ | _) _ rfl
      · exact relates_pure rfl
      · exact relates_get.bind fun _ _ hstop => relates_throw (tooLong hstop)
  | succ room ih =>
      rw [Reader.moreTerms, Reader.moreTerms]
      apply (hk.literal '&' (by decide)).bind
      rintro (_ | _) _ rfl
      · exact relates_pure rfl
      · apply hk.term.bind
        rintro d _ rfl
        apply ih.bind
        rintro ds _ rfl
        exact relates_pure rfl

variable (hk : Keeps T E)
  (tooLong : ∀ {start start' stop stop' : List Char}, T start start' → T stop stop' →
    E ⟨.chainTooLong, start, stop⟩ ⟨.chainTooLong, start', stop'⟩)

include hk tooLong

theorem chain : Relates T E Eq chain chain := by
  refine relates_get.bind fun start start' hstart => ?_
  apply hk.term.bind
  rintro d _ rfl
  apply (hk.moreTerms (tooLong hstart) _).bind
  rintro ds _ rfl
  exact relates_pure rfl

omit tooLong in
theorem repeats : Relates T E Eq repeats repeats := by
  refine hk.relates_here.bind fun start start' hstart => ?_
  apply Relates.bind (V := Eq)
  · apply Relates.lookFor
    apply hk.number.bind
    rintro count _ rfl
    apply (hk.literal 'x' (by decide)).bind
    rintro (_ | _) _ rfl
    · exact relates_pure rfl
    · exact relates_pure rfl
  · rintro (_ | count) _ rfl
    · exact relates_pure rfl
    · dsimp only
      split
      · exact hk.fail .tooManyRepeats hstart
      · exact relates_pure rfl

theorem clause : Relates T E Eq clause clause := by
  apply hk.repeats.bind
  rintro copies _ rfl
  apply (hk.chain tooLong).bind
  rintro e _ rfl
  exact relates_pure rfl

/-- Rolls need a mark more than clauses do. -/
theorem clauses (marks : Relates T E Eq (Reader.literal [';']) (Reader.literal [';'])) :
    Relates T E Eq clauses clauses := by
  apply ((hk.clause tooLong).separated marks).bind
  rintro parts _ rfl
  exact relates_pure rfl

end Keeps

end DiceTray.Reader
