import DiceTray.Proofs.Tokens
import DiceTray.Reader.Separated

/-!
# What readers do to tokens

A reader works on characters, but which texts it accepts, with which value and
up to which place, depends on tokens alone. `Reads F p R` says so: among the
places where `F` holds, the successful runs of `p` are exactly those that the
relation `R` between tokens allows. It is an equivalence, so it is soundness and
completeness at once, and it carries over from the steps of a reader to the
whole (`Reads.bind`).

The condition `F` on what follows is there because readers take the longest
word: `d6` is not read up to a place where `+2` follows. In front of a place
where no phrase goes on, reading longest and reading freely are the same.
-/

namespace DiceTray.Reader

open Text

variable {α β : Type} {F G : List Token → Prop}

/-- A successful run, with the tokens of the text it leaves. -/
def Leaves (p : Reader α) (text : List Char) (a : α) (after : List Token) :
    Prop :=
  ∃ rest, p text = .ok a rest ∧ tokens rest = after

/-- Up to places where `F` holds, the successful runs of a reader are those of a
relation between the tokens before, the value, and the tokens after. -/
def Reads (F : List Token → Prop) (p : Reader α)
    (R : List Token → α → List Token → Prop) : Prop :=
  ∀ text a after, F after → (Leaves p text a after ↔ R (tokens text) a after)

/-! ## Steps -/

theorem leaves_pure {a b : α} {text : List Char} {after : List Token} :
    Leaves (pure a) text b after ↔ a = b ∧ tokens text = after := by
  constructor
  · rintro ⟨rest, h, htok⟩
    cases h
    exact ⟨rfl, htok⟩
  · rintro ⟨rfl, htok⟩
    exact ⟨text, rfl, htok⟩

theorem not_leaves_throw {fault : Fault} {a : α} {text : List Char}
    {after : List Token} : ¬ Leaves (throw fault) text a after := by
  rintro ⟨rest, h, -⟩
  cases h

theorem leaves_bind {p : Reader α} {f : α → Reader β} {text : List Char}
    {b : β} {after : List Token} :
    Leaves (p >>= f) text b after ↔
      ∃ a rest, p text = .ok a rest ∧ Leaves (f a) rest b after := by
  unfold Leaves
  show (∃ rest, EStateM.bind p f text = .ok b rest ∧ _) ↔ _
  unfold EStateM.bind
  cases h : p text with
  | ok a rest =>
      constructor
      · exact fun hb => ⟨a, rest, rfl, hb⟩
      · rintro ⟨a', rest', heq, hb⟩
        cases heq
        exact hb
  | error fault rest => simp

theorem leaves_here_bind {f : List Char → Reader β} {text : List Char} {b : β}
    {after : List Token} :
    Leaves (here >>= f) text b after ↔
      Leaves (f (dropBlank text)) (dropBlank text) b after := by
  constructor
  · rintro ⟨rest, h, htok⟩
    exact ⟨rest, h, htok⟩
  · rintro ⟨rest, h, htok⟩
    exact ⟨rest, h, htok⟩

theorem leaves_orUnread_some {p : Reader (Option α)} {text : List Char} {a : α}
    {after : List Token} :
    Leaves (orUnread p) text (some a) after ↔ Leaves p text (some a) after := by
  unfold Leaves orUnread
  cases h : p text with
  | ok value rest => cases value <;> simp
  | error fault rest => simp

theorem leaves_orUnread_none {p : Reader (Option α)} {text : List Char}
    {after : List Token} :
    Leaves (orUnread p) text none after ↔
      tokens text = after ∧ ∃ after', Leaves p text none after' := by
  unfold Leaves orUnread
  cases h : p text with
  | ok value rest => cases value <;> simp
  | error fault rest => simp

theorem leaves_lookFor_some {p : Reader (Option α)} {text : List Char} {a : α}
    {after : List Token} :
    Leaves (lookFor p) text (some a) after ↔ Leaves p text (some a) after := by
  unfold Leaves lookFor
  cases h : p text with
  | ok value rest => cases value <;> simp
  | error fault rest => simp

theorem leaves_lookFor_none {p : Reader (Option α)} {text : List Char}
    {after : List Token} :
    Leaves (lookFor p) text none after ↔
      tokens text = after ∧ ∀ a after', ¬ Leaves p text (some a) after' := by
  unfold Leaves lookFor
  cases h : p text with
  | ok value rest => cases value <;> simp
  | error fault rest => simp

/-- Reading to the end is reading up to where no token is left. -/
theorem leaves_complete {p : Reader α} {text : List Char} {a : α}
    {after : List Token} :
    Leaves (complete p) text a after ↔ after = [] ∧ Leaves p text a [] := by
  unfold complete
  rw [leaves_bind]
  constructor
  · rintro ⟨b, rest, hp, h⟩
    rw [leaves_here_bind] at h
    cases hd : dropBlank rest with
    | nil =>
        rw [hd] at h
        obtain ⟨rfl, rfl⟩ := leaves_pure.mp h
        exact ⟨tokens_nil, rest, hp, tokens_of_dropBlank_eq_nil hd⟩
    | cons c more =>
        rw [hd] at h
        obtain ⟨_, _, hthrow, -⟩ := leaves_bind.mp h
        cases hthrow
  · rintro ⟨rfl, rest, hp, htok⟩
    refine ⟨a, rest, hp, ?_⟩
    rw [leaves_here_bind, tokens_eq_nil_iff.mp htok]
    exact leaves_pure.mpr ⟨rfl, tokens_nil⟩

/-! ## Rules -/

theorem Reads.congr {p : Reader α} {R S : List Token → α → List Token → Prop}
    (h : Reads F p R)
    (same : ∀ ts a after, F after → (R ts a after ↔ S ts a after)) :
    Reads F p S := fun text a after hF =>
  (h text a after hF).trans (same _ a after hF)

theorem reads_pure (a : α) :
    Reads F (pure a) fun ts b after => b = a ∧ ts = after :=
  fun _ _ _ _ => leaves_pure.trans (and_congr_left' eq_comm)

theorem reads_throw (fault : Fault) :
    Reads F (throw fault : Reader α) fun _ _ _ => False :=
  fun _ _ _ _ => iff_of_false not_leaves_throw id

/-- One reader after the other. The first has to be understood only up to the
places from which the second goes on. -/
theorem Reads.bind {p : Reader α} {f : α → Reader β}
    {R : List Token → α → List Token → Prop}
    {S : α → List Token → β → List Token → Prop}
    (hp : Reads G p R) (hf : ∀ a, Reads F (f a) (S a))
    (between : ∀ a mid b after, F after → S a mid b after → G mid) :
    Reads F (p >>= f) fun ts b after =>
      ∃ a mid, R ts a mid ∧ S a mid b after := by
  intro text b after hF
  rw [leaves_bind]
  constructor
  · rintro ⟨a, rest, hrun, hb⟩
    have hS := (hf a rest b after hF).mp hb
    have hG := between a _ b after hF hS
    exact ⟨a, tokens rest, (hp text a _ hG).mp ⟨rest, hrun, rfl⟩, hS⟩
  · rintro ⟨a, mid, hR, hS⟩
    have hG := between a mid b after hF hS
    obtain ⟨rest, hrun, rfl⟩ := (hp text a mid hG).mpr hR
    exact ⟨a, rest, hrun, (hf a rest b after hF).mpr hS⟩

/-- A first reader that is understood up to every place. -/
theorem Reads.bind_any {p : Reader α} {f : α → Reader β}
    {R : List Token → α → List Token → Prop}
    {S : α → List Token → β → List Token → Prop}
    (hp : Reads (fun _ => True) p R) (hf : ∀ a, Reads F (f a) (S a)) :
    Reads F (p >>= f) fun ts b after =>
      ∃ a mid, R ts a mid ∧ S a mid b after :=
  hp.bind hf fun _ _ _ _ _ _ => trivial

theorem Reads.map {p : Reader α} {R : List Token → α → List Token → Prop}
    (hp : Reads F p R) (g : α → β) :
    Reads F (p >>= fun a => pure (g a)) fun ts b after =>
      ∃ a, b = g a ∧ R ts a after := by
  refine (hp.bind (fun a => reads_pure (g a)) ?_).congr ?_
  · rintro a _ b _ hF ⟨-, rfl⟩
    exact hF
  · intro ts b after _
    constructor
    · rintro ⟨a, _, hR, rfl, rfl⟩
      exact ⟨a, rfl, hR⟩
    · rintro ⟨a, rfl, hR⟩
      exact ⟨a, after, hR, rfl, rfl⟩

/-- A place that is only remembered does not matter. -/
theorem Reads.here_bind {f : List Char → Reader β}
    {S : List Token → β → List Token → Prop} (hf : ∀ start, Reads F (f start) S) :
    Reads F (here >>= f) S := by
  intro text b after hF
  rw [leaves_here_bind, hf _ _ b after hF, tokens_dropBlank]

theorem Reads.get_bind {f : List Char → Reader β}
    {S : List Token → β → List Token → Prop} (hf : ∀ start, Reads F (f start) S) :
    Reads F (get >>= f) S :=
  fun text b after hF => hf text text b after hF

theorem Reads.orUnread {p : Reader (Option α)}
    {R : List Token → Option α → List Token → Prop}
    (hp : Reads (fun _ => True) p R) :
    Reads F (orUnread p) fun ts found after =>
      match found with
      | some a => R ts (some a) after
      | none => ts = after ∧ ∃ after', R ts none after' := by
  rintro text (_ | a) after -
  · simp only [leaves_orUnread_none, hp text none _ trivial]
  · rw [leaves_orUnread_some, hp text (some a) after trivial]

theorem Reads.lookFor {p : Reader (Option α)}
    {R : List Token → Option α → List Token → Prop}
    (hp : Reads (fun _ => True) p R) :
    Reads F (lookFor p) fun ts found after =>
      match found with
      | some a => R ts (some a) after
      | none => ts = after ∧ ∀ a after', ¬ R ts (some a) after' := by
  rintro text (_ | a) after -
  · simp only [leaves_lookFor_none, hp text (some _) _ trivial]
  · rw [leaves_lookFor_some, hp text (some a) after trivial]

theorem reads_fail (kind : ParseError.Kind) (start : List Char) :
    Reads F (do throw ⟨kind, start, ← get⟩ : Reader α) fun _ _ _ => False :=
  Reads.get_bind fun _ => reads_throw _

theorem reads_expected (what : String) :
    Reads F (expected what : Reader α) fun _ _ _ => False :=
  Reads.here_bind fun _ => reads_throw _

/-! ## Words -/

/-- Tokens that begin with a number in range, or with no number. -/
def NumberAt (ts : List Token) : Option UInt32 → List Token → Prop
  | some n, after => ts = .num n.toNat :: after
  | none, after => ts = after ∧ ∀ n, ts.head? ≠ some (.num n)

theorem number_of_not_digit {text : List Char}
    (h : ∀ c ∈ (dropBlank text).head?, c.isDigit = false) :
    number text = .ok none (dropBlank text) := by
  have hrun : (dropBlank text).takeWhile Char.isDigit = [] := by
    cases hd : dropBlank text with
    | nil => rfl
    | cons c rest => simp [h c (by simp [hd])]
  unfold number
  simp [hrun]

theorem number_of_digit {text rest : List Char} {c : Char}
    (h : dropBlank text = c :: rest) (digit : c.isDigit = true) :
    number text =
      match Width.unsigned32
        (Nat.ofDigitChars 10 ((dropBlank text).takeWhile Char.isDigit) 0) with
      | some n => .ok (some n) ((dropBlank text).dropWhile Char.isDigit)
      | none =>
          .error ⟨.overflow, dropBlank text,
            (dropBlank text).dropWhile Char.isDigit⟩ (dropBlank text) := by
  have hne : (dropBlank text).takeWhile Char.isDigit ≠ [] := by
    simp [h, digit]
  exact if_neg hne

theorem reads_number : Reads F number NumberAt := by
  intro text a after _
  -- A number is there exactly when a digit stands behind the blanks.
  by_cases hdigit : ∃ c rest, dropBlank text = c :: rest ∧ c.isDigit = true
  · obtain ⟨c, rest, hd, digit⟩ := hdigit
    rw [tokens_of_digit hd digit]
    unfold Leaves
    rw [number_of_digit hd digit]
    cases hn : Width.unsigned32
        (Nat.ofDigitChars 10 ((dropBlank text).takeWhile Char.isDigit) 0) with
    | some n =>
        have hn := Width.unsigned32_eq_some_iff.mp hn
        cases a with
        | some m =>
            simp only [NumberAt, ← hn, EStateM.Result.ok.injEq,
              Option.some.injEq, List.cons.injEq, Token.num.injEq,
              UInt32.toNat_inj]
            constructor
            · rintro ⟨rest', ⟨rfl, rfl⟩, rfl⟩
              exact ⟨rfl, rfl⟩
            · rintro ⟨rfl, rfl⟩
              exact ⟨_, ⟨rfl, rfl⟩, rfl⟩
        | none => simp [NumberAt]
    | none =>
        have hn := Width.unsigned32_eq_none_iff.mp hn
        cases a with
        | some m =>
            have hm := m.toNat_lt
            simp only [NumberAt, reduceCtorEq, false_and, exists_false,
              List.cons.injEq, Token.num.injEq, false_iff, not_and]
            omega
        | none => simp [NumberAt]
  · have hnot : ∀ c ∈ (dropBlank text).head?, c.isDigit = false := by
      intro c hc
      cases hd : dropBlank text with
      | nil => simp [hd] at hc
      | cons d rest =>
          simp only [hd, List.head?_cons, Option.mem_some_iff] at hc
          subst hc
          by_cases digit : d.isDigit = true
          · exact absurd ⟨d, rest, hd, digit⟩ hdigit
          · simpa using digit
    have hhead : ∀ n, (tokens text).head? ≠ some (.num n) := by
      intro n
      cases hd : dropBlank text with
      | nil => simp [tokens_of_dropBlank_eq_nil hd]
      | cons d rest => simp [tokens_of_mark hd (hnot d (by simp [hd]))]
    unfold Leaves
    rw [number_of_not_digit hnot]
    cases a with
    | some m =>
        have hm : tokens text ≠ .num m.toNat :: after := fun h =>
          hhead m.toNat (by simp [h])
        simp [NumberAt, hm]
    | none => simp [NumberAt, hhead]

/-- Tokens that begin with a mark, which is left out then, or do not. -/
def MarkAt (c : Char) (ts : List Token) : Bool → List Token → Prop
  | true, after => ts = .mark c :: after
  | false, after => ts = after ∧ ts.head? ≠ some (.mark c)

/-- A literal of one character is a mark, unless numbers are made of it. -/
theorem reads_literal {c : Char} (digit : c.isDigit = false) :
    Reads F (literal [c]) (MarkAt c) := by
  intro text found after _
  unfold Leaves literal
  cases hd : dropBlank text with
  | nil =>
      rw [tokens_of_dropBlank_eq_nil hd]
      cases found <;> simp [MarkAt]
  | cons d rest =>
      by_cases hcd : c = d
      · subst hcd
        rw [tokens_of_mark hd digit]
        cases found <;> simp [MarkAt]
      · have hhead : (tokens text).head? ≠ some (.mark c) := by
          by_cases hdig : d.isDigit = true
          · simp [tokens_of_digit hd hdig]
          · simp [tokens_of_mark hd (by simpa using hdig), Ne.symm hcd]
        have hrest : tokens (d :: rest) = tokens text := by
          rw [← hd, tokens_dropBlank]
        cases found with
        | false => simp [MarkAt, hcd, hhead, hrest]
        | true =>
            have hne : tokens text ≠ .mark c :: after := fun h =>
              hhead (by simp [h])
            simp [MarkAt, hcd, hne]

/-! ## Branches on a word -/

/-- A reader that goes one way behind a number and another way without one. -/
theorem Reads.number_bind {f : Option UInt32 → Reader β}
    {S : UInt32 → List Token → β → List Token → Prop}
    {T : List Token → β → List Token → Prop}
    (found : ∀ n, Reads F (f (some n)) (S n)) (missing : Reads F (f none) T) :
    Reads F (number >>= f) fun ts b after =>
      (∃ n mid, ts = .num n.toNat :: mid ∧ S n mid b after) ∨
        ((∀ n, ts.head? ≠ some (.num n)) ∧ T ts b after) := by
  refine (reads_number.bind_any
    (S := fun found => match found with | some n => S n | none => T) ?_).congr ?_
  · rintro (_ | n)
    · exact missing
    · exact found n
  · intro ts b after _
    constructor
    · rintro ⟨_ | n, mid, hnum, h⟩
      · obtain ⟨rfl, hhead⟩ := hnum
        exact Or.inr ⟨hhead, h⟩
      · exact Or.inl ⟨n, mid, hnum, h⟩
    · rintro (⟨n, mid, hnum, h⟩ | ⟨hhead, h⟩)
      · exact ⟨some n, mid, hnum, h⟩
      · exact ⟨none, ts, ⟨rfl, hhead⟩, h⟩

/-- A reader that goes one way behind a mark and another way without it. -/
theorem Reads.literal_bind {c : Char} {f : Bool → Reader β}
    {S T : List Token → β → List Token → Prop} (digit : c.isDigit = false)
    (found : Reads F (f true) S) (missing : Reads F (f false) T) :
    Reads F (literal [c] >>= f) fun ts b after =>
      (∃ mid, ts = .mark c :: mid ∧ S mid b after) ∨
        (ts.head? ≠ some (.mark c) ∧ T ts b after) := by
  refine ((reads_literal digit).bind_any
    (S := fun found => match found with | true => S | false => T) ?_).congr ?_
  · rintro (_ | _)
    · exact missing
    · exact found
  · intro ts b after _
    constructor
    · rintro ⟨_ | _, mid, hmark, h⟩
      · obtain ⟨rfl, hhead⟩ := hmark
        exact Or.inr ⟨hhead, h⟩
      · exact Or.inl ⟨mid, hmark, h⟩
    · rintro (⟨mid, hmark, h⟩ | ⟨hhead, h⟩)
      · exact ⟨true, mid, hmark, h⟩
      · exact ⟨false, ts, ⟨rfl, hhead⟩, h⟩

theorem reads_require {c : Char} (digit : c.isDigit = false) (what : String) :
    Reads F (require [c] what) fun ts _ after => ts = .mark c :: after := by
  apply (Reads.literal_bind digit (reads_pure ()) (reads_expected what)).congr
  intro ts _ after _
  simp

end DiceTray.Reader
