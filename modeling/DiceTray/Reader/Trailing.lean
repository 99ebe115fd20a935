import DiceTray.Reader

/-!
# What readers leave

`Trailing` says that a reader leaves a part of the text it was given, whether it succeeds or not,
and `Shortens` that a success has consumed something. Both carry over from the steps of a reader to
the whole. A repetition ends because what it repeats shortens the text.
-/

namespace DiceTray.Reader

open Text

variable {α β : Type}

/-- The text left behind by a reader, successful or not. -/
def left : EStateM.Result Fault (List Char) α → List Char
  | .ok _ rest => rest
  | .error _ rest => rest

/-- A reader leaves a part of its text. -/
def Trailing (p : Reader α) : Prop :=
  ∀ text, left (p text) <:+ text

/-- A reader that succeeds has consumed something. -/
def Shortens (p : Reader α) : Prop :=
  ∀ text value rest, p text = .ok value rest → rest.length < text.length

theorem Trailing.length_le {p : Reader α} (hp : Trailing p) {text rest : List Char} {value : α}
    (h : p text = .ok value rest) : rest.length ≤ text.length := by
  have := (hp text).length_le
  rwa [h] at this

theorem trailing_pure (a : α) : Trailing (pure a) := fun text => List.suffix_refl text

theorem trailing_throw (fault : Fault) : Trailing (throw fault : Reader α) :=
  fun text => List.suffix_refl text

theorem trailing_get : Trailing (get : Reader (List Char)) := fun text => List.suffix_refl text

theorem Trailing.bind {p : Reader α} {f : α → Reader β} (hp : Trailing p)
    (hf : ∀ a, Trailing (f a)) : Trailing (p >>= f) := by
  intro text
  have hp := hp text
  show left (EStateM.bind p f text) <:+ text
  unfold EStateM.bind
  cases h : p text with
  | ok a rest =>
    rw [h] at hp
    exact (hf a rest).trans hp
  | error fault rest => rwa [h] at hp

theorem Shortens.bind {p : Reader α} {f : α → Reader β} (hp : Shortens p)
    (hf : ∀ a, Trailing (f a)) : Shortens (p >>= f) := by
  intro text b rest h
  change EStateM.bind p f text = _ at h
  unfold EStateM.bind at h
  cases hpa : p text with
  | ok a mid =>
    rw [hpa] at h
    exact Nat.lt_of_le_of_lt ((hf a).length_le h) (hp _ _ _ hpa)
  | error fault mid => simp [hpa] at h

theorem Trailing.bind_shortens {p : Reader α} {f : α → Reader β} (hp : Trailing p)
    (hf : ∀ a, Shortens (f a)) : Shortens (p >>= f) := by
  intro text b rest h
  change EStateM.bind p f text = _ at h
  unfold EStateM.bind at h
  cases hpa : p text with
  | ok a mid =>
    rw [hpa] at h
    exact Nat.lt_of_lt_of_le (hf a _ _ _ h) (hp.length_le hpa)
  | error fault mid => simp [hpa] at h

theorem shortens_throw (fault : Fault) : Shortens (throw fault : Reader α) := by
  intro text value rest h
  cases h

theorem trailing_here : Trailing here := dropBlank_suffix

theorem trailing_number : Trailing number := by
  intro text
  unfold number
  dsimp only
  split
  · exact dropBlank_suffix text
  · split
    · exact (List.dropWhile_suffix _).trans (dropBlank_suffix text)
    · exact dropBlank_suffix text

theorem trailing_literal (lit : List Char) : Trailing (literal lit) := by
  intro text
  unfold literal
  dsimp only
  split
  · exact (List.drop_suffix _ _).trans (dropBlank_suffix text)
  · exact dropBlank_suffix text

/-- A literal that is found is consumed. -/
theorem length_lt_of_literal {lit text rest : List Char} (hlit : lit ≠ [])
    (h : literal lit text = .ok true rest) : rest.length < text.length := by
  unfold literal at h
  dsimp only at h
  split at h
  · rename_i found
    cases h
    have := (List.isPrefixOf_iff_prefix.1 found).length_le
    have := length_dropBlank_le text
    have := List.length_pos_iff.2 hlit
    simp only [List.length_drop]
    omega
  · cases h

theorem trailing_expected (what : String) : Trailing (expected what : Reader α) :=
  trailing_here.bind fun _ => trailing_throw _

theorem shortens_expected (what : String) : Shortens (expected what : Reader α) :=
  trailing_here.bind_shortens fun _ => shortens_throw _

theorem trailing_require (lit : List Char) (what : String) : Trailing (require lit what) :=
  (trailing_literal lit).bind fun
    | true => trailing_pure _
    | false => trailing_expected _

theorem shortens_require {lit : List Char} (hlit : lit ≠ []) (what : String) :
    Shortens (require lit what) := by
  intro text value rest h
  change EStateM.bind (literal lit) _ text = _ at h
  unfold EStateM.bind at h
  split at h
  · rename_i found mid hfound
    cases found with
    | true =>
      cases h
      exact length_lt_of_literal hlit hfound
    | false =>
      have := shortens_expected what mid value rest h
      have between := trailing_literal lit text
      rw [hfound] at between
      exact Nat.lt_of_lt_of_le this between.length_le
  · cases h

theorem Trailing.orUnread {p : Reader (Option α)} (hp : Trailing p) : Trailing (orUnread p) := by
  intro text
  have hp := hp text
  unfold Reader.orUnread
  split
  · exact List.suffix_refl text
  · exact hp

theorem Trailing.lookFor {p : Reader (Option α)} (hp : Trailing p) : Trailing (lookFor p) := by
  intro text
  have hp := hp text
  unfold Reader.lookFor
  split
  · rename_i h
    rwa [h] at hp
  · exact List.suffix_refl text

theorem trailing_sign : Trailing sign :=
  (trailing_literal _).bind fun
    | true => trailing_pure _
    | false => (trailing_literal _).bind fun
      | true => trailing_pure _
      | false => trailing_pure _

theorem trailing_integer : Trailing integer := by
  refine trailing_here.bind fun start => Trailing.orUnread ?_
  refine trailing_sign.bind fun factor => trailing_number.bind fun found => ?_
  cases found with
  | none => exact trailing_pure _
  | some n =>
    dsimp only
    split
    · exact trailing_pure _
    · exact trailing_get.bind fun _ => trailing_throw _

end DiceTray.Reader
