import DiceTray.Reader.Trailing

/-!
# Repetition

`separated p sep` reads with `p` once, and again after every separator. It goes on for as long as
there is one, so a separator with nothing behind it is a fault of `p`. The text gets shorter with
every round, which is what the recursion ends by; `separated_eq` is the recursion without it.
-/

namespace DiceTray.Reader

variable {α : Type}

/-- The values that `p` reads, one or more, with a separator between each two. -/
def separated (p : Reader α) (sep : List Char) (hp : Shortens p) (hsep : sep ≠ []) :
    Reader (List α) := fun text =>
  match _first : p text with
  | .error fault rest => .error fault rest
  | .ok value rest =>
    match _more : literal sep rest with
    | .error fault rest => .error fault rest
    | .ok false rest => .ok [value] rest
    | .ok true rest =>
      match separated p sep hp hsep rest with
      | .error fault rest => .error fault rest
      | .ok values rest => .ok (value :: values) rest
termination_by text => text.length
decreasing_by exact Nat.lt_trans (length_lt_of_literal hsep _more) (hp _ _ _ _first)

theorem separated_eq (p : Reader α) (sep : List Char) (hp : Shortens p) (hsep : sep ≠ []) :
    separated p sep hp hsep = do
      let value ← p
      if ← literal sep then
        let values ← separated p sep hp hsep
        return value :: values
      else
        return [value] := by
  funext text
  rw [separated]
  show _ = EStateM.bind p _ text
  unfold EStateM.bind
  cases p text with
  | error fault rest => rfl
  | ok value rest =>
    show _ = EStateM.bind (literal sep) _ rest
    unfold EStateM.bind
    dsimp only
    cases literal sep rest with
    | error fault rest => rfl
    | ok found rest =>
      cases found with
      | false => rfl
      | true =>
        show _ = EStateM.bind (separated p sep hp hsep) _ rest
        unfold EStateM.bind
        dsimp only
        cases separated p sep hp hsep rest <;> rfl

theorem Trailing.separated {p : Reader α} (trailing : Trailing p) (sep : List Char)
    (hp : Shortens p) (hsep : sep ≠ []) : Trailing (separated p sep hp hsep) := by
  intro text
  induction hn : text.length using Nat.strongRecOn generalizing text with
  | ind n ih =>
    subst hn
    have first := trailing text
    rw [Reader.separated]
    split
    · rename_i fault rest hpt
      rwa [hpt] at first
    · rename_i value rest hpt
      rw [hpt] at first
      have between := trailing_literal sep rest
      split
      · rename_i fault rest' hlit
        rw [hlit] at between
        exact between.trans first
      · rename_i rest' hlit
        rw [hlit] at between
        exact between.trans first
      · rename_i rest' hlit
        rw [hlit] at between
        have shorter := Nat.lt_trans (length_lt_of_literal hsep hlit) (hp _ _ _ hpt)
        have more := (ih _ shorter rest' rfl).trans (between.trans first)
        split
        · rename_i fault rest'' hmore
          rwa [hmore] at more
        · rename_i values rest'' hmore
          rwa [hmore] at more

end DiceTray.Reader
