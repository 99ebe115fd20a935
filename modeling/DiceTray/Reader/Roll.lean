import DiceTray.Expr
import DiceTray.Reader.Separated

/-!
# The language of rolls

A roll is a series of clauses with `;` between them. A clause is a chain of terms with `&` between
them, behind an optional repeat count as in `4x`. A term is `3d8-5`: an optional count, the letter,
the sides, and an optional modifier. White space may stand in front of every word.

The readers expect letters in lower case.
-/

namespace DiceTray.Reader

/-- The part of a term behind its letter: the sides and an optional modifier. The blame for dice
that cannot be goes to the whole term, which began at `start`, with the white space behind it in
which a modifier was looked for. -/
def afterLetter (start : List Char) (count : UInt32) : Reader Dice := do
  let some sides ← number | expected "number of sides"
  let modifier ← integer
  match Dice.Request.check ⟨count, sides, modifier.getD 0⟩ with
  | .ok dice => return dice
  | .error error => throw ⟨.dice error, start, ← get⟩

/-- A term, which is one set of dice. The count is one where it is left out. -/
def term : Reader Dice := do
  let start ← here
  let count ← number
  require ['d'] "'d'"
  afterLetter start (count.getD 1)

/-- The terms behind the first of a chain that began at `start`. There may be so many of them. -/
def moreTerms (start : List Char) (room : Nat) : Reader (List Dice) := do
  if ← literal ['&'] then
    match room with
    | 0 => throw ⟨.chainTooLong, start, ← get⟩
    | room + 1 => return (← term) :: (← moreTerms start room)
  else
    return []

/-- A chain of terms, as the expression nested to the right. -/
def chain : Reader Expr := do
  let start ← get
  let first ← term
  let more ← moreTerms start (maxTerms - 1)
  return .chain first more

/-- The repeat count in front of a clause; one where there is none. A number that no `x` follows
belongs to the first term. -/
def repeats : Reader Nat := do
  let start ← here
  let count ← lookFor do
    let count ← number
    return if ← literal ['x'] then count else none
  match count with
  | none => return 1
  | some count =>
    if maxRepeats < count.toNat then
      throw ⟨.tooManyRepeats, start, ← get⟩
    else
      return count.toNat

/-- A clause, as the copies of its chain that it asks for. -/
def clause : Reader (List Expr) := do
  let copies ← repeats
  let expr ← chain
  return List.replicate copies expr

/-! ## What is left -/

theorem trailing_afterLetter (start : List Char) (count : UInt32) :
    Trailing (afterLetter start count) := by
  refine trailing_number.bind fun sides => ?_
  cases sides with
  | none => exact trailing_expected _
  | some sides =>
    refine trailing_integer.bind fun modifier => ?_
    split
    · exact trailing_pure _
    · exact trailing_get.bind fun _ => trailing_throw _

theorem trailing_term : Trailing term :=
  trailing_here.bind fun _ => trailing_number.bind fun _ =>
    (trailing_require _ _).bind fun _ => trailing_afterLetter _ _

theorem shortens_term : Shortens term :=
  trailing_here.bind_shortens fun _ => trailing_number.bind_shortens fun _ =>
    (shortens_require (by decide) _).bind fun _ => trailing_afterLetter _ _

theorem trailing_moreTerms (start : List Char) (room : Nat) : Trailing (moreTerms start room) := by
  induction room with
  | zero =>
    rw [moreTerms]
    refine (trailing_literal _).bind fun found => ?_
    cases found with
    | false => exact trailing_pure _
    | true => exact trailing_get.bind fun _ => trailing_throw _
  | succ room ih =>
    rw [moreTerms]
    refine (trailing_literal _).bind fun found => ?_
    cases found with
    | false => exact trailing_pure _
    | true => exact trailing_term.bind fun _ => ih.bind fun _ => trailing_pure _

theorem trailing_chain : Trailing chain :=
  trailing_get.bind fun _ => trailing_term.bind fun _ =>
    (trailing_moreTerms _ _).bind fun _ => trailing_pure _

theorem shortens_chain : Shortens chain :=
  trailing_get.bind_shortens fun _ => shortens_term.bind fun _ =>
    (trailing_moreTerms _ _).bind fun _ => trailing_pure _

theorem trailing_repeats : Trailing repeats := by
  refine trailing_here.bind fun start => Trailing.bind (Trailing.lookFor ?_) fun count => ?_
  · exact trailing_number.bind fun _ => (trailing_literal _).bind fun _ => trailing_pure _
  · cases count with
    | none => exact trailing_pure _
    | some count =>
      dsimp only
      split
      · exact trailing_get.bind fun _ => trailing_throw _
      · exact trailing_pure _

theorem trailing_clause : Trailing clause :=
  trailing_repeats.bind fun _ => trailing_chain.bind fun _ => trailing_pure _

theorem shortens_clause : Shortens clause :=
  trailing_repeats.bind_shortens fun _ => shortens_chain.bind fun _ => trailing_pure _

/-! ## Rolls -/

/-- The clauses of a roll, with the copies of each in a row. -/
def clauses : Reader (List Expr) := do
  let read ← separated clause [';'] shortens_clause (by decide)
  return read.flatten

/-- A roll is a clause and, behind a `;`, the clauses of another roll. -/
theorem clauses_eq :
    clauses = do
      let es ← clause
      if ← literal [';'] then
        let more ← clauses
        return es ++ more
      else
        return es := by
  unfold clauses
  conv => lhs; rw [separated_eq]
  rw [bind_assoc]
  refine bind_congr fun es => ?_
  rw [bind_assoc]
  refine bind_congr fun found => ?_
  cases found with
  | true => simp only [if_true, bind_assoc, pure_bind, List.flatten_cons]
  | false => simp

theorem trailing_clauses : Trailing clauses :=
  (trailing_clause.separated _ _ _).bind fun _ => trailing_pure _

end DiceTray.Reader
