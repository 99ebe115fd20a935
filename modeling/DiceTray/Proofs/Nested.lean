import DiceTray.Proofs.Places

/-!
# Productions word by word

A production of the language is run as one reader within an attempt. Here the
productions are put together from the words of a cursor and from one another.
Each is an attempt of its own, with further attempts inside of it. The spans of
its errors come from places that it noted on its way, as offsets into the whole
text, and it goes back to such a place where it has looked ahead in vain.

A reader knows no places. So a run from a cursor is set beside the run of a
reader on what the cursor has to read: they end with related values in front of
the same rest, or with the same fault (`Follows`). Where a run that fails has
left the cursor does not matter, since the attempt around it goes back. So both
ways to write a production come to the same (`run_attempt_eq`).
-/

namespace DiceTray

open Text

namespace Cursor

variable {α α' β β' ε : Type}

/-- The place of the cursor, as an offset into its text. -/
def place : EStateM ε Cursor Nat := return (← get).position

namespace Nested

/-! ## Productions -/

/-- Goes back to where it came from if it reads nothing. -/
def orBack (P : EStateM ε Cursor (Option α)) : EStateM ε Cursor (Option α) := do
  let start ← place
  let found ← P
  if found.isNone then restore start
  return found

/-- Looks ahead: goes back to where it came from if it reads nothing or fails. -/
def lookFor (P : EStateM ε Cursor (Option α)) : EStateM ε Cursor (Option α) :=
  orBack (tryCatch P fun _ => pure none)

def require (lit what : String) : EStateM ParseError Cursor Unit := do
  unless ← literal lit do
    expected what

def sign : EStateM ParseError Cursor Int := do
  if ← literal "+" then return 1
  if ← literal "-" then return -1
  return 1

def integer : EStateM ParseError Cursor (Option Int32) := do
  skipBlank
  let start ← place
  orBack do
    let factor ← sign
    let some n ← number | return none
    let some value := Width.signed32 (factor * n.toNat) | throw ⟨.overflow, start, ← place⟩
    return some value

def afterLetter (start : Nat) (count : UInt32) : EStateM ParseError Cursor Dice := do
  let some sides ← number | expected "number of sides"
  let modifier ← integer
  match Dice.Request.check ⟨count, sides, modifier.getD 0⟩ with
  | .ok dice => return dice
  | .error error => throw ⟨.dice error, start, ← place⟩

def term : EStateM ParseError Cursor Dice := attempt do
  skipBlank
  let start ← place
  let count ← number
  require "d" "'d'"
  afterLetter start (count.getD 1)

def moreTerms (start : Nat) : Nat → EStateM ParseError Cursor (List Dice)
  | 0 => do
    if ← literal "&" then
      throw ⟨.chainTooLong, start, ← place⟩
    else
      return []
  | room + 1 => do
    if ← literal "&" then
      return (← term) :: (← moreTerms start room)
    else
      return []

def chain : EStateM ParseError Cursor Expr := attempt do
  let start ← place
  let first ← term
  let more ← moreTerms start (maxTerms - 1)
  return .chain first more

def repeats : EStateM ParseError Cursor Nat := do
  skipBlank
  let start ← place
  let count ← lookFor do
    let count ← number
    return if ← literal "x" then count else none
  match count with
  | none => return 1
  | some count =>
    if maxRepeats < count.toNat then
      throw ⟨.tooManyRepeats, start, ← place⟩
    else
      return count.toNat

def clause : EStateM ParseError Cursor (List Expr) := attempt do
  let copies ← repeats
  let expr ← chain
  return List.replicate copies expr

end Nested

/-! ## Steps -/

section Steps

variable {P : EStateM ε Cursor α} {f : α → EStateM ε Cursor β}
  {Q : ε → EStateM ε Cursor α} {a : α} {error : ε} {c c' : Cursor}

theorem run_bind_of_ok (h : P.run c = .ok a c') : (P >>= f).run c = (f a).run c' := by
  show EStateM.bind P f c = _
  change P c = _ at h
  simp only [EStateM.bind, h]
  rfl

theorem run_bind_of_error (h : P.run c = .error error c') :
    (P >>= f).run c = .error error c' := by
  show EStateM.bind P f c = _
  change P c = _ at h
  simp only [EStateM.bind, h]

theorem run_tryCatch_of_ok (h : P.run c = .ok a c') :
    (tryCatch P Q).run c = .ok a c' := by
  show EStateM.tryCatch P Q c = _
  change P c = _ at h
  unfold EStateM.tryCatch
  rw [h]

theorem run_tryCatch_of_error (h : P.run c = .error error c') :
    (tryCatch P Q).run c = (Q error).run c' := by
  show EStateM.tryCatch P Q c = _
  change P c = _ at h
  unfold EStateM.tryCatch
  rw [h]
  rfl

theorem run_attempt_of_ok (h : P.run c = .ok a c') : (attempt P).run c = .ok a c' := by
  show attempt P c = _
  simp only [attempt, h]

theorem run_attempt_of_error (h : P.run c = .error error c') :
    (attempt P).run c = .error error ⟨c'.text, c.position⟩ := by
  show attempt P c = _
  simp only [attempt, h]

theorem run_attempt_eq_ok_iff : (attempt P).run c = .ok a c' ↔ P.run c = .ok a c' := by
  cases h : P.run c with
  | ok => rw [run_attempt_of_ok h]
  | error => simp only [run_attempt_of_error h, reduceCtorEq]

/-- What is attempted may be attempted before. -/
theorem attempt_attempt (P : EStateM ε Cursor α) : attempt (attempt P) = attempt P := by
  funext c
  show (attempt (attempt P)).run c = (attempt P).run c
  cases h : P.run c with
  | ok a c' => rw [run_attempt_of_ok h, run_attempt_of_ok (run_attempt_of_ok h)]
  | error error c' => rw [run_attempt_of_error h, run_attempt_of_error (run_attempt_of_error h)]

end Steps

/-! ## Runs beside the run of a reader -/

/-- The cursor in a text that has this rest of it to read. -/
def facing (whole rest : List Char) : Cursor :=
  ⟨whole, byteLength whole - byteLength rest⟩

/-- A place in a text, told by what is left of the text there. -/
def PlaceOf (whole : List Char) (offset : Nat) (rest : List Char) : Prop :=
  offset = byteLength whole - byteLength rest

/-- Two runs that end in the same way: with related values in front of the same
rest, or with the same fault. -/
inductive Ends (whole : List Char) (V : α → β → Prop) :
    EStateM.Result ParseError Cursor α → EStateM.Result Fault (List Char) β → Prop
  | ok {a : α} {b : β} {rest : List Char} :
      V a b → rest <:+ whole → Ends whole V (.ok a (facing whole rest)) (.ok b rest)
  | error {fault : Fault} {rest : List Char} {offset : Nat} :
      Ends whole V (.error (fault.toError (byteLength whole)) ⟨whole, offset⟩)
        (.error fault rest)

/-- At every place of a text a program does as a reader does on what is left. -/
def Follows (whole : List Char) (V : α → β → Prop) (P : EStateM ParseError Cursor α)
    (p : Reader β) : Prop :=
  ∀ rest, rest <:+ whole → Ends whole V (P.run (facing whole rest)) (p rest)

theorem rest_facing {whole rest : List Char} (h : rest <:+ whole) :
    (facing whole rest).rest = rest :=
  rest_moveTo (c := ⟨whole, 0⟩) h

theorem eq_facing {c : Cursor} (h : IsBoundary c.text c.position) :
    c = facing c.text c.rest := by
  have hlength := h.byteLength_eq
  change byteLength c.text = c.position + byteLength c.rest at hlength
  cases c
  simp only [facing, mk.injEq, true_and] at hlength ⊢
  omega

section Follows

variable {whole : List Char} {V : α → β → Prop} {W : α' → β' → Prop}
  {P : EStateM ParseError Cursor α} {f : α → EStateM ParseError Cursor α'} {c : Cursor}

theorem follows_read {p : Reader α} (hp : p.Trailing) : Follows whole Eq (read p) p := by
  intro rest hrest
  have hleft := (hp rest).trans hrest
  have hfacing := rest_facing hrest
  cases h : p rest with
  | ok a rest' =>
      have hrun : (read p).run (facing whole rest) = .ok a (facing whole rest') :=
        run_read_eq_ok_iff.mpr ⟨rest', by rw [hfacing, h], rfl⟩
      rw [h] at hleft
      rw [hrun]
      exact .ok rfl hleft
  | error fault rest' =>
      have hrun : (read p).run (facing whole rest) =
          .error (fault.toError (byteLength whole)) (facing whole rest') :=
        run_read_eq_error_iff.mpr ⟨fault, rest', by rw [hfacing, h], rfl, rfl⟩
      rw [hrun]
      exact .error

theorem follows_pure {a : α} {b : β} (h : V a b) : Follows whole V (pure a) (pure b) :=
  fun _ hrest => .ok h hrest

/-- One step after the other, from one place of the text. -/
theorem Ends.bind {p : Reader β} {g : β → Reader β'} {rest : List Char}
    (h : Ends whole V (P.run c) (p rest))
    (hf : ∀ a b rest', p rest = .ok b rest' → V a b → rest' <:+ whole →
      Ends whole W ((f a).run (facing whole rest')) (g b rest')) :
    Ends whole W ((P >>= f).run c) ((p >>= g) rest) := by
  generalize hp : p rest = result at h
  generalize hrun : P.run c = result' at h
  cases h with
  | ok hV hrest' =>
      rw [run_bind_of_ok hrun, Reader.bind_of_ok hp]
      exact hf _ _ _ hp hV hrest'
  | error =>
      rw [run_bind_of_error hrun, Reader.bind_of_error hp]
      exact .error

theorem Follows.bind {p : Reader β} {g : β → Reader β'} (hP : Follows whole V P p)
    (hf : ∀ a b, V a b → Follows whole W (f a) (g b)) :
    Follows whole W (P >>= f) (p >>= g) := fun rest hrest =>
  (hP rest hrest).bind fun a b rest' _ hV hrest' => hf a b hV rest' hrest'

/-- The place of the cursor, and what is left there. -/
theorem follows_place : Follows whole (PlaceOf whole) place get :=
  fun _ hrest => .ok rfl hrest

/-- The place behind white space, and what is left there. -/
theorem follows_here {g : Nat → EStateM ParseError Cursor α} {g' : List Char → Reader β}
    (h : ∀ start rest, PlaceOf whole start rest → Follows whole V (g start) (g' rest)) :
    Follows whole V (skipBlank >>= fun _ => place >>= g) (Reader.here >>= g') := by
  intro rest hrest
  have hskip : skipBlank.run (facing whole rest) = .ok () (facing whole (dropBlank rest)) :=
    run_read_eq_ok_iff.mpr ⟨dropBlank rest, by rw [rest_facing hrest]; rfl, rfl⟩
  rw [run_bind_of_ok hskip, Reader.bind_of_ok (Reader.here_eq rest)]
  exact h _ _ rfl _ ((dropBlank_suffix rest).trans hrest)

/-- A fault from a place that was noted up to the place of the cursor. -/
theorem follows_fault {kind : ParseError.Kind} {start : Nat} {rest : List Char}
    (h : PlaceOf whole start rest) :
    Follows whole V (place >>= fun stop => throw ⟨kind, start, stop⟩)
      (get >>= fun stop => throw ⟨kind, rest, stop⟩) := by
  intro stop _
  cases h
  exact @Ends.error _ _ whole V ⟨kind, rest, stop⟩ stop _

/-- An attempt ends as what is attempted. -/
theorem Follows.attempt {p : Reader β} (h : Follows whole V P p) :
    Follows whole V (attempt P) p := by
  intro rest hrest
  have h := h rest hrest
  generalize p rest = result at h
  generalize hrun : P.run (facing whole rest) = result' at h
  cases h with
  | ok hV hrest' =>
      rw [run_attempt_of_ok hrun]
      exact .ok hV hrest'
  | error =>
      rw [run_attempt_of_error hrun]
      exact .error

/-- Attempts at what ends in the same way do the same. -/
theorem run_attempt_congr {Q : EStateM ParseError Cursor α}
    {result : EStateM.Result Fault (List Char) α} (hP : Ends whole Eq (P.run c) result)
    (hQ : Ends whole Eq (Q.run c) result) :
    (attempt P).run c = (attempt Q).run c := by
  generalize hrunP : P.run c = result' at hP
  generalize hrunQ : Q.run c = result'' at hQ
  cases hP with
  | ok hV _ =>
      subst hV
      cases hQ with
      | ok hV _ =>
          subst hV
          rw [run_attempt_of_ok hrunP, run_attempt_of_ok hrunQ]
  | error =>
      cases hQ with
      | error => rw [run_attempt_of_error hrunP, run_attempt_of_error hrunQ]

/-- An attempt that ends as a reader does is the attempt at the reader. -/
theorem run_attempt_eq {p : Reader α} (h : ∀ whole, Follows whole Eq (attempt P) p)
    (hp : p.Trailing) (hc : IsBoundary c.text c.position) :
    (attempt P).run c = (attempt (read p)).run c := by
  rw [← attempt_attempt P, eq_facing hc]
  exact run_attempt_congr (h _ _ c.rest_suffix) (follows_read hp _ c.rest_suffix)

/-- Going back where nothing was read is the same as not having consumed it. -/
theorem Follows.orBack {P : EStateM ParseError Cursor (Option α)} {p : Reader (Option α)}
    (h : Follows whole Eq P p) : Follows whole Eq (Nested.orBack P) (Reader.orUnread p) := by
  intro rest hrest
  have h := h rest hrest
  have hplace : (place : EStateM ParseError Cursor Nat).run (facing whole rest) =
      .ok (facing whole rest).position (facing whole rest) := rfl
  unfold Nested.orBack Reader.orUnread
  rw [run_bind_of_ok hplace]
  generalize p rest = result at h
  generalize hrun : P.run (facing whole rest) = result' at h
  cases h with
  | @ok found _ _ hV hrest' =>
      subst hV
      rw [run_bind_of_ok hrun]
      cases found with
      | none => exact .ok rfl hrest
      | some a => exact .ok rfl hrest'
  | error =>
      rw [run_bind_of_error hrun]
      exact .error

theorem Follows.lookFor {P : EStateM ParseError Cursor (Option α)} {p : Reader (Option α)}
    (h : Follows whole Eq P p) : Follows whole Eq (Nested.lookFor P) (Reader.lookFor p) := by
  intro rest hrest
  have h := h rest hrest
  have hplace : (place : EStateM ParseError Cursor Nat).run (facing whole rest) =
      .ok (facing whole rest).position (facing whole rest) := rfl
  unfold Nested.lookFor Nested.orBack Reader.lookFor
  rw [run_bind_of_ok hplace]
  generalize p rest = result at h
  generalize hrun : P.run (facing whole rest) = result' at h
  cases h with
  | @ok found _ _ hV hrest' =>
      subst hV
      rw [run_bind_of_ok (run_tryCatch_of_ok hrun)]
      cases found with
      | none => exact .ok rfl hrest
      | some a => exact .ok rfl hrest'
  | error =>
      rw [run_bind_of_ok (run_tryCatch_of_error (Q := fun _ => pure none) hrun)]
      exact .ok rfl hrest

/-! ## Productions beside readers -/

theorem follows_literal (lit : String) :
    Follows whole Eq (literal lit) (Reader.literal lit.toList) :=
  follows_read (Reader.trailing_literal _)

theorem follows_number : Follows whole Eq number Reader.number :=
  follows_read Reader.trailing_number

theorem follows_expected (what : String) :
    Follows whole Eq (expected what : EStateM ParseError Cursor α) (Reader.expected what) :=
  follows_read (Reader.trailing_expected what)

theorem follows_require (lit what : String) :
    Follows whole Eq (Nested.require lit what) (Reader.require lit.toList what) := by
  apply (follows_literal lit).bind
  rintro (_ | _) _ rfl
  · exact follows_expected what
  · exact follows_pure rfl

theorem follows_sign : Follows whole Eq Nested.sign Reader.sign := by
  apply (follows_literal "+").bind
  rintro (_ | _) _ rfl
  · apply (follows_literal "-").bind
    rintro (_ | _) _ rfl
    · exact follows_pure rfl
    · exact follows_pure rfl
  · exact follows_pure rfl

theorem follows_integer : Follows whole Eq Nested.integer Reader.integer := by
  apply follows_here
  intro start rest hstart
  apply Follows.orBack
  apply follows_sign.bind
  rintro factor _ rfl
  apply follows_number.bind
  rintro (_ | n) _ rfl
  · exact follows_pure rfl
  · dsimp only
    cases Width.signed32 (factor * n.toNat) with
    | none => exact follows_fault hstart
    | some value => exact follows_pure rfl

theorem follows_afterLetter {start : Nat} {rest : List Char}
    (hstart : PlaceOf whole start rest) (count : UInt32) :
    Follows whole Eq (Nested.afterLetter start count) (Reader.afterLetter rest count) := by
  apply follows_number.bind
  rintro (_ | sides) _ rfl
  · exact follows_expected _
  · apply follows_integer.bind
    rintro modifier _ rfl
    cases Dice.Request.check ⟨count, sides, modifier.getD 0⟩ with
    | ok dice => exact follows_pure rfl
    | error error => exact follows_fault hstart

theorem follows_term : Follows whole Eq Nested.term Reader.term := by
  apply Follows.attempt
  apply follows_here
  intro start rest hstart
  apply follows_number.bind
  rintro count _ rfl
  apply (follows_require "d" _).bind
  rintro - - -
  exact follows_afterLetter hstart _

theorem follows_moreTerms {start : Nat} {rest : List Char}
    (hstart : PlaceOf whole start rest) (room : Nat) :
    Follows whole Eq (Nested.moreTerms start room) (Reader.moreTerms rest room) := by
  induction room with
  | zero =>
      rw [Nested.moreTerms, Reader.moreTerms]
      apply (follows_literal "&").bind
      rintro (_ | _) _ rfl
      · exact follows_pure rfl
      · exact follows_fault hstart
  | succ room ih =>
      rw [Nested.moreTerms, Reader.moreTerms]
      apply (follows_literal "&").bind
      rintro (_ | _) _ rfl
      · exact follows_pure rfl
      · apply follows_term.bind
        rintro d _ rfl
        apply ih.bind
        rintro ds _ rfl
        exact follows_pure rfl

theorem follows_chain : Follows whole Eq Nested.chain Reader.chain := by
  apply Follows.attempt
  apply follows_place.bind
  intro start rest hstart
  apply follows_term.bind
  rintro first _ rfl
  apply (follows_moreTerms hstart _).bind
  rintro more _ rfl
  exact follows_pure rfl

theorem follows_repeats : Follows whole Eq Nested.repeats Reader.repeats := by
  apply follows_here
  intro start rest hstart
  refine Follows.bind (Follows.lookFor ?_) ?_
  · apply follows_number.bind
    rintro count _ rfl
    apply (follows_literal "x").bind
    rintro found _ rfl
    exact follows_pure rfl
  · rintro (_ | n) _ rfl
    · exact follows_pure rfl
    · dsimp only
      split
      · exact follows_fault hstart
      · exact follows_pure rfl

theorem follows_clause : Follows whole Eq Nested.clause Reader.clause := by
  apply Follows.attempt
  apply follows_repeats.bind
  rintro copies _ rfl
  apply follows_chain.bind
  rintro e _ rfl
  exact follows_pure rfl

end Follows

/-! ## Rounds -/

namespace Nested

/-- A clause goes over white space first. From a place from which nothing can be
read that leads to the end of the text. So a clause is read as its reader says,
wherever the cursor is. -/
theorem run_clause_eq_ok_iff {es : List Expr} {c c' : Cursor} :
    clause.run c = .ok es c' ↔
      ∃ rest, Reader.clause c.rest = .ok es rest ∧ c' = facing c.text rest := by
  have hskip : ∀ d : Cursor, d.text = c.text → d.rest = c.rest →
      skipBlank.run d = .ok () (facing c.text (dropBlank c.rest)) := fun d htext hrest =>
    run_read_eq_ok_iff.mpr ⟨dropBlank c.rest, by rw [hrest]; rfl, by rw [← htext]; rfl⟩
  have hsame : clause.run c = .ok es c' ↔
      clause.run (facing c.text c.rest) = .ok es c' := by
    unfold clause repeats
    simp only [bind_assoc]
    rw [run_attempt_eq_ok_iff, run_attempt_eq_ok_iff, run_bind_of_ok (hskip c rfl rfl),
      run_bind_of_ok (hskip (facing c.text c.rest) rfl (rest_facing c.rest_suffix))]
  have hends := follows_clause c.rest c.rest_suffix
  rw [hsame]
  generalize clause.run (facing c.text c.rest) = result at hends
  generalize Reader.clause c.rest = result' at hends
  cases hends with
  | @ok es' _ rest hV _ =>
      subst hV
      constructor
      · rintro ⟨⟩
        exact ⟨rest, rfl, rfl⟩
      · rintro ⟨_, ⟨⟩, rfl⟩
        rfl
  | error => simp

/-- Every round leaves less to read. -/
theorem length_lt_of_round {es : List Expr} {found : Bool} {c c' c'' : Cursor}
    (hclause : clause.run c = .ok es c') (hmark : (literal ";").run c' = .ok found c'') :
    c''.rest.length < c.rest.length := by
  obtain ⟨rest, hread, rfl⟩ := run_clause_eq_ok_iff.mp hclause
  obtain ⟨rest', hread', rfl⟩ := run_read_eq_ok_iff.mp hmark
  have htrailing := Reader.trailing_clause c.rest
  rw [hread] at htrailing
  have hsuffix : rest <:+ c.text := htrailing.trans c.rest_suffix
  rw [rest_facing hsuffix] at hread'
  have htrailing' := Reader.trailing_literal ";".toList rest
  rw [hread'] at htrailing'
  have hrest : (facing c.text rest').rest = rest' := rest_facing (htrailing'.trans hsuffix)
  change (facing c.text rest').rest.length < _
  rw [hrest]
  exact Nat.lt_of_le_of_lt htrailing'.length_le (Reader.shortens_clause _ _ _ hread)

/-- Clauses with a `;` between each two. -/
def rounds : EStateM ParseError Cursor (List Expr) := fun c =>
  match _first : clause.run c with
  | .error error c' => .error error c'
  | .ok es c' =>
    match _mark : (literal ";").run c' with
    | .error error c'' => .error error c''
    | .ok false c'' => .ok es c''
    | .ok true c'' =>
      match rounds c'' with
      | .error error last => .error error last
      | .ok more last => .ok (es ++ more) last
termination_by c => c.rest.length
decreasing_by exact length_lt_of_round _first _mark

theorem rounds_eq :
    rounds = do
      let es ← clause
      if ← literal ";" then
        let more ← rounds
        return es ++ more
      else
        return es := by
  funext c
  rw [rounds]
  split
  · rename_i h
    exact (run_bind_of_error h).symm
  · rename_i h
    refine Eq.trans ?_ (run_bind_of_ok h).symm
    split
    · rename_i h'
      exact (run_bind_of_error h').symm
    · rename_i h'
      refine Eq.trans ?_ (run_bind_of_ok h').symm
      rfl
    · rename_i h'
      refine Eq.trans ?_ (run_bind_of_ok h').symm
      split
      · rename_i h''
        exact (run_bind_of_error h'').symm
      · rename_i h''
        refine Eq.trans ?_ (run_bind_of_ok h'').symm
        rfl

def clauses : EStateM ParseError Cursor (List Expr) :=
  attempt rounds

end Nested

theorem follows_rounds {whole : List Char} :
    Follows whole Eq Nested.rounds Reader.clauses := by
  intro rest hrest
  -- Rounds are told by the text they leave, which gets shorter.
  induction hn : rest.length using Nat.strongRecOn generalizing rest with
  | ind n ih =>
      subst hn
      rw [Nested.rounds_eq, Reader.clauses_eq]
      apply (follows_clause rest hrest).bind
      rintro es _ rest' hfirst rfl hrest'
      apply (follows_literal ";" rest' hrest').bind
      rintro found _ rest'' hmark rfl hrest''
      cases found with
      | false => exact .ok rfl hrest''
      | true =>
          have shorter := Nat.lt_trans (Reader.length_lt_of_literal (by decide) hmark)
            (Reader.shortens_clause _ _ _ hfirst)
          apply (ih _ shorter rest'' hrest'' rfl).bind
          rintro more _ last - rfl hlast
          exact .ok rfl hlast

theorem follows_clauses {whole : List Char} :
    Follows whole Eq Nested.clauses Reader.clauses :=
  follows_rounds.attempt

end Cursor

end DiceTray
