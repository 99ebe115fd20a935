import DiceTray.Proofs.Consumption
import DiceTray.Proofs.Nested

/-!
# Passes of a loop

Terms with `&` between them and clauses with `;` between them are read in loops,
which gather what they read. A pass of such a loop ends it, fails, or is followed
by another pass (`Turn`). What has been gathered does not tell how many passes
there were, since a clause that is asked for no times adds nothing to it. It is
the text that ends a loop: a pass that is not the last has taken three bytes from
it at least, so a loop that has so many bytes in front of it is over after a third
as many passes, with a value or with an error (`Runs.exists_of_paid`).

The loops are what chains and rolls of clauses are read by. A reader does the
same as a loop if it does one pass and then, if there is to be another one, goes
on with what has been gathered (`Unrolls`).
-/

namespace DiceTray

open Text

variable {α β ε : Type}

/-- How a pass ends that does not fail: the loop is over, or it goes on. Both with
what has been gathered so far. -/
inductive Turn (α : Type) where
  | ended (gathered : α)
  | again (gathered : α)
deriving DecidableEq

/-- The bytes that a pass takes: three if there is another one, and these if it is
the last. -/
def Turn.bytes (last : Nat) : Turn α → Nat
  | .ended _ => last
  | .again _ => 3

def Turn.gathered : Turn α → α
  | .ended gathered => gathered
  | .again gathered => gathered

/-! ## Passes of readers -/

namespace Reader

/-- A pass over an `&` and the term behind it, in a chain that began at `start`.
The first term is not among the gathered ones. -/
def termPass (start : List Char) (gathered : List Dice) : Reader (Turn (List Dice)) := do
  if ← literal ['&'] then
    if maxTerms - 1 ≤ gathered.length then
      throw ⟨.chainTooLong, start, ← get⟩
    else
      return .again (gathered ++ [← term])
  else
    return .ended gathered

/-- A pass over a clause and the `;` behind it. -/
def clausePass (gathered : List Expr) : Reader (Turn (List Expr)) := do
  let es ← clause
  if ← literal [';'] then
    return .again (gathered ++ es)
  else
    return .ended (gathered ++ es)

/-- A reader that makes one pass, and if that is not the last goes on. -/
def Unrolls (pass : α → Reader (Turn α)) (p : α → Reader α) : Prop :=
  ∀ gathered, p gathered = do
    match ← pass gathered with
    | .ended all => return all
    | .again more => p more

theorem unrolls_moreTerms (start : List Char) :
    Unrolls (termPass start) fun gathered => do
      return gathered ++ (← moreTerms start (maxTerms - 1 - gathered.length)) := by
  intro gathered
  unfold termPass
  dsimp only
  -- There is no room left exactly if as many terms as may be are gathered.
  cases hroom : maxTerms - 1 - gathered.length with
  | zero =>
      rw [moreTerms, bind_assoc, bind_assoc]
      refine bind_congr fun found => ?_
      cases found with
      | false => simp
      | true =>
          rw [if_pos rfl, if_pos rfl, if_pos (by omega)]
          rfl
  | succ room =>
      rw [moreTerms, bind_assoc, bind_assoc]
      refine bind_congr fun found => ?_
      cases found with
      | false => simp
      | true =>
          rw [if_pos rfl, if_pos rfl, if_neg (by omega), bind_assoc, bind_assoc]
          refine bind_congr fun d => ?_
          have hleft : maxTerms - 1 - (gathered ++ [d]).length = room := by
            rw [List.length_append, List.length_singleton]
            omega
          simp only [hleft, bind_assoc, pure_bind, List.append_assoc, List.singleton_append]

theorem unrolls_clauses :
    Unrolls clausePass fun gathered => do return gathered ++ (← clauses) := by
  intro gathered
  unfold clausePass
  dsimp only
  conv => lhs; rw [clauses_eq]
  rw [bind_assoc, bind_assoc]
  refine bind_congr fun es => ?_
  rw [bind_assoc, bind_assoc]
  refine bind_congr fun found => ?_
  cases found with
  | false => simp
  | true => simp only [if_true, bind_assoc, pure_bind, List.append_assoc]

theorem takes_termPass (start : List Char) (gathered : List Dice) :
    Takes (Turn.bytes 0) (termPass start gathered) := by
  refine (takes_literal '&').bind fun found => ?_
  cases found with
  | false => exact takes_pure rfl
  | true =>
      rw [if_pos rfl, if_pos rfl]
      split
      · exact takes_fail _ _
      · exact takes_term.bind fun _ => takes_pure (by rfl)

/-- The last pass of a roll has a clause behind which there is no `;`. -/
theorem takes_clausePass (gathered : List Expr) :
    Takes (Turn.bytes 2) (clausePass gathered) := by
  refine takes_clause.bind fun es => (takes_literal ';').bind fun found => ?_
  cases found with
  | false => exact takes_pure rfl
  | true => exact takes_pure rfl

/-- A pass that is not the last adds a term. -/
theorem turn_of_termPass {start text rest : List Char} {gathered : List Dice}
    {turn : Turn (List Dice)} (h : termPass start gathered text = .ok turn rest) :
    turn = .ended gathered ∨ ∃ d, turn = .again (gathered ++ [d]) := by
  obtain ⟨_ | _, mid, -, h⟩ := bind_eq_ok_iff.mp h
  · cases h
    exact Or.inl rfl
  · rw [if_pos rfl] at h
    split at h
    · cases h
    · obtain ⟨d, mid', -, h⟩ := bind_eq_ok_iff.mp h
      cases h
      exact Or.inr ⟨d, rfl⟩

/-- A pass adds the copies that its clause asks for. -/
theorem gathered_of_clausePass {text rest : List Char} {gathered : List Expr}
    {turn : Turn (List Expr)} (h : clausePass gathered text = .ok turn rest) :
    ∃ copies e, turn.gathered = gathered ++ List.replicate copies e ∧
      copies ≤ maxRepeats ∧ e.leaves.length ≤ maxTerms ∧
      byteLength rest + (3 * e.leaves.length - 1) ≤ byteLength text := by
  obtain ⟨es, mid, hclause, h⟩ := bind_eq_ok_iff.mp h
  obtain ⟨found, mid', hmark, h⟩ := bind_eq_ok_iff.mp h
  have hmid : byteLength mid' ≤ byteLength mid := (trailing_literal _).takes _ _ _ hmark
  obtain ⟨copies, e, rfl, hcopies, hleaves, hbytes⟩ := exists_replicate_of_clause hclause
  cases found with
  | false =>
      cases h
      exact ⟨copies, e, rfl, hcopies, hleaves, by omega⟩
  | true =>
      cases h
      exact ⟨copies, e, rfl, hcopies, hleaves, by omega⟩

end Reader

namespace Cursor

/-! ## Passes at a cursor -/

-- What a program comes to can be computed and compared.
deriving instance DecidableEq for EStateM.Result

def termPass (start : Nat) (gathered : List Dice) :
    EStateM ParseError Cursor (Turn (List Dice)) := do
  if ← literal "&" then
    if maxTerms - 1 ≤ gathered.length then
      throw ⟨.chainTooLong, start, ← place⟩
    else
      return .again (gathered ++ [← term])
  else
    return .ended gathered

def clausePass (gathered : List Expr) : EStateM ParseError Cursor (Turn (List Expr)) := do
  let es ← clause
  if ← literal ";" then
    return .again (gathered ++ es)
  else
    return .ended (gathered ++ es)

section Follows

variable {whole : List Char}

theorem follows_termPass {start : Nat} {rest : List Char} (hstart : PlaceOf whole start rest)
    (gathered : List Dice) :
    Follows whole Eq (termPass start gathered) (Reader.termPass rest gathered) := by
  apply (follows_literal "&").bind
  rintro (_ | _) _ rfl
  · exact follows_pure rfl
  · rw [if_pos rfl, if_pos rfl]
    split
    · exact follows_fault hstart
    · apply (follows_read Reader.trailing_term).attempt.bind
      rintro d _ rfl
      exact follows_pure rfl

theorem follows_clausePass (gathered : List Expr) :
    Follows whole Eq (clausePass gathered) (Reader.clausePass gathered) := by
  apply (follows_read Reader.trailing_clause).attempt.bind
  rintro es _ rfl
  apply (follows_literal ";").bind
  rintro (_ | _) _ rfl
  · exact follows_pure rfl
  · exact follows_pure rfl

/-- A success of a program is one of its reader. -/
theorem Follows.exists_facing_of_ok {P : EStateM ParseError Cursor α} {p : Reader α}
    {rest : List Char} {a : α} {c' : Cursor} (hP : Follows whole Eq P p)
    (hrest : rest <:+ whole) (hrun : P.run (facing whole rest) = .ok a c') :
    ∃ rest', p rest = .ok a rest' ∧ rest' <:+ whole ∧ c' = facing whole rest' := by
  have hends := hP rest hrest
  rw [hrun] at hends
  generalize hread : p rest = result at hends
  cases hends with
  | ok hV hrest' =>
      subst hV
      exact ⟨_, rfl, hrest', rfl⟩

end Follows

/-! ## Further on in a text -/

/-- A place in the same text, so many bytes further on at least. -/
structure Further (bytes : Nat) (c c' : Cursor) : Prop where
  text_eq : c'.text = c.text
  place : IsBoundary c'.text c'.position
  le : c.position + bytes ≤ c'.position

section Further

variable {bytes bytes' : Nat} {c c' c'' : Cursor}

theorem Further.mono (h : Further bytes c c') (hle : bytes' ≤ bytes) : Further bytes' c c' :=
  ⟨h.text_eq, h.place, Nat.le_trans (Nat.add_le_add_left hle _) h.le⟩

theorem Further.trans (h : Further bytes c c') (h' : Further bytes' c' c'') :
    Further (bytes + bytes') c c'' where
  text_eq := h'.text_eq.trans h.text_eq
  place := h'.place
  le := by
    have := h.le
    have := h'.le
    omega

theorem Further.le_byteLength (h : Further bytes c c') : c'.position ≤ byteLength c.text :=
  h.text_eq ▸ h.place.le

/-- The bytes that a reader takes are those that the cursor goes on. -/
theorem Follows.exists_of_ok {P : EStateM ParseError Cursor α} {p : Reader α} {a : α}
    (hP : Follows c.text Eq P p) (h : IsBoundary c.text c.position)
    (hrun : P.run c = .ok a c') :
    ∃ rest, p c.rest = .ok a rest ∧
      ∀ bytes, byteLength rest + bytes ≤ byteLength c.rest → Further bytes c c' := by
  rw [eq_facing h] at hrun
  obtain ⟨rest, hread, hrest, rfl⟩ := hP.exists_facing_of_ok c.rest_suffix hrun
  refine ⟨rest, hread, fun bytes hbytes => ⟨rfl, isBoundary_of_suffix hrest, ?_⟩⟩
  have hlength : byteLength c.text = c.position + byteLength c.rest := h.byteLength_eq
  simp only [facing]
  omega

theorem Follows.further {P : EStateM ParseError Cursor α} {p : Reader α} {a : α}
    {takes : α → Nat} (hP : Follows c.text Eq P p) (hp : Reader.Takes takes p)
    (h : IsBoundary c.text c.position) (hrun : P.run c = .ok a c') :
    Further (takes a) c c' := by
  obtain ⟨rest, hread, hfurther⟩ := hP.exists_of_ok h hrun
  exact hfurther _ (hp _ _ _ hread)

end Further

/-! ## Runs of a loop -/

/-- From a cursor the loop is over after so many passes, with a result. -/
inductive Runs (pass : α → EStateM ε Cursor (Turn α)) :
    Nat → α → Cursor → EStateM.Result ε Cursor α → Prop
  | ended {a b : α} {c c' : Cursor} :
      (pass a).run c = .ok (.ended b) c' → Runs pass 1 a c (.ok b c')
  | fault {a : α} {c c' : Cursor} {error : ε} :
      (pass a).run c = .error error c' → Runs pass 1 a c (.error error c')
  | again {a b : α} {c c' : Cursor} {n : Nat} {result : EStateM.Result ε Cursor α} :
      (pass a).run c = .ok (.again b) c' → Runs pass n b c' result →
        Runs pass (n + 1) a c result

/-- No pass over this text takes less than it has to. -/
def Paid (whole : List Char) (last : Nat) (pass : α → EStateM ε Cursor (Turn α)) : Prop :=
  ∀ {a : α} {turn : Turn α} {c c' : Cursor}, c.text = whole →
    IsBoundary c.text c.position → (pass a).run c = .ok turn c' →
      Further (turn.bytes last) c c'

section Runs

variable {whole : List Char} {last n : Nat} {a b : α} {c c' : Cursor}
  {pass : α → EStateM ParseError Cursor (Turn α)} {q : α → Reader (Turn α)}
  {result : EStateM.Result ParseError Cursor α}

theorem paid_of_takes (hpass : ∀ a, Follows whole Eq (pass a) (q a))
    (hq : ∀ a, Reader.Takes (Turn.bytes last) (q a)) : Paid whole last pass := by
  rintro a turn c c' rfl h hrun
  exact (hpass a).further (hq a) h hrun

/-- A loop ends, since with every pass there is less in front of it. -/
theorem Runs.exists_of_paid (hpaid : Paid whole last pass) (a : α) (htext : c.text = whole)
    (h : IsBoundary c.text c.position) :
    ∃ n result, Runs pass n a c result ∧ 3 * n ≤ byteLength whole - c.position + 3 := by
  induction hbytes : byteLength whole - c.position using Nat.strongRecOn generalizing a c with
  | ind bytes ih =>
      subst hbytes
      cases hrun : (pass a).run c with
      | error error c' => exact ⟨1, _, .fault hrun, by omega⟩
      | ok turn c' =>
          cases turn with
          | ended all => exact ⟨1, _, .ended hrun, by omega⟩
          | again more =>
              have hfurther := hpaid htext h hrun
              have htext' := hfurther.text_eq.trans htext
              have hle : c.position + 3 ≤ c'.position := hfurther.le
              have hend : c'.position ≤ byteLength whole := htext ▸ hfurther.le_byteLength
              obtain ⟨n, result, hruns, hn⟩ := ih _ (by omega) more htext' hfurther.place rfl
              exact ⟨n + 1, result, .again hrun hruns, by omega⟩

/-- All passes of a loop that succeeds have been paid for. -/
theorem Runs.further (hpaid : Paid whole last pass) (hruns : Runs pass n a c result)
    (hok : result = .ok b c') (htext : c.text = whole) (h : IsBoundary c.text c.position) :
    Further (3 * n + last - 3) c c' := by
  induction hruns with
  | ended hrun =>
      cases hok
      exact (hpaid htext h hrun).mono (by rw [Turn.bytes]; omega)
  | fault _ => cases hok
  | again hrun _ ih =>
      have hfirst := hpaid htext h hrun
      have hlater := ih hok (hfirst.text_eq.trans htext) hfirst.place
      exact (hfirst.trans hlater).mono (by rw [Turn.bytes]; omega)

/-- A loop ends as the reader does that makes its passes. -/
theorem Runs.ends {p : α → Reader α} (hpass : ∀ a, Follows whole Eq (pass a) (q a))
    (hp : Reader.Unrolls q p) (hruns : Runs pass n a c result) {rest : List Char}
    (hrest : rest <:+ whole) (hc : c = facing whole rest) :
    Ends whole Eq result (p a rest) := by
  induction hruns generalizing rest with
  | ended hrun =>
      subst hc
      obtain ⟨rest', hread, hrest', rfl⟩ := (hpass _).exists_facing_of_ok hrest hrun
      rw [hp, Reader.bind_of_ok hread]
      exact .ok rfl hrest'
  | @fault a _ _ _ hrun =>
      subst hc
      have hends := hpass a rest hrest
      rw [hrun] at hends
      generalize hread : q a rest = result at hends
      cases hends with
      | error =>
          rw [hp, Reader.bind_of_error hread]
          exact .error
  | again hrun _ ih =>
      subst hc
      obtain ⟨rest', hread, hrest', rfl⟩ := (hpass _).exists_facing_of_ok hrest hrun
      rw [hp, Reader.bind_of_ok hread]
      exact ih hrest' rfl

end Runs

end Cursor

end DiceTray
