import DiceTray.Proofs.Joining
import DiceTray.Proofs.Nested

/-!
# Productions do not look back

What a production makes of a text it makes of it behind any other text, too. The
value is the same, and the cursor goes as far. An error is of the same kind and
its span is moved by the length of the text in front, and the cursor is where it
was. That is since the reader of a production knows no places (`Follows`), while
what its faults blame lies in the text that it was given (`Blamed`).
-/

namespace DiceTray.Cursor

open Text

variable {α : Type}

/-- Behind any text a program does what it does at the start of a text. If it
fails, it does not move. -/
structure Local (P : EStateM ParseError Cursor α) : Prop where
  ok : ∀ {front back : String} {a : α} {c : Cursor}, P.run (ofString back) = .ok a c →
    P.run ⟨(front ++ back).toList, front.utf8ByteSize⟩ =
      .ok a ⟨(front ++ back).toList, front.utf8ByteSize + c.position⟩
  error : ∀ {front back : String} {error : ParseError} {c : Cursor},
    P.run (ofString back) = .error error c →
      P.run ⟨(front ++ back).toList, front.utf8ByteSize⟩ =
        .error (error.behind front.utf8ByteSize)
          ⟨(front ++ back).toList, front.utf8ByteSize⟩

theorem facing_self (text : List Char) : facing text text = ⟨text, 0⟩ := by
  rw [facing, Nat.sub_self]

theorem facing_append {back rest : List Char} (front : List Char) (h : rest <:+ back) :
    facing (front ++ back) rest =
      ⟨front ++ back, byteLength front + (facing back rest).position⟩ := by
  have hlength := byteLength_le_of_suffix h
  simp only [facing, byteLength_append, mk.injEq, true_and]
  omega

section Follows

variable {P : EStateM ParseError Cursor α} {p : Reader α}

theorem ends_ofString (h : ∀ whole, Follows whole Eq P p) (text : String) :
    Ends text.toList Eq (P.run (ofString text)) (p text.toList) := by
  rw [ofString, ← facing_self]
  exact h _ _ (List.suffix_refl _)

theorem ends_behind (h : ∀ whole, Follows whole Eq P p) (front back : String) :
    Ends (front ++ back).toList Eq (P.run ⟨(front ++ back).toList, front.utf8ByteSize⟩)
      (p back.toList) := by
  have hplace := facing_append front.toList (List.suffix_refl back.toList)
  rw [facing_self, Nat.add_zero, byteLength_toList, ← String.toList_append] at hplace
  rw [← hplace]
  exact h _ _ ⟨front.toList, (String.toList_append ..).symm⟩

/-- An attempt is local if it ends as a reader does whose faults blame a part of
the text that it was given. -/
theorem local_attempt {L : α → List Char → List Char → Prop}
    (h : ∀ whole, Follows whole Eq (attempt P) p)
    (htracks : ∀ text, Reader.Tracks text [] L (p text)) :
    Local (attempt P) where
  ok {front back} a c hrun := by
    have hback := ends_ofString h back
    have hfront := ends_behind h front back
    rw [hrun] at hback
    generalize p back.toList = result at hback hfront
    generalize (attempt P).run ⟨(front ++ back).toList, _⟩ = result' at hfront ⊢
    cases hback with
    | ok hV hrest =>
        subst hV
        cases hfront with
        | ok hV _ =>
            subst hV
            rw [String.toList_append, facing_append _ hrest, byteLength_toList]
  error {front back} error c hrun := by
    have hback := ends_ofString h back
    have hfront := ends_behind h front back
    rw [hrun] at hback
    generalize hp : p back.toList = result at hback hfront
    generalize hrun' : (attempt P).run ⟨(front ++ back).toList, _⟩ = result' at hfront
    cases hback with
    | @error fault =>
        cases hfront with
        | error =>
            have hstays := run_attempt_of_error hrun'
            have hbehind := Fault.toError_behind ((htracks _).blamed hp) front.utf8ByteSize
            rw [attempt_attempt] at hstays
            rw [← hrun', hstays, ← hbehind, String.toList_append, byteLength_append,
              byteLength_toList front]

end Follows

/-- **Locality.** Behind any text each production has the value that it has at the
start of a text, and the cursor goes as far. If it fails, the error is of the
same kind, its span is as far behind as the text that stands in front is long,
and the cursor has not moved. This holds of the productions as they are run, and
of those that are made of single words and of one another, with offsets into the
whole text. Both do the same wherever a cursor can stand. -/
theorem productions_local :
    (Local term ∧ Local chain ∧ Local clause ∧ Local clauses) ∧
      (Local Nested.term ∧ Local Nested.chain ∧ Local Nested.clause ∧
        Local Nested.clauses) ∧
      ∀ c : Cursor, IsBoundary c.text c.position →
        Nested.term.run c = term.run c ∧ Nested.chain.run c = chain.run c ∧
          Nested.clause.run c = clause.run c ∧ Nested.clauses.run c = clauses.run c := by
  have hterm := fun text => Reader.tracks_term (.start text)
  have hchain := fun text => Reader.tracks_chain (.start text)
  have hclause := fun text => Reader.tracks_clause (.start text)
  have hclauses := fun text => Reader.tracks_clauses (.start text)
  refine ⟨⟨?_, ?_, ?_, ?_⟩, ⟨?_, ?_, ?_, ?_⟩, fun c hc => ⟨?_, ?_, ?_, ?_⟩⟩
  · exact local_attempt (fun _ => (follows_read Reader.trailing_term).attempt) hterm
  · exact local_attempt (fun _ => (follows_read Reader.trailing_chain).attempt) hchain
  · exact local_attempt (fun _ => (follows_read Reader.trailing_clause).attempt) hclause
  · exact local_attempt (fun _ => (follows_read Reader.trailing_clauses).attempt) hclauses
  · exact local_attempt (fun _ => follows_term) hterm
  · exact local_attempt (fun _ => follows_chain) hchain
  · exact local_attempt (fun _ => follows_clause) hclause
  · exact local_attempt (fun _ => follows_clauses) hclauses
  · exact run_attempt_eq (fun _ => follows_term) Reader.trailing_term hc
  · exact run_attempt_eq (fun _ => follows_chain) Reader.trailing_chain hc
  · exact run_attempt_eq (fun _ => follows_clause) Reader.trailing_clause hc
  · exact run_attempt_eq (fun _ => follows_clauses) Reader.trailing_clauses hc

/-- A clause that fails behind its count and its first term, at the end of a text
that stands behind another clause. -/
theorem productions_local_behind_clause :
    clause.run (ofString " 2x d6 & ") =
        .error ⟨.expected "'d'", 9, 9⟩ ⟨" 2x d6 & ".toList, 0⟩ ∧
      clause.run ⟨("4d6;" ++ " 2x d6 & ").toList, 4⟩ =
        .error ⟨.expected "'d'", 13, 13⟩ ⟨("4d6;" ++ " 2x d6 & ").toList, 4⟩ := by
  have halone : clause.run (ofString " 2x d6 & ") =
      .error ⟨.expected "'d'", 9, 9⟩ ⟨" 2x d6 & ".toList, 0⟩ := by
    rfl
  exact ⟨halone, productions_local.1.2.2.1.error halone⟩

end DiceTray.Cursor
