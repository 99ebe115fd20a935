import Mathlib.Data.List.Basic

/-!
# Parts and marks

Lists that are put together from parts with marks between them can be taken
apart again, as long as no part holds the mark. All rests on one fact: what
stands in front of the first of a mark, and what stands behind it, is determined
(`append_cons_inj`). Separators may be longer than the mark they begin with.
-/

namespace DiceTray

variable {α : Type} {a : α} {sep front front' back back' : List α} {ts ts' : List (List α)}

/-- A list is taken apart in one way at the first of a mark. -/
theorem append_cons_inj (h : a ∉ front) (h' : a ∉ front')
    (heq : front ++ a :: back = front' ++ a :: back') : front = front' ∧ back = back' := by
  rcases List.append_eq_append_iff.mp heq with ⟨mid, rfl, hmid⟩ | ⟨mid, rfl, hmid⟩
  · cases mid with
    | nil => exact ⟨(List.append_nil front).symm, (List.cons.inj hmid).2⟩
    | cons b mid =>
        obtain ⟨rfl, -⟩ := List.cons.inj hmid
        simp at h'
  · cases mid with
    | nil => exact ⟨List.append_nil front', (List.cons.inj hmid).2.symm⟩
    | cons b mid =>
        obtain ⟨rfl, -⟩ := List.cons.inj hmid
        simp at h

/-- Items with a separator behind each of them. -/
def ended (sep : List α) (ts : List (List α)) : List α :=
  ts.flatMap (· ++ sep)

theorem intercalate_append_sep (sep : List α) (ne : ts ≠ []) :
    sep.intercalate ts ++ sep = ended sep ts := by
  induction ts with
  | nil => exact absurd rfl ne
  | cons t ts ih =>
      cases ts with
      | nil => simp [ended]
      | cons u ts =>
          rw [List.intercalate_cons_cons, List.append_assoc, ih (by simp)]
          rfl

theorem intercalate_concat (sep : List α) (ne : ts ≠ []) (t : List α) :
    sep.intercalate (ts ++ [t]) = sep.intercalate ts ++ (sep ++ t) := by
  have hsep : sep.intercalate (ts ++ [t]) ++ sep = sep.intercalate ts ++ (sep ++ t) ++ sep := by
    rw [intercalate_append_sep sep (by simp), ended, List.flatMap_append,
      List.flatMap_singleton, ← ended, ← intercalate_append_sep sep ne]
    simp only [List.append_assoc]
  exact List.append_cancel_right hsep

theorem mem_of_mem_intercalate (h : a ∈ sep.intercalate ts) :
    a ∈ sep ∨ ∃ t ∈ ts, a ∈ t := by
  cases ts with
  | nil => cases h
  | cons t ts =>
      have hended := List.mem_append_left sep h
      rw [intercalate_append_sep sep (by simp), ended, List.mem_flatMap] at hended
      obtain ⟨u, hu, ha⟩ := hended
      exact (List.mem_append.mp ha).symm.imp_right fun ha => ⟨u, hu, ha⟩

/-- Items that do not hold the first mark of the separator can be told apart. -/
theorem ended_inj (h : ∀ t ∈ ts, a ∉ t) (h' : ∀ t ∈ ts', a ∉ t)
    (heq : ended (a :: sep) ts = ended (a :: sep) ts') : ts = ts' := by
  unfold ended at heq
  induction ts generalizing ts' with
  | nil =>
      cases ts' with
      | nil => rfl
      | cons t' ts' => simp at heq
  | cons t ts ih =>
      cases ts' with
      | nil => simp at heq
      | cons t' ts' =>
          simp only [List.flatMap_cons, List.append_assoc, List.cons_append] at heq
          obtain ⟨ht, hts⟩ := List.forall_mem_cons.mp h
          obtain ⟨ht', hts'⟩ := List.forall_mem_cons.mp h'
          obtain ⟨rfl, hback⟩ := append_cons_inj ht ht' heq
          rw [ih hts hts' (List.append_cancel_left hback)]

/-- A list that is written with separators tells its items, if none is empty. -/
theorem intercalate_inj (h : ∀ t ∈ ts, t ≠ [] ∧ a ∉ t) (h' : ∀ t ∈ ts', t ≠ [] ∧ a ∉ t)
    (heq : (a :: sep).intercalate ts = (a :: sep).intercalate ts') : ts = ts' := by
  have nil : ∀ {us : List (List α)}, (∀ t ∈ us, t ≠ [] ∧ a ∉ t) →
      (a :: sep).intercalate us = [] → us = [] := by
    intro us hus hnil
    cases us with
    | nil => rfl
    | cons t us =>
        cases us <;> simp_all [List.intercalate_cons_cons]
  by_cases hts : ts = []
  · subst hts
    exact (nil h' heq.symm).symm
  · have hts' : ts' ≠ [] := by
      rintro rfl
      exact hts (nil h heq)
    apply ended_inj (fun t ht => (h t ht).2) fun t ht => (h' t ht).2
    rw [← intercalate_append_sep (a :: sep) hts, heq, intercalate_append_sep (a :: sep) hts']

end DiceTray
