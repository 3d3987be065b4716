/-!
# Ascending lists

A finite set of names is written down as the strictly increasing list of its
elements. Such a list is determined by its elements (`eq_of_ascending`), so
equal sets are equal lists, and what is computed from one does not depend on the
order or the repetitions of the list it came from.
-/

namespace Signoff

variable {α : Type} [LT α]

/-- Strictly increasing, and so without repetition. -/
abbrev IsAscending (l : List α) : Prop := l.Pairwise (· < ·)

variable [DecidableLT α]

/-- An ascending list with one more element, in its place. -/
def insertAscending (a : α) : List α → List α
  | [] => [a]
  | b :: l =>
      if a < b then a :: b :: l
      else if b < a then b :: insertAscending a l
      else b :: l

/-- The elements of a list in increasing order, each once. -/
def ascending (l : List α) : List α := l.foldr insertAscending []

theorem ascending_cons (a : α) (l : List α) :
    ascending (a :: l) = insertAscending a (ascending l) := rfl

variable [Std.Trichotomous (α := α) (· < ·)]

theorem mem_insertAscending {a b : α} {l : List α} :
    b ∈ insertAscending a l ↔ b = a ∨ b ∈ l := by
  induction l with
  | nil => simp [insertAscending]
  | cons c l ih =>
      rw [insertAscending]
      split
      · simp
      · next hac =>
          split
          · simp only [List.mem_cons, ih]
            exact ⟨fun h => h.elim (.inr ∘ .inl) (·.elim .inl (.inr ∘ .inr)),
              fun h => h.elim (.inr ∘ .inl) (·.elim .inl (.inr ∘ .inr))⟩
          · next hca =>
              have hEq : a = c := Std.Trichotomous.trichotomous _ _ hac hca
              simp [hEq]

theorem mem_ascending {a : α} {l : List α} : a ∈ ascending l ↔ a ∈ l := by
  induction l with
  | nil => simp [ascending]
  | cons b l ih => rw [ascending_cons, mem_insertAscending, ih, List.mem_cons]

theorem ascending_ne_nil {l : List α} (h : l ≠ []) : ascending l ≠ [] := by
  obtain ⟨a, ha⟩ := List.exists_mem_of_ne_nil l h
  exact List.ne_nil_of_mem (mem_ascending.2 ha)

variable [Trans (α := α) (· < ·) (· < ·) (· < ·)]

theorem isAscending_insertAscending {a : α} {l : List α} (h : IsAscending l) :
    IsAscending (insertAscending a l) := by
  induction l with
  | nil => simp [insertAscending]
  | cons b l ih =>
      obtain ⟨hb, hl⟩ := List.pairwise_cons.1 h
      rw [insertAscending]
      split
      · next hab =>
          exact List.pairwise_cons.2
            ⟨fun c hc => (List.mem_cons.1 hc).elim (· ▸ hab)
              fun hc => Std.lt_trans hab (hb c hc), h⟩
      · split
        · next hba =>
            exact List.pairwise_cons.2
              ⟨fun c hc => (mem_insertAscending.1 hc).elim (· ▸ hba) (hb c),
                ih hl⟩
        · exact h

theorem isAscending_ascending (l : List α) : IsAscending (ascending l) := by
  induction l with
  | nil => exact .nil
  | cons a l ih => exact isAscending_insertAscending ih

omit [DecidableLT α] [Std.Trichotomous (α := α) (· < ·)]
  [Trans (α := α) (· < ·) (· < ·) (· < ·)] in
theorem nodup_of_isAscending [Std.Irrefl (α := α) (· < ·)] {l : List α}
    (h : IsAscending l) : l.Nodup := by
  refine List.Pairwise.imp ?_ h
  intro a b hlt heq
  exact Std.lt_irrefl (heq ▸ hlt)

omit [DecidableLT α] [Std.Trichotomous (α := α) (· < ·)] in
/-- Ascending lists with the same elements are the same list. -/
theorem eq_of_ascending [Std.Irrefl (α := α) (· < ·)] {l m : List α}
    (hl : IsAscending l) (hm : IsAscending m) (h : ∀ a, a ∈ l ↔ a ∈ m) :
    l = m := by
  induction l generalizing m with
  | nil =>
      cases m with
      | nil => rfl
      | cons b m => exact absurd ((h b).2 List.mem_cons_self) List.not_mem_nil
  | cons a l ih =>
      cases m with
      | nil => exact absurd ((h a).1 List.mem_cons_self) List.not_mem_nil
      | cons b m =>
          obtain ⟨ha, hl'⟩ := List.pairwise_cons.1 hl
          obtain ⟨hb, hm'⟩ := List.pairwise_cons.1 hm
          have hab : a = b := by
            rcases List.mem_cons.1 ((h a).1 List.mem_cons_self) with hEq | hmem
            · exact hEq
            · rcases List.mem_cons.1 ((h b).2 List.mem_cons_self) with
                hEq | hmem'
              · exact hEq.symm
              · exact absurd (Std.lt_trans (ha b hmem') (hb a hmem))
                  Std.lt_irrefl
          subst hab
          congr 1
          refine ih hl' hm' fun c => ⟨fun hc => ?_, fun hc => ?_⟩
          · rcases List.mem_cons.1 ((h c).1 (List.mem_cons_of_mem _ hc)) with
              hEq | hmem
            · exact absurd (hEq ▸ ha c hc) Std.lt_irrefl
            · exact hmem
          · rcases List.mem_cons.1 ((h c).2 (List.mem_cons_of_mem _ hc)) with
              hEq | hmem
            · exact absurd (hEq ▸ hb c hc) Std.lt_irrefl
            · exact hmem

theorem ascending_eq_self [Std.Irrefl (α := α) (· < ·)] {l : List α}
    (h : IsAscending l) : ascending l = l :=
  eq_of_ascending (isAscending_ascending l) h fun _ => mem_ascending

/-- The ascending form depends on the elements alone. -/
theorem ascending_congr [Std.Irrefl (α := α) (· < ·)] {l m : List α}
    (h : ∀ a, a ∈ l ↔ a ∈ m) : ascending l = ascending m :=
  eq_of_ascending (isAscending_ascending l) (isAscending_ascending m)
    fun a => by rw [mem_ascending, mem_ascending, h]

theorem ascending_concat [Std.Irrefl (α := α) (· < ·)] (l : List α) (a : α) :
    ascending (l ++ [a]) = insertAscending a (ascending l) := by
  rw [← ascending_cons]
  exact ascending_congr fun b => by simp [or_comm]

end Signoff
