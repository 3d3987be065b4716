import Signoff.Text.Blank

/-!
# Paths and their segments

A path is cut into segments at its slashes, and cutting loses nothing: the
segments of a path are those of the part before any one slash, followed by
those of the part after it. `append_eq_splitOn_iff` reads this backwards. Where
the list of segments comes apart into two lists, the path comes apart at a
slash, and that is all it takes to turn a statement about segments into one
about characters.
-/

namespace Signoff.Glob

/-- A path is one segment, or it has a first segment and a path after that. -/
theorem splitOn_cases (path : List Char) :
    ('/' ∉ path ∧ path.splitOn '/' = [path]) ∨
      ∃ s rest, '/' ∉ s ∧ path = s ++ '/' :: rest ∧
        path.splitOn '/' = s :: rest.splitOn '/' := by
  by_cases h : '/' ∈ path
  · obtain ⟨s, rest, hpath, hs⟩ := List.eq_append_cons_of_mem h
    refine Or.inr ⟨s, rest, hs, hpath, ?_⟩
    rw [hpath, List.splitOn_append_cons_self_of_not_mem hs]
  · exact Or.inl ⟨h, List.splitOn_eq_singleton h⟩

theorem slash_notMem_of_mem_splitOn {path s : List Char}
    (h : s ∈ path.splitOn '/') : '/' ∉ s := by
  rw [List.splitOn_eq_splitOnP] at h
  intro hs
  have hfalse := Text.not_of_mem_splitOnP h '/' hs
  simp at hfalse

/-- Segments come apart where the path comes apart at a slash. The list that is
taken from the front is not empty, but what is left of it may be. -/
theorem append_eq_splitOn_iff {path : List Char} {taken rest : List (List Char)}
    (hne : taken ≠ []) :
    path.splitOn '/' = taken ++ rest ↔
      (taken = path.splitOn '/' ∧ rest = []) ∨
        ∃ front back, path = front ++ '/' :: back ∧
          taken = front.splitOn '/' ∧ rest = back.splitOn '/' := by
  constructor
  · intro h
    induction taken generalizing path with
    | nil => exact absurd rfl hne
    | cons s taken ih =>
        rcases splitOn_cases path with ⟨_, hone⟩ | ⟨s', tail, hs, hpath, hcons⟩
        · rw [hone] at h
          simp only [List.cons_append, List.cons.injEq] at h
          obtain ⟨rfl, hnil⟩ := h
          obtain ⟨rfl, rfl⟩ := List.append_eq_nil_iff.1 hnil.symm
          exact Or.inl ⟨hone.symm, rfl⟩
        · rw [hcons] at h
          simp only [List.cons_append, List.cons.injEq] at h
          obtain ⟨rfl, htail⟩ := h
          cases taken with
          | nil =>
              have hone := List.splitOn_eq_singleton hs
              exact Or.inr ⟨s', tail, hpath, hone.symm, htail.symm⟩
          | cons t taken =>
              rcases ih (by simp) htail with
                ⟨ht, hrest⟩ | ⟨front, back, ht, hf, hb⟩
              · rw [ht, hcons]
                exact Or.inl ⟨rfl, hrest⟩
              · refine Or.inr ⟨s' ++ '/' :: front, back, ?_, ?_, hb⟩
                · rw [hpath, ht]
                  simp
                · rw [hf, List.splitOn_append_cons_self_of_not_mem hs]
  · intro h
    rcases h with ⟨ht, hrest⟩ | ⟨front, back, hpath, hf, hb⟩
    · rw [ht, hrest, List.append_nil]
    · rw [hpath, hf, hb, List.splitOn_append_cons_self]

end Signoff.Glob
