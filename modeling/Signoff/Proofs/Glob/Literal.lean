import Signoff.Glob.Literal
import Signoff.Glob.Segmentwise
import Signoff.Proofs.Glob.Segments

/-!
# What a literal pattern covers

A name is looked for with four comparisons of texts, two for the root and two
for the directories below it. Taken together they are one condition on places:
from the start of the path, or from after one of its slashes if the pattern is
not anchored, the name comes next, and then a slash or the end of the path
(`covers_iff`). The comparisons below the root put a slash in front of the name,
and where it is found the path is cut.

Said of segments, the segments of the body stand side by side in the path, from
its start if the pattern is anchored, and if the pattern is about a directory
they are not the last ones.
-/

namespace Signoff

theorem splitOn_injective {s t : List Char}
    (h : s.splitOn '/' = t.splitOn '/') : s = t := by
  have hjoin := congrArg ['/'].intercalate h
  rwa [List.intercalate_splitOn, List.intercalate_splitOn] at hjoin

theorem occursIn_iff {part s : List Char} :
    occursIn part s = true ↔ ∃ front back, s = front ++ part ++ back := by
  have hoccurs : occursIn part s = true ↔ part <:+: s := by
    induction s with
    | nil => rw [occursIn, List.isEmpty_iff, List.infix_nil]
    | cons c s ih =>
        rw [occursIn, Bool.or_eq_true, List.isPrefixOf_iff_prefix, ih,
          List.infix_cons_iff]
  rw [hoccurs]
  exact exists₂_congr fun _ _ => eq_comm

namespace Outline

variable {o : Outline} {path : List Char}

/-! ## The comparisons -/

theorem isBelowRoot_iff :
    o.isBelowRoot path = true ↔ ∃ back, path = o.body ++ '/' :: back := by
  rw [isBelowRoot, Bool.and_eq_true, List.isPrefixOf_iff_prefix, beq_iff_eq]
  constructor
  · intro h
    obtain ⟨⟨rest, hpath⟩, hhead⟩ := h
    rw [← hpath, List.drop_left, List.head?_eq_some_iff] at hhead
    obtain ⟨back, hrest⟩ := hhead
    exact ⟨back, by rw [← hpath, hrest]⟩
  · intro h
    obtain ⟨back, hpath⟩ := h
    rw [hpath, List.drop_left]
    exact ⟨List.prefix_append _ _, rfl⟩

/-- The path lies below the name, or it is the name and the pattern is about no
directory. -/
def IsAtOrBelow (o : Outline) (path : List Char) : Prop :=
  (∃ back, path = o.body ++ '/' :: back) ∨
    (o.directory = false ∧ path = o.body)

/-- The two comparisons for the root. -/
theorem isAtOrBelow_iff :
    o.IsAtOrBelow path ↔
      (o.isBelowRoot path || !o.directory && path == o.body) = true := by
  rw [Bool.or_eq_true, isBelowRoot_iff, IsAtOrBelow]
  simp

/-- The two comparisons for what is not at the root. -/
theorem exists_isAtOrBelow_iff :
    (∃ front back, path = front ++ '/' :: back ∧ o.IsAtOrBelow back) ↔
      (o.directory = false ∧ ('/' :: o.body).isSuffixOf path = true) ∨
        occursIn ('/' :: o.body ++ ['/']) path = true := by
  rw [List.isSuffixOf_iff_suffix, occursIn_iff]
  constructor
  · intro h
    obtain ⟨front, back, hpath, ⟨rest, hback⟩ | ⟨hdirectory, hback⟩⟩ := h
    · exact Or.inr ⟨front, rest, by rw [hpath, hback]; simp⟩
    · exact Or.inl ⟨hdirectory, front, by rw [hpath, hback]⟩
  · intro h
    rcases h with ⟨hdirectory, front, hpath⟩ | ⟨front, rest, hpath⟩
    · exact ⟨front, o.body, hpath.symm, Or.inr ⟨hdirectory, rfl⟩⟩
    · exact ⟨front, o.body ++ '/' :: rest, by rw [hpath]; simp,
        Or.inl ⟨rest, rfl⟩⟩

/-- The comparisons look for the name at the root and after every slash. -/
theorem covers_iff :
    o.covers path = true ↔
      o.IsAtOrBelow path ∨
        (o.anchored = false ∧ ∃ front back,
          path = front ++ '/' :: back ∧ o.IsAtOrBelow back) := by
  rw [isAtOrBelow_iff, exists_isAtOrBelow_iff, covers]
  split
  · next hroot => simp [hroot]
  · next hroot =>
      cases o.anchored with
      | true => simp [hroot]
      | false => simp [hroot, List.cons_append]

/-! ## Segments -/

/-- The segments of the body come first in the path, and more comes after them
if the pattern is about a directory. -/
theorem isAtOrBelow_iff_segments :
    o.IsAtOrBelow path ↔
      ∃ rest, path.splitOn '/' = o.segments ++ rest ∧
        (o.directory = true → rest ≠ []) := by
  constructor
  · intro h
    rcases h with ⟨back, hpath⟩ | ⟨hd, hpath⟩
    · refine ⟨back.splitOn '/', ?_, fun _ => List.splitOn_ne_nil '/' back⟩
      rw [hpath, List.splitOn_append_cons_self, segments]
    · exact ⟨[], by rw [hpath, segments, List.append_nil], by simp [hd]⟩
  · intro h
    obtain ⟨rest, hsegs, hd⟩ := h
    have hne := List.splitOn_ne_nil '/' o.body
    rcases (Glob.append_eq_splitOn_iff hne).1 hsegs with
      ⟨hbody, hrest⟩ | ⟨front, back, hpath, hbody, _⟩
    · refine Or.inr ⟨?_, (splitOn_injective hbody).symm⟩
      cases hdir : o.directory with
      | false => rfl
      | true => exact absurd hrest (hd hdir)
    · refine Or.inl ⟨back, ?_⟩
      rw [hpath, splitOn_injective hbody]

theorem covers_iff_segments :
    o.covers path = true ↔
      ∃ skipped rest, path.splitOn '/' = skipped ++ (o.segments ++ rest) ∧
        (o.anchored = true → skipped = []) ∧
          (o.directory = true → rest ≠ []) := by
  rw [covers_iff]
  constructor
  · intro h
    rcases h with h | ⟨ha, front, back, hpath, h⟩
    · obtain ⟨rest, hsegs, hd⟩ := isAtOrBelow_iff_segments.1 h
      exact ⟨[], rest, by rw [hsegs]; rfl, fun _ => rfl, hd⟩
    · obtain ⟨rest, hsegs, hd⟩ := isAtOrBelow_iff_segments.1 h
      refine ⟨front.splitOn '/', rest, ?_, by simp [ha], hd⟩
      rw [hpath, List.splitOn_append_cons_self, hsegs]
  · intro h
    obtain ⟨skipped, rest, hsegs, ha, hd⟩ := h
    by_cases hskip : skipped = []
    · rw [hskip, List.nil_append] at hsegs
      exact Or.inl (isAtOrBelow_iff_segments.2 ⟨rest, hsegs, hd⟩)
    · refine Or.inr ⟨by simpa using fun h => hskip (ha h), ?_⟩
      rcases (Glob.append_eq_splitOn_iff hskip).1 hsegs with
        ⟨_, hnil⟩ | ⟨front, back, hpath, _, hback⟩
      · exact absurd (List.append_eq_nil_iff.1 hnil).1
          (List.splitOn_ne_nil '/' o.body)
      · exact ⟨front, back, hpath,
          isAtOrBelow_iff_segments.2 ⟨rest, hback.symm, hd⟩⟩

end Outline

end Signoff
