import Signoff.Pattern

/-!
# Patterns that have been made ready

Making a pattern ready decides once and for all how it is matched: by its
expression if it has a wildcard, and as the name that it is otherwise. Only the
former can fail, and not if the glob is short.
-/

namespace Signoff.Pattern

variable [Engine]

theorem covers_eq_spans {source : String} {p : Pattern}
    (hcompile : compile source = .ok p)
    (hwild : source.toList.any isWildcard = true) (path : String) :
    p.covers path =
      Glob.spans (Glob.ofChars source.toList).expression path.toList := by
  simp only [compile, if_pos hwild] at hcompile
  split at hcompile
  · next hfits =>
      cases hcompile
      rfl
  · next hfits => cases hcompile

/-- No engine refuses a short glob. -/
theorem compile_of_short {source : String}
    (hwild : source.toList.any isWildcard = true)
    (hshort : (Glob.ofChars source.toList).written.length ≤ 256) :
    compile source =
      .ok ⟨source, .spanned (Glob.ofChars source.toList).expression⟩ := by
  simp only [compile, if_pos hwild, if_pos (Engine.accepts_of_short _ hshort)]

theorem compile_name {source : String}
    (hwild : source.toList.any isWildcard = false) :
    compile source = .ok ⟨source, .named (.ofChars source.toList)⟩ := by
  simp [compile, hwild]

end Signoff.Pattern
