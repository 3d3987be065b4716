import Signoff.Glob.Outline

/-!
# Globs by segments

What a glob means, said of the segments of a path and of the pattern as it is
written: there are no tokens here and no expression. The slashes cut both the
body of a pattern and a path into segments, empty ones among them. Each segment
of the pattern accounts for segments of the path: an ordinary one for exactly
one, `**` for any number. At the end of a pattern `**` accounts for at least
one. What the pattern leaves of the path depends on how the pattern ends.

A longer run of stars, or `**` beside other characters, reaches across segments,
so nothing can be said of it here. `Outline.StarsApart` leaves such patterns
out.
-/

namespace Signoff

namespace Glob

/-- A segment of a path has the form that a segment of a pattern describes. -/
def Describes : List Char → List Char → Prop
  | [], s => s = []
  | ['\\'], s => s = ['\\']
  | '\\' :: c :: p, s => ∃ rest, s = c :: rest ∧ Describes p rest
  | '?' :: p, s => ∃ c rest, s = c :: rest ∧ Describes p rest
  | '*' :: p, s => ∃ taken rest, s = taken ++ rest ∧ Describes p rest
  | c :: p, s => ∃ rest, s = c :: rest ∧ Describes p rest

/-- The segment that stands for whole directories. -/
def anyDepth : List Char := ['*', '*']

/-- The segments of a pattern account for the front of a path, and what is left
is as `Left` says. -/
def Accounts (Left : List (List Char) → Prop) :
    List (List Char) → List (List Char) → Prop
  | [], path => Left path
  | p :: ps, path =>
      if p = anyDepth then
        ∃ taken rest, path = taken ++ rest ∧ (ps = [] → taken ≠ []) ∧
          Accounts Left ps rest
      else
        ∃ segment rest, path = segment :: rest ∧ Describes p segment ∧
          Accounts Left ps rest

/-- No two stars of the segment stand side by side, those after a backslash not
counted. -/
def starsApart : List Char → Bool
  | '\\' :: _ :: p => starsApart p
  | '*' :: '*' :: _ => false
  | _ :: p => starsApart p
  | [] => true

end Glob

namespace Outline

/-- The segments of the body, as written. -/
def segments (o : Outline) : List (List Char) := o.body.splitOn '/'

/-- What may be left of a path when the pattern is used up: something if the
pattern is about a directory, nothing after a lone `*`, and anything otherwise.
-/
def MayBeLeft (o : Outline) (rest : List (List Char)) : Prop :=
  if o.directory then rest ≠ []
  else if o.segments.getLast? = some ['*'] then rest = []
  else True

/-- The pattern covers the path, segment by segment. Without an anchor it may
skip segments first. -/
def CoversSegments (o : Outline) (path : List Char) : Prop :=
  ∃ skipped rest, path.splitOn '/' = skipped ++ rest ∧
    (o.anchored = true → skipped = []) ∧
      Glob.Accounts o.MayBeLeft o.segments rest

/-- Stars stand side by side in the segment `**` only. -/
def StarsApart (o : Outline) : Prop :=
  ∀ p ∈ o.segments, p = Glob.anyDepth ∨ Glob.starsApart p = true

instance (o : Outline) : Decidable o.StarsApart :=
  inferInstanceAs (Decidable
    (∀ p ∈ o.segments, p = Glob.anyDepth ∨ Glob.starsApart p = true))

end Outline

end Signoff
