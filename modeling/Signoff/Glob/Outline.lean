/-!
# Outlines of patterns

Whatever a pattern goes on to mean, its ends are read first. A slash at the
front anchors it at the root of the repository, and a slash at the back makes it
about the contents of a directory. Both slashes are then gone, one at either end
at most.
-/

namespace Signoff

/-- A pattern with its ends read and its body still as written. -/
structure Outline where
  /-- The pattern starts at the root and not at any directory below it. -/
  anchored : Bool
  /-- Only what lies inside the directory is meant. -/
  directory : Bool
  body : List Char
  deriving DecidableEq

/-- Takes the slash from the back of a pattern, if there is one. -/
def Outline.ofTail (anchored : Bool) (s : List Char) : Outline :=
  if s.getLast? = some '/' then ⟨anchored, true, s.dropLast⟩
  else ⟨anchored, false, s⟩

def Outline.ofChars : List Char → Outline
  | '/' :: s => ofTail true s
  | s => ofTail false s

end Signoff
