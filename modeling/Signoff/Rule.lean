import Signoff.Owner

/-!
# Rules

A rule gives the files that its pattern covers to its owners. What decides
between two rules that cover the same file is their order alone, so a rule
carries its place among the rules it stands with, next to the line where it was
written.
-/

namespace Signoff

structure Rule where
  pattern : String
  owners : List Owner
  /-- The number of rules before this one. -/
  position : Nat
  /-- The line of the rule file, counted from one. -/
  line : Nat
  deriving DecidableEq

end Signoff
