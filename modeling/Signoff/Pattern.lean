import Signoff.Glob.Literal
import Signoff.Glob.Written

/-!
# Patterns

A pattern of a rule is either a name, which is compared with the path as it
stands, or a glob, which is turned into an expression first. A pattern is a glob
as soon as it has a star, a question mark or a backslash.

A name can always be used. The expression of a glob can be used if the engine
accepts it.
-/

namespace Signoff

/-- How a pattern decides about paths. -/
inductive Pattern.Condition where
  | named (outline : Outline)
  | spanned (expression : List Glob.Piece)
  deriving DecidableEq

/-- A pattern that is ready to be matched. -/
structure Pattern where
  source : String
  condition : Pattern.Condition
  deriving DecidableEq

namespace Pattern

inductive Error where
  /-- The engine finds the expression of the pattern too large. -/
  | tooLarge
  deriving DecidableEq

def Error.message : Error → String
  | .tooLarge => "Compiled regex exceeds size limit of 10485760 bytes."

def isWildcard (c : Char) : Bool := c == '*' || c == '?' || c == '\\'

/-- Makes a pattern ready, which fails only for want of size. -/
def compile [Engine] (source : String) : Except Error Pattern :=
  let chars := source.toList
  if chars.any isWildcard then
    let glob := Glob.ofChars chars
    if Engine.accepts glob.written then .ok ⟨source, .spanned glob.expression⟩
    else .error .tooLarge
  else .ok ⟨source, .named (.ofChars chars)⟩

def Condition.covers : Condition → List Char → Bool
  | .named outline, path => outline.covers path
  | .spanned expression, path => Glob.spans expression path

/-- Does the pattern cover the path? Case counts, and the whole path has to fit.
-/
def covers (p : Pattern) (path : String) : Bool :=
  p.condition.covers path.toList

end Pattern

end Signoff
