import Signoff.Glob.Outline

/-!
# Literal patterns

A pattern without wildcards names a path. It covers that path and all that lies
below it, or only the latter if it is about a directory. An anchored name is
counted from the root, and any other may be counted from any directory on the
way.

Texts are compared to find this out, and the path is not cut at its slashes.
Counted from the root, the name comes first in the path and a slash after it, or
it is the path. Further down there is a slash before the name, so the path ends
with the two of them, or they occur in it with a slash after them.
-/

namespace Signoff

/-- Does the first text occur somewhere in the second? -/
def occursIn (part : List Char) : List Char → Bool
  | [] => part.isEmpty
  | c :: s => part.isPrefixOf (c :: s) || occursIn part s

namespace Outline

/-- Does the path begin with the body and go on with a slash? -/
def isBelowRoot (o : Outline) (path : List Char) : Bool :=
  o.body.isPrefixOf path && (path.drop o.body.length).head? == some '/'

/-- Does the body, word for word, cover the path? -/
def covers (o : Outline) (path : List Char) : Bool :=
  if o.isBelowRoot path || !o.directory && path == o.body then true
  else if o.anchored then false
  else
    let nested := '/' :: o.body
    if !o.directory && nested.isSuffixOf path then true
    else occursIn (nested ++ ['/']) path

end Outline

end Signoff
