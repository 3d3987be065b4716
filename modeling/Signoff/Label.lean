/-!
# Labels

A group is shown under a short name that is taken from a pattern: the directory
or the file that the pattern is about, without leading dots, or `md_files` for
`*.md`. A pattern that is about nothing in particular is `global`.

Wildcard segments name nothing, so the name comes from the last segment without
wildcards. When the pattern has a `**`, what follows it may lie anywhere, and
the name is looked for before it first.
-/

namespace Signoff.Label

/-- The segments of a pattern, without the empty ones that anchors, directory
marks and repeated slashes leave behind. -/
def segments (pattern : List Char) : List (List Char) :=
  (pattern.splitOn '/').filter fun s => !s.isEmpty

def isWild (segment : List Char) : Bool :=
  segment.any fun c => c == '*' || c == '?'

/-- Is the segment a wildcard and nothing else? -/
def isAnything (segment : List Char) : Bool :=
  segment == ['*'] || segment == ['*', '*']

/-- A name without the dots in front. -/
def undotted (name : List Char) : List Char := name.dropWhile (· == '.')

/-- The name of a file without dots in front and without extensions. -/
def stem (name : List Char) : List Char := (undotted name).takeWhile (· != '.')

/-- The last segment before the first `**` that names something. -/
def beforeAnyDepth? (segments : List (List Char)) : Option (List Char) :=
  if ['*', '*'] ∈ segments then
    (segments.takeWhile (· != ['*', '*'])).reverse.find? (!isWild ·)
  else none

def global : List Char := "global".toList

/-- The name for segments that are given last to first. -/
def ofReversed (directory : Bool) : List (List Char) → List Char
  | [] => global
  | last :: earlier =>
      if !isWild last then if directory then undotted last else stem last
      else
        match last with
        | '*' :: '.' :: extension =>
            if isWild extension then named earlier
            else extension ++ "_files".toList
        | _ => named earlier
where
  /-- A directory on the way is always named in full. -/
  named (earlier : List (List Char)) : List Char :=
    ((earlier.find? (!isWild ·)).map undotted).getD global

def ofChars (pattern : List Char) : List Char :=
  let parts := segments pattern
  if parts.all isAnything then global
  else
    match beforeAnyDepth? parts with
    | some name => undotted name
    | none => ofReversed (pattern.getLast? == some '/') parts.reverse

/-- The label that a pattern gives to a group. -/
def ofPattern (pattern : String) : String := .ofList (ofChars pattern.toList)

end Signoff.Label
