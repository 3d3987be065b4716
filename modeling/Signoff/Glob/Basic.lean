import Signoff.Glob.Outline
import Signoff.Glob.Expression

/-!
# Globs

A pattern with wildcards is a sequence of segments, which the slashes of its
body separate. In a segment `*` stands for any number of characters and `?` for
one, none of them a slash, and a backslash takes the meaning from the character
after it. Two or more stars in a row reach across slashes, and a segment that is
`**` and nothing else stands for whole directories.

`Glob.expression` turns a glob into the pieces that decide whether it covers a
path. A glob also covers what lies below the paths it describes, with two
exceptions at its end: a lone `*` keeps to the one directory, and `**` reaches
all that lies below by itself.
-/

namespace Signoff

namespace Glob

/-- A unit of meaning within a segment. -/
inductive Token where
  | char (c : Char)
  /-- `?` -/
  | single
  /-- `*` -/
  | star
  /-- `**` or longer, beside other tokens -/
  | stars
  deriving DecidableEq

/-- Reads a segment. A backslash at its end stands for itself. -/
def Token.ofChars : List Char → List Token
  | [] => []
  | ['\\'] => [.char '\\']
  | '\\' :: c :: s => .char c :: ofChars s
  | '?' :: s => .single :: ofChars s
  | '*' :: s =>
      match ofChars s with
      | .star :: rest => .stars :: rest
      | .stars :: rest => .stars :: rest
      | rest => .star :: rest
  | c :: s => .char c :: ofChars s

inductive Segment where
  /-- The segment `**`. -/
  | anyDepth
  | tokens (ts : List Token)
  deriving DecidableEq

def Segment.ofChars (s : List Char) : Segment :=
  if s = ['*', '*'] then .anyDepth else .tokens (Token.ofChars s)

end Glob

/-- A pattern with wildcards. -/
structure Glob where
  anchored : Bool
  directory : Bool
  segments : List Glob.Segment
  deriving DecidableEq

namespace Glob

/-- Reads the body of an outline as a glob. -/
def ofOutline (o : Outline) : Glob :=
  ⟨o.anchored, o.directory, (o.body.splitOn '/').map Segment.ofChars⟩

def ofChars (pattern : List Char) : Glob := ofOutline (.ofChars pattern)

/-! ## Expressions -/

def Token.piece : Token → Piece
  | .char c => .one (.exactly c)
  | .single => .one .inSegment
  | .star => .many .inSegment
  | .stars => .many .onLine

/-- The pieces of a segment that is the last one. -/
def Segment.lastPieces : Segment → List Piece
  | .anyDepth => [.many .onLine]
  | .tokens ts => ts.map Token.piece

/-- The pieces of a segment with others after it, the separating slash among
them. Directories bring their own slash, and none if there are no directories.
-/
def Segment.innerPieces : Segment → List Piece
  | .anyDepth => [.directories]
  | .tokens ts => ts.map Token.piece ++ [.one (.exactly '/')]

def segmentPieces : List Segment → List Piece
  | [] => []
  | [last] => last.lastPieces
  | segment :: rest => segment.innerPieces ++ segmentPieces rest

/-- Is everything below a path covered along with the path? -/
def coversBelow (g : Glob) : Bool :=
  g.segments.getLast? != some (.tokens [.star]) &&
    g.segments.getLast? != some .anyDepth

/-- The pieces after the last segment. -/
def ending (g : Glob) : List Piece :=
  if g.directory then [.one (.exactly '/'), .many .onLine]
  else if g.coversBelow then [.below]
  else []

/-- The expression that takes exactly the paths that the glob covers. -/
def expression (g : Glob) : List Piece :=
  (if g.anchored then [] else [.directories]) ++ segmentPieces g.segments ++
    g.ending

end Glob

end Signoff
