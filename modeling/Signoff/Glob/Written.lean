import Signoff.Glob.Basic

/-!
# Expressions as text

An expression goes to the engine as a text. Some characters mean something
there, and where such a character is to stand for itself it has a backslash in
front (`literal`). All others stand for themselves as they are.

`read?` goes back from a text to its pieces, in two steps. The first is about
backslashes only: it tells the characters that stand for themselves from those
that mean something. The second puts the latter together. Which texts an engine
accepts is for the engine to say, and `Engine` stands for any that has room for
short ones.
-/

namespace Signoff

namespace Glob

/-! ## Writing -/

def metaCharacters : List Char :=
  ['\\', '.', '+', '*', '?', '(', ')', '|', '[', ']', '\x7b', '\x7d', '^', '$',
    '#', '&', '-', '~']

/-- Does the character mean something in an expression? -/
def isMeta (c : Char) : Bool := metaCharacters.contains c

/-- The text of a character that stands for itself. -/
def literal (c : Char) : List Char := if isMeta c then ['\\', c] else [c]

def CharClass.written : CharClass → List Char
  | .exactly c => literal c
  | .inSegment => ['[', '^', '/', ']']
  | .onLine => ['.']

def Piece.written : Piece → List Char
  | .one k => k.written
  | .many k => k.written ++ ['*']
  | .directories => ['(', '?', ':', '.', '*', '/', ')', '?']
  | .below => ['(', '?', ':', '/', '.', '*', ')', '?']

/-- The text of pieces that take a path from its start to its end. -/
def textOf (ps : List Piece) : List Char :=
  ['\\', 'A'] ++ ps.flatMap Piece.written ++ ['\\', 'z']

/-- The expression of a glob as text. -/
def written (g : Glob) : List Char := textOf g.expression

/-! ## Reading -/

/-- What a character of a text is there for. -/
inductive Symbol where
  | itself (c : Char)
  | operator (c : Char)
  /-- A backslash and a letter: one of the ends of a path. -/
  | mark (c : Char)
  deriving DecidableEq

def symbols : List Char → List Symbol
  | '\\' :: c :: s => (if isMeta c then .itself c else .mark c) :: symbols s
  | c :: s => (if isMeta c then .operator c else .itself c) :: symbols s
  | [] => []

/-- The pieces of a text up to the mark for the end. -/
def pieces? : List Symbol → Option (List Piece)
  | [.mark 'z'] => some []
  | .operator '(' :: .operator '?' :: .itself ':' :: .operator '.' ::
      .operator '*' :: .itself '/' :: .operator ')' :: .operator '?' :: s =>
      (pieces? s).map (.directories :: ·)
  | .operator '(' :: .operator '?' :: .itself ':' :: .itself '/' ::
      .operator '.' :: .operator '*' :: .operator ')' :: .operator '?' :: s =>
      (pieces? s).map (.below :: ·)
  | .operator '[' :: .operator '^' :: .itself '/' :: .operator ']' ::
      .operator '*' :: s =>
      (pieces? s).map (.many .inSegment :: ·)
  | .operator '[' :: .operator '^' :: .itself '/' :: .operator ']' :: s =>
      (pieces? s).map (.one .inSegment :: ·)
  | .operator '.' :: .operator '*' :: s => (pieces? s).map (.many .onLine :: ·)
  | .operator '.' :: s => (pieces? s).map (.one .onLine :: ·)
  | .itself c :: .operator '*' :: s =>
      (pieces? s).map (.many (.exactly c) :: ·)
  | .itself c :: s => (pieces? s).map (.one (.exactly c) :: ·)
  | _ => none

/-- The pieces that a text stands for, if it is the text of an expression. -/
def read? (text : List Char) : Option (List Piece) :=
  match symbols text with
  | .mark 'A' :: s => pieces? s
  | _ => none

theorem length_symbols_le (text : List Char) :
    (symbols text).length ≤ text.length := by
  fun_induction symbols text with
  | case1 c s ih =>
      simp only [List.length_cons]
      omega
  | case2 c s _ ih =>
      simp only [List.length_cons]
      omega
  | case3 => simp

end Glob

/-- What takes expressions and matches with them. An engine refuses an
expression that grows too large in its hands, which a short one does not. -/
class Engine where
  /-- Does the engine take the expression with this text? -/
  accepts : List Char → Bool
  accepts_of_short :
    ∀ g : Glob, g.written.length ≤ 256 → accepts g.written = true

/-- An engine to run the program with. It goes by the number of classes, which
is about what there is to a large expression. No result depends on where it
draws the line. -/
instance Engine.byClasses : Engine where
  accepts text := (Glob.symbols text).count (.operator '[') < 15000
  accepts_of_short := by
    intro g hshort
    have hcount := List.count_le_length (a := Glob.Symbol.operator '[')
      (l := Glob.symbols g.written)
    have hlength := Glob.length_symbols_le g.written
    exact decide_eq_true (by omega)

end Signoff
