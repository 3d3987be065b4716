import Signoff.Rule

/-!
# Rule files

A rule file has one rule a line: a pattern and then the owners, each with a
leading `@`, all separated by white space. A `#` starts a comment wherever it
stands. No line is an error. A word that should be an owner and is none is
dropped, and so is a rule left without owners; a diagnostic says so each time.

Each line is read on its own (`Statement.ofLine?`), and all that joins lines is
their numbering: lines count from one, rules from zero.
-/

namespace Signoff

/-- What a diagnostic has to tell. -/
inductive Note where
  /-- The word stands where an owner is expected and mentions none. -/
  | invalidOwner (word : String)
  /-- No owner is left for the pattern. -/
  | noOwners (pattern : String)
  deriving DecidableEq

def Note.message : Note → String
  | .invalidOwner word => "invalid owner: " ++ word
  | .noOwners pattern => "rule for `" ++ pattern ++ "` has no valid owners"

/-- Something that was left out of the rules, and the line it was on. -/
structure Diagnostic where
  line : Nat
  note : Note
  deriving DecidableEq

/-- The words of a line that is not blank: a pattern and what follows it. -/
structure Statement where
  pattern : List Char
  mentions : List (List Char)
  deriving DecidableEq

namespace Statement

/-- The statement of a line, if anything but white space comes before its first
`#`. -/
def ofLine? (line : List Char) : Option Statement :=
  match Text.words (line.takeWhile (· != '#')) with
  | [] => none
  | pattern :: mentions => some ⟨pattern, mentions⟩

/-- The owners that are mentioned, in the order of their first mentions. -/
def owners (s : Statement) : List Owner :=
  (s.mentions.filterMap Owner.ofMention?).eraseDups

/-- The words that mention no owner. -/
def strays (s : Statement) : List (List Char) :=
  s.mentions.filter fun word => (Owner.ofMention? word).isNone

/-- The rule that the statement makes, unless it has no owners. -/
def rule? (s : Statement) (position line : Nat) : Option Rule :=
  if s.owners.isEmpty then none
  else some ⟨.ofList s.pattern, s.owners, position, line⟩

/-- What is dropped from the statement: stray words in order, and at last the
whole rule. -/
def notes (s : Statement) : List Note :=
  s.strays.map (fun word => .invalidOwner (.ofList word)) ++
    if s.owners.isEmpty then [.noOwners (.ofList s.pattern)] else []

end Statement

/-- What a rule file says, and what was dropped from it. -/
structure RuleFile where
  rules : List Rule
  diagnostics : List Diagnostic
  deriving DecidableEq

namespace RuleFile

/-- The file without a line. -/
def empty : RuleFile := ⟨[], []⟩

/-- The rules of numbered statements, the first of which stands at `position`.
-/
def rulesFrom (position : Nat) : List (Statement × Nat) → List Rule
  | [] => []
  | (s, line) :: rest =>
      match s.rule? position line with
      | none => rulesFrom position rest
      | some rule => rule :: rulesFrom (position + 1) rest

/-- The statements of a text with the numbers of their lines. -/
def statements (text : List Char) : List (Statement × Nat) :=
  (Text.lines text).zipIdx 1 |>.filterMap fun (line, number) =>
    (Statement.ofLine? line).map (·, number)

def ofChars (text : List Char) : RuleFile :=
  let found := statements text
  ⟨rulesFrom 0 found, found.flatMap fun (s, line) => s.notes.map (⟨line, ·⟩)⟩

/-- Reads a rule file. Every text is one. -/
def parse (text : String) : RuleFile := ofChars text.toList

end RuleFile

end Signoff
