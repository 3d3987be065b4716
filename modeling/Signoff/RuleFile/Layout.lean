import Signoff.Rule
import Signoff.Text.Blank

/-!
# How rule files are laid out

There are many ways to write down the same rules. Each rule has a line to
itself, its owners stand after the pattern in their order, and a blank at least
separates one word from the next. Beyond that there may be blanks wherever words
may end, comments at the ends of lines, and lines that say nothing anywhere
between the others. Lines end in a line feed, with a carriage return before it
or not, and the last one may go without.

Nothing here is read. A draft is what somebody means to write, and `Writes`
tells which texts have it written down, and on which lines.
-/

namespace Signoff

/-- A pattern and the names of the owners that it is meant to have. -/
structure Draft where
  pattern : String
  owners : List String
  deriving DecidableEq

namespace Draft

/-- A draft that can be told from what may stand around it. -/
structure IsWritable (d : Draft) : Prop where
  pattern_ne_empty : d.pattern ≠ ""
  pattern_chars : ∀ c ∈ d.pattern.toList, Text.isBlank c = false ∧ c ≠ '#'
  owners_ne_nil : d.owners ≠ []
  owners_nodup : d.owners.Nodup
  name_ne_empty : ∀ name ∈ d.owners, name ≠ ""
  name_chars : ∀ name ∈ d.owners, ∀ c ∈ name.toList, Owner.isNameChar c = true

instance (d : Draft) : Decidable d.IsWritable :=
  decidable_of_iff
    ((d.pattern ≠ "" ∧
        d.pattern.toList.all fun c => !Text.isBlank c && c != '#') ∧
      (d.owners ≠ [] ∧ d.owners.Nodup) ∧
      ∀ name ∈ d.owners, name ≠ "" ∧ name.toList.all Owner.isNameChar)
    ⟨fun ⟨⟨hpattern, hchars⟩, ⟨howners, hnodup⟩, hnames⟩ =>
      ⟨hpattern, by simpa using hchars, howners, hnodup,
        fun name hname => (hnames name hname).1,
        fun name hname => List.all_eq_true.1 (hnames name hname).2⟩,
      fun h => ⟨⟨h.pattern_ne_empty, by simpa using h.pattern_chars⟩,
        ⟨h.owners_ne_nil, h.owners_nodup⟩, fun name hname =>
          ⟨h.name_ne_empty name hname,
            List.all_eq_true.2 (h.name_chars name hname)⟩⟩⟩

/-- The rule that is meant, at its place among the rules and on its line. -/
def rule (d : Draft) (position line : Nat) : Rule where
  pattern := d.pattern
  owners := d.owners.map fun name =>
    ⟨name, if '/' ∈ name.toList then .team else .individual⟩
  position := position
  line := line

end Draft

namespace Layout

/-- Blanks that do not end the line. -/
def IsMargin (s : List Char) : Prop := ∀ c ∈ s, Text.isBlank c = true ∧ c ≠ '\n'

instance (s : List Char) : Decidable (IsMargin s) := List.decidableBAll _ s

/-- Blanks and, it may be, a comment. -/
inductive SaysNothing : List Char → Prop
  | margin {margin : List Char} : IsMargin margin → SaysNothing margin
  | comment {margin comment : List Char} :
      IsMargin margin → '\n' ∉ comment → SaysNothing (margin ++ '#' :: comment)

/-- What is left of a line after the pattern: the owners, with blanks in front
of each. -/
inductive ListsOwners : List String → List Char → Prop
  | nil {s : List Char} : SaysNothing s → ListsOwners [] s
  | cons {gap s : List Char} {name : String} {names : List String} :
      IsMargin gap → gap ≠ [] → ListsOwners names s →
        ListsOwners (name :: names) (gap ++ '@' :: name.toList ++ s)

/-- A line for a draft, or for none. -/
inductive Says : Option Draft → List Char → Prop
  | nothing {s : List Char} : SaysNothing s → Says none s
  | draft {margin s : List Char} {d : Draft} :
      IsMargin margin → ListsOwners d.owners s →
        Says (some d) (margin ++ d.pattern.toList ++ s)

/-- The text has these drafts written down, each on the line with the number
given, if its own first line has the number `n`. -/
inductive Writes : Nat → List (Draft × Nat) → List Char → Prop
  | last {n : Nat} {said : Option Draft} {line : List Char} :
      Says said line → Writes n (said.toList.map (·, n)) line
  | line {n : Nat} {said : Option Draft} {line ending text : List Char}
      {drafts : List (Draft × Nat)} :
      Says said line → ending = ['\n'] ∨ ending = ['\r', '\n'] →
        Writes (n + 1) drafts text →
        Writes n (said.toList.map (·, n) ++ drafts) (line ++ ending ++ text)

end Layout

end Signoff
