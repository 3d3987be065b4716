import Signoff.Pattern
import Signoff.RuleFile

/-!
# Policies

The rules of a repository, ready to be asked about paths. A rule whose pattern
cannot be made ready stays among the rules and covers nothing. Of the rules that
cover a path the last one governs it: how specific a pattern is plays no part.
-/

namespace Signoff

variable [Engine]

/-- A rule with its pattern ready, if it can be made so. -/
structure Policy.Entry where
  rule : Rule
  pattern? : Option Pattern
  pattern?_eq : pattern? = (Pattern.compile rule.pattern).toOption

namespace Policy.Entry

def ofRule (rule : Rule) : Entry := ⟨rule, _, rfl⟩

def covers (e : Entry) (path : String) : Bool := e.pattern?.any (·.covers path)

theorem covers_ofRule (rule : Rule) (path : String) :
    (ofRule rule).covers path =
      (Pattern.compile rule.pattern).toOption.any (·.covers path) := rfl

end Policy.Entry

/-- The rules of a repository in their order. -/
structure Policy where
  entries : List Policy.Entry

/-- Who owns a file: the owners of the governing rule, which is named if there
is one. -/
structure Ownership where
  file : String
  owners : List Owner
  pattern? : Option String
  position? : Option Nat
  deriving DecidableEq

namespace Policy

def ofRules (rules : List Rule) : Policy := ⟨rules.map Entry.ofRule⟩

def rules (p : Policy) : List Rule := p.entries.map Entry.rule

/-- The rules that cover a path, in their order. -/
def covering (p : Policy) (path : String) : List Rule :=
  (p.entries.filter (·.covers path)).map Entry.rule

/-- The rule that decides about a path: the one that covers it and is met last.
-/
def governing? (p : Policy) (path : String) : Option Rule :=
  p.entries.foldl
    (fun last? e => if e.covers path then some e.rule else last?) none

theorem governing?_eq_getLast? (p : Policy) (path : String) :
    p.governing? path = (p.covering path).getLast? := by
  suffices h : ∀ (entries : List Entry) (last? : Option Rule),
      entries.foldl (fun last? e =>
          if e.covers path then some e.rule else last?) last? =
        ((entries.filter (·.covers path)).map Entry.rule).getLast?.or last? from
    (h p.entries none).trans Option.or_none
  intro entries
  induction entries with
  | nil => exact fun _ => rfl
  | cons e entries ih =>
      intro last?
      rw [List.foldl_cons, ih, List.filter_cons]
      split
      · rw [List.map_cons, List.getLast?_cons]
        cases ((entries.filter (·.covers path)).map Entry.rule).getLast? <;> rfl
      · rfl

def owners? (p : Policy) (path : String) : Option (List Owner) :=
  (p.governing? path).map Rule.owners

/-- Who owns the file under the policy. Without a governing rule, nobody does.
-/
def ownership (p : Policy) (file : String) : Ownership :=
  match p.governing? file with
  | some rule => ⟨file, rule.owners, some rule.pattern, some rule.position⟩
  | none => ⟨file, [], none, none⟩

/-- The ownership of each file, in the order of the files. -/
def ownerships (p : Policy) (files : List String) : List Ownership :=
  files.map p.ownership

end Policy

namespace Ownership

/-- The pattern that gave the file its owners, or `none` as a word. -/
def patternText (o : Ownership) : String := o.pattern?.getD "none"

end Ownership

end Signoff
