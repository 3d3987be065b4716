import Signoff.Proofs.Policy
import Signoff.Proofs.RuleFile.Lines

/-!
# One rule file after another

Where a rule stands shows in nothing but numbers. Two texts with a line feed
between them have the lines of the first and then those of the second, so the
second is read as it is read by itself, and only the counts of rules and of
lines begin later (`parse_append_newline`). A line feed at the end of the first
text makes no exception. It adds a line with nothing on it.

Rules that come later prevail. The second file decides about each path that it
has a rule for, and about all others the first one is left to decide.
-/

namespace Signoff

/-- The rule after so many more rules, and so many lines further down. -/
def Rule.moved (places lines : Nat) (rule : Rule) : Rule :=
  { rule with position := rule.position + places, line := rule.line + lines }

def Diagnostic.moved (lines : Nat) (d : Diagnostic) : Diagnostic :=
  { d with line := d.line + lines }

def Ownership.moved (places : Nat) (o : Ownership) : Ownership :=
  { o with position? := o.position?.map (· + places) }

/-! ## Who owns a file -/

namespace Policy

variable [Engine] {rules earlier later : List Rule} {file : String}

theorem governing?_append (earlier later : List Rule) (file : String) :
    (ofRules (earlier ++ later)).governing? file =
      ((ofRules later).governing? file).or
        ((ofRules earlier).governing? file) := by
  simp only [governing?_eq_getLast?, covering_ofRules, List.filter_append,
    List.getLast?_append]

theorem governing?_map_moved (places lines : Nat) (rules : List Rule)
    (file : String) :
    (ofRules (rules.map (Rule.moved places lines))).governing? file =
      ((ofRules rules).governing? file).map (Rule.moved places lines) := by
  rw [governing?_eq_getLast?, covering_ofRules, List.filter_map,
    List.getLast?_map, governing?_eq_getLast?, covering_ofRules]
  rfl

theorem ownership_map_moved (places lines : Nat) (rules : List Rule)
    (file : String) :
    (ofRules (rules.map (Rule.moved places lines))).ownership file =
      ((ofRules rules).ownership file).moved places := by
  rw [ownership, governing?_map_moved, ownership]
  cases (ofRules rules).governing? file with
  | none => rfl
  | some rule => rfl

theorem governing?_eq_none_iff :
    (ofRules rules).governing? file = none ↔
      ¬ ∃ rule ∈ rules, rule.Covers file := by
  rw [governing?_eq_getLast?, List.getLast?_eq_none_iff, covering_ofRules,
    List.filter_eq_nil_iff]
  simp only [decide_eq_true_iff, not_exists, not_and]

theorem ownership_append_of_covers (h : ∃ rule ∈ later, rule.Covers file) :
    (ofRules (earlier ++ later)).ownership file =
      (ofRules later).ownership file := by
  cases hrule : (ofRules later).governing? file with
  | none => exact absurd h (governing?_eq_none_iff.1 hrule)
  | some rule =>
      rw [ownership, governing?_append, hrule, ownership, hrule]
      rfl

theorem ownership_append_of_not_covers
    (h : ¬ ∃ rule ∈ later, rule.Covers file) :
    (ofRules (earlier ++ later)).ownership file =
      (ofRules earlier).ownership file := by
  rw [ownership, governing?_append, governing?_eq_none_iff.2 h, Option.none_or,
    ownership]

/-- Where the rules stand is of no account for the paths that they cover. -/
theorem exists_covers_map_moved_iff {places lines : Nat} :
    (∃ rule ∈ rules.map (Rule.moved places lines), rule.Covers file) ↔
      ∃ rule ∈ rules, rule.Covers file := by
  simp only [List.mem_map, exists_exists_and_eq_and]
  rfl

end Policy

namespace RuleFile

/-! ## The second file after the first -/

theorem statements_append_newline (first second : List Char) :
    statements (first ++ '\n' :: second) =
      statements first ++
        (statements second).map
          (Prod.map id (· + (first.count '\n' + 1))) := by
  rw [statements_eq, List.splitOn_append_cons_self, statementsOn_append,
    statementsOn_add, length_splitOn_newline, statements_eq, statements_eq]

theorem rule?_moved (s : Statement) (position line places lines : Nat) :
    s.rule? (position + places) (line + lines) =
      (s.rule? position line).map (Rule.moved places lines) := by
  rw [Statement.rule?, Statement.rule?]
  split <;> rfl

theorem rulesFrom_moved (position places lines : Nat)
    (found : List (Statement × Nat)) :
    rulesFrom (position + places) (found.map (Prod.map id (· + lines))) =
      (rulesFrom position found).map (Rule.moved places lines) := by
  induction found generalizing position with
  | nil => rfl
  | cons entry found ih =>
      obtain ⟨s, line⟩ := entry
      rw [List.map_cons, Prod.map_apply, rulesFrom, id_eq, rule?_moved,
        rulesFrom]
      cases s.rule? position line with
      | none => exact ih position
      | some rule =>
          rw [Option.map_some, List.map_cons, ← ih, Nat.add_right_comm]

theorem diagnosticsOf_moved (lines : Nat) (found : List (Statement × Nat)) :
    diagnosticsOf (found.map (Prod.map id (· + lines))) =
      (diagnosticsOf found).map (Diagnostic.moved lines) := by
  rw [diagnosticsOf, List.flatMap_map, diagnosticsOf, List.map_flatMap]
  refine List.flatMap_congr fun entry _ => ?_
  rw [List.map_map]
  rfl

theorem rules_append_newline (first second : List Char) :
    (ofChars (first ++ '\n' :: second)).rules =
      (ofChars first).rules ++ (ofChars second).rules.map
        (Rule.moved (ofChars first).rules.length (first.count '\n' + 1)) := by
  simp only [ofChars_eq, statements_append_newline, rulesFrom_append,
    ← rulesFrom_moved]

theorem diagnostics_append_newline (first second : List Char) :
    (ofChars (first ++ '\n' :: second)).diagnostics =
      (ofChars first).diagnostics ++ (ofChars second).diagnostics.map
        (Diagnostic.moved (first.count '\n' + 1)) := by
  simp only [ofChars_eq, statements_append_newline, ← diagnosticsOf_moved]
  exact List.flatMap_append

/-- The rules and diagnostics of a text after another are those that it has by
itself, counted on. A file belongs to whom it would give the file, and if it has
no rule for the file, to whom the other text gives it. -/
theorem parse_append_newline [Engine] (first second : String) :
    (parse (first ++ "\n" ++ second)).rules =
        (parse first).rules ++ (parse second).rules.map (Rule.moved
          (parse first).rules.length (first.toList.count '\n' + 1)) ∧
      (parse (first ++ "\n" ++ second)).diagnostics =
        (parse first).diagnostics ++ (parse second).diagnostics.map
          (Diagnostic.moved (first.toList.count '\n' + 1)) ∧
      ∀ file,
        ((∃ rule ∈ (parse second).rules, rule.Covers file) →
          (Policy.ofRules (parse (first ++ "\n" ++ second)).rules).ownership
              file =
            ((Policy.ofRules (parse second).rules).ownership file).moved
              (parse first).rules.length) ∧
        ((¬ ∃ rule ∈ (parse second).rules, rule.Covers file) →
          (Policy.ofRules (parse (first ++ "\n" ++ second)).rules).ownership
              file =
            (Policy.ofRules (parse first).rules).ownership file) := by
  have htext : (first ++ "\n" ++ second).toList =
      first.toList ++ '\n' :: second.toList := by
    simp
  have hrules : (parse (first ++ "\n" ++ second)).rules =
      (parse first).rules ++ (parse second).rules.map (Rule.moved
        (parse first).rules.length (first.toList.count '\n' + 1)) := by
    rw [parse, htext]
    exact rules_append_newline _ _
  refine ⟨hrules, ?_, fun file => ⟨fun hcovers => ?_, fun hcovers => ?_⟩⟩
  · rw [parse, htext]
    exact diagnostics_append_newline _ _
  · rw [hrules, Policy.ownership_append_of_covers
      (Policy.exists_covers_map_moved_iff.2 hcovers),
      Policy.ownership_map_moved]
  · rw [hrules, Policy.ownership_append_of_not_covers
      (mt Policy.exists_covers_map_moved_iff.1 hcovers)]

/-- The first text ends in the middle of a line and has a line without owners.
The second has a rule for one of two files. -/
theorem parse_append_newline_dropped_line :
    let back := parse "\n/src/ @org/core @b.c"
    let whole := parse ("docs\r\n* @ann" ++ "\n" ++ "\n/src/ @org/core @b.c")
    (∃ rule ∈ back.rules, rule.Covers "src/a.c") ∧
      (Policy.ofRules whole.rules).ownership "src/a.c" =
        ⟨"src/a.c", [.ofName "org/core"], some "/src/", some 1⟩ ∧
      (¬ ∃ rule ∈ back.rules, rule.Covers "a.c") ∧
      (Policy.ofRules whole.rules).ownership "a.c" =
        ⟨"a.c", [.ofName "ann"], some "*", some 0⟩ := by
  intro back whole
  obtain ⟨_, _, hfiles⟩ :=
    parse_append_newline "docs\r\n* @ann" "\n/src/ @org/core @b.c"
  have hcovers : ∃ rule ∈ back.rules, rule.Covers "src/a.c" :=
    ⟨⟨"/src/", [.ofName "org/core"], 0, 2⟩, by decide, _, rfl, by decide⟩
  have hnone : ¬ ∃ rule ∈ back.rules, rule.Covers "a.c" :=
    Policy.governing?_eq_none_iff.1 (by decide)
  refine ⟨hcovers, ?_, hnone, ?_⟩
  · rw [(hfiles "src/a.c").1 hcovers]
    decide
  · rw [(hfiles "a.c").2 hnone]
    decide

end RuleFile

end Signoff
