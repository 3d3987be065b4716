import Mathlib.Data.List.Basic
import Signoff.RuleFile

/-!
# Rule files line by line

What a rule file says is said by its lines, one at a time. The text is cut at
its line feeds, and whether a blank last line counts as one makes no difference,
so nothing has to be known about the end of a text (`statements_eq`). Statements
may then be counted from any line on and rules from any place on, which is what
an induction over lines needs.
-/

namespace Signoff.RuleFile

variable {lines : List (List Char)}

/-! ## Statements -/

/-- The statements on some lines, of which the first has the number `n`. -/
def statementsOn (n : Nat) (lines : List (List Char)) :
    List (Statement × Nat) :=
  (lines.zipIdx n).filterMap fun entry =>
    (Statement.ofLine? entry.1).map (·, entry.2)

theorem statementsOn_cons (n : Nat) (line : List Char) :
    statementsOn n (line :: lines) =
      ((Statement.ofLine? line).map (·, n)).toList ++
        statementsOn (n + 1) lines := by
  rw [statementsOn, List.zipIdx_cons, List.filterMap_cons]
  cases Statement.ofLine? line with
  | none => rfl
  | some s => rfl

theorem statementsOn_append (n : Nat) (lines more : List (List Char)) :
    statementsOn n (lines ++ more) =
      statementsOn n lines ++ statementsOn (n + lines.length) more := by
  rw [statementsOn, List.zipIdx_append, List.filterMap_append]
  rfl

theorem statementsOn_add (n k : Nat) (lines : List (List Char)) :
    statementsOn (n + k) lines =
      (statementsOn n lines).map (Prod.map id (· + k)) := by
  induction lines generalizing n with
  | nil => rfl
  | cons line lines ih =>
      rw [statementsOn_cons, statementsOn_cons, Nat.add_right_comm, ih]
      cases Statement.ofLine? line with
      | none => rfl
      | some s => rfl

theorem statements_eq (text : List Char) :
    statements text = statementsOn 1 (text.splitOn '\n') := by
  show statementsOn 1 (Text.lines text) = _
  rw [Text.lines]
  split
  · next hlast =>
      obtain ⟨front, hfront⟩ := List.getLast?_eq_some_iff.1 hlast
      rw [hfront, List.dropLast_concat, statementsOn_append, statementsOn_cons]
      exact (List.append_nil _).symm
  · rfl

theorem length_splitOn_newline (text : List Char) :
    (text.splitOn '\n').length = text.count '\n' + 1 := by
  induction text with
  | nil => rfl
  | cons c text ih =>
      rw [List.splitOn_cons_eq_if_modifyHead, List.count_cons]
      split
      · rw [List.length_cons, ih]
      · rw [List.length_modifyHead, ih]

/-! ## Rules and diagnostics -/

theorem rulesFrom_append (position : Nat)
    (found rest : List (Statement × Nat)) :
    rulesFrom position (found ++ rest) =
      rulesFrom position found ++
        rulesFrom (position + (rulesFrom position found).length) rest := by
  induction found generalizing position with
  | nil => rfl
  | cons entry found ih =>
      obtain ⟨s, line⟩ := entry
      rw [List.cons_append, rulesFrom, rulesFrom]
      split
      · exact ih position
      · rw [ih, List.cons_append, List.length_cons, Nat.add_assoc,
          Nat.add_comm 1]

/-- What is dropped from some statements, with the numbers of their lines. -/
def diagnosticsOf (found : List (Statement × Nat)) : List Diagnostic :=
  found.flatMap fun entry => entry.1.notes.map (⟨entry.2, ·⟩)

theorem ofChars_eq (text : List Char) :
    ofChars text =
      ⟨rulesFrom 0 (statements text), diagnosticsOf (statements text)⟩ := rfl

end Signoff.RuleFile
