import Mathlib.Data.List.TakeWhile
import Signoff.Proofs.RuleFile
import Signoff.Proofs.RuleFile.Lines

/-!
# What every rule is like

No text is refused as a rule file, so anything may stand in one. Still the rules
that come out are all well formed (`rules_parse_wellFormed`). A pattern is a
word of the part of its line before the first `#`, so there is no blank and no
`#` in it. Owners are the words that mention one, each taken once, and a rule
without any is not made.

The numbers need a word of their own. Lines are counted before it is known which
of them make a rule and rules after that, so rules are numbered without a gap,
and their lines are some of the lines in order (`map_line_rules_sublist`).
-/

namespace Signoff

theorem nodup_eraseDups {α : Type} [BEq α] [LawfulBEq α] (l : List α) :
    l.eraseDups.Nodup := by
  match l with
  | [] => exact .nil
  | a :: l =>
      rw [List.eraseDups_cons, List.nodup_cons]
      refine ⟨?_, nodup_eraseDups (l.filter fun b => !b == a)⟩
      simp [List.mem_eraseDups]
termination_by l.length
decreasing_by exact Nat.lt_succ_of_le (List.length_filter_le _ _)

namespace Owner

theorem isNameChar_iff {c : Char} :
    isNameChar c = true ↔
      'A' ≤ c ∧ c ≤ 'Z' ∨ 'a' ≤ c ∧ c ≤ 'z' ∨ '0' ≤ c ∧ c ≤ '9' ∨
        c = '_' ∨ c = '/' ∨ c = '-' := by
  have hkinds : isNameChar c = (decide ('A' ≤ c ∧ c ≤ 'Z') ||
      (decide ('a' ≤ c) && decide (c ≤ 'z')) ||
      (decide ('0' ≤ c) && decide (c ≤ '9')) ||
      c == '_' || c == '/' || c == '-') := rfl
  rw [hkinds]
  simp only [Bool.or_eq_true, Bool.and_eq_true, decide_eq_true_eq, beq_iff_eq,
    or_assoc]

end Owner

/-- What may be relied on in a rule, whatever text it comes from. -/
structure Rule.IsWellFormed (rule : Rule) : Prop where
  pattern_ne_empty : rule.pattern ≠ ""
  pattern_chars : ∀ c ∈ rule.pattern.toList, Text.isBlank c = false ∧ c ≠ '#'
  owners_ne_nil : rule.owners ≠ []
  owners_nodup : rule.owners.Nodup
  name_ne_empty : ∀ o ∈ rule.owners, o.name ≠ ""
  name_chars : ∀ o ∈ rule.owners, ∀ c ∈ o.name.toList,
    'A' ≤ c ∧ c ≤ 'Z' ∨ 'a' ≤ c ∧ c ≤ 'z' ∨ '0' ≤ c ∧ c ≤ '9' ∨
      c = '_' ∨ c = '/' ∨ c = '-'
  separator_notMem : ∀ o ∈ rule.owners,
    ',' ∉ o.name.toList ∧ '@' ∉ o.name.toList
  kind_eq_team_iff : ∀ o ∈ rule.owners, o.kind = .team ↔ '/' ∈ o.name.toList

namespace Statement

variable {s : Statement} {line : List Char}

theorem words_of_ofLine? (h : ofLine? line = some s) :
    Text.words (line.takeWhile (· != '#')) = s.pattern :: s.mentions := by
  rw [ofLine?] at h
  split at h
  · cases h
  · next pattern mentions hwords =>
      obtain rfl := Option.some.inj h
      exact hwords

theorem pattern_of_ofLine? (h : ofLine? line = some s) :
    s.pattern ≠ [] ∧ ∀ c ∈ s.pattern, Text.isBlank c = false ∧ c ≠ '#' := by
  have hword : s.pattern ∈ Text.words (line.takeWhile (· != '#')) := by
    rw [words_of_ofLine? h]
    exact List.mem_cons_self
  obtain ⟨hne, hblank⟩ := Text.forall_of_mem_words hword
  refine ⟨hne, fun c hc => ⟨hblank c hc, ?_⟩⟩
  simpa using List.mem_takeWhile_imp (Text.mem_of_mem_words hword hc)

end Statement

namespace RuleFile

variable {text : String} {rule : Rule}

/-! ## Lines -/

theorem map_line_statementsOn_sublist (n : Nat) (lines : List (List Char)) :
    ((statementsOn n lines).map Prod.snd).Sublist
      (List.range' n lines.length) := by
  induction lines generalizing n with
  | nil => exact .slnil
  | cons line lines ih =>
      rw [statementsOn_cons, List.map_append, List.length_cons,
        List.range'_succ]
      cases Statement.ofLine? line with
      | none => exact (ih (n + 1)).cons n
      | some s => exact (ih (n + 1)).cons_cons n

theorem map_line_rulesFrom_sublist (position : Nat)
    (found : List (Statement × Nat)) :
    ((rulesFrom position found).map Rule.line).Sublist
      (found.map Prod.snd) := by
  induction found generalizing position with
  | nil => exact .slnil
  | cons entry found ih =>
      obtain ⟨s, line⟩ := entry
      rw [rulesFrom]
      split
      · exact (ih position).cons line
      · next made hmade =>
          rw [(eq_of_rule? hmade).1]
          exact (ih (position + 1)).cons_cons line

/-- The lines of the rules are among the lines of the text and in their order.
-/
theorem map_line_rules_sublist (text : String) :
    ((parse text).rules.map Rule.line).Sublist
      (List.range' 1 (Text.lines text.toList).length) :=
  (map_line_rulesFrom_sublist 0 (statements text.toList)).trans
    (map_line_statementsOn_sublist 1 (Text.lines text.toList))

theorem map_position_parse (text : String) :
    (parse text).rules.map Rule.position =
      List.range (parse text).rules.length :=
  (map_position_rulesFrom 0 (statements text.toList)).trans
    List.range_eq_range'.symm

/-! ## Rules -/

theorem exists_ofLine?_of_mem_statements {s : Statement} {number : Nat}
    {text : List Char} (h : (s, number) ∈ statements text) :
    ∃ line, Statement.ofLine? line = some s := by
  obtain ⟨entry, _, hentry⟩ := List.mem_filterMap.1 h
  obtain ⟨_, hline, heq⟩ := Option.map_eq_some_iff.1 hentry
  exact ⟨entry.1, by rw [hline, (Prod.mk.inj heq).1]⟩

theorem isWellFormed_of_mem_parse (h : rule ∈ (parse text).rules) :
    rule.IsWellFormed := by
  obtain ⟨howners, hmentionable⟩ := owners_of_mem_parse h
  obtain ⟨s, number, place, hmem, hrule⟩ := exists_rule?_of_mem_rulesFrom h
  obtain ⟨line, hline⟩ := exists_ofLine?_of_mem_statements hmem
  obtain ⟨hne, hchars⟩ := Statement.pattern_of_ofLine? hline
  have hchar : ∀ o ∈ rule.owners, ∀ c ∈ o.name.toList,
      Owner.isNameChar c = true :=
    fun o ho => (hmentionable o ho).isNameChar_of_mem
  obtain ⟨rfl, _⟩ := eq_of_rule? hrule
  exact {
    pattern_ne_empty := by simpa using hne
    pattern_chars := by simpa using hchars
    owners_ne_nil := howners
    owners_nodup := nodup_eraseDups _
    name_ne_empty := fun o ho => (hmentionable o ho).name_ne_empty
    name_chars := fun o ho c hc => Owner.isNameChar_iff.1 (hchar o ho c hc)
    separator_notMem := fun o ho => ⟨(hmentionable o ho).comma_notMem,
      fun hat => absurd (hchar o ho '@' hat) (by decide)⟩
    kind_eq_team_iff := fun o ho => by
      rw [← (hmentionable o ho).isTeam_iff, Owner.isTeam, beq_iff_eq] }

/-- The rules of a text are numbered from zero without a gap, the numbers of
their lines ascend and are those of lines that there are, and each rule is well
formed. -/
theorem rules_parse_wellFormed (text : String) :
    let rules := (parse text).rules
    (∀ (place : Nat) (h : place < rules.length),
        rules[place].position = place) ∧
      (rules.map Rule.line).Pairwise (· < ·) ∧
      (∀ rule ∈ rules,
        1 ≤ rule.line ∧ rule.line ≤ (Text.lines text.toList).length) ∧
      ∀ rule ∈ rules, rule.IsWellFormed := by
  intro rules
  have hlines := map_line_rules_sublist text
  refine ⟨?_, List.Pairwise.sublist hlines List.pairwise_lt_range', ?_,
    fun rule hrule => isWellFormed_of_mem_parse hrule⟩
  · intro place h
    have hplace : (rules.map Rule.position)[place]? = some place := by
      rw [map_position_parse, List.getElem?_range h]
    rw [List.getElem?_map, List.getElem?_eq_getElem h] at hplace
    exact Option.some.inj hplace
  · intro rule hrule
    have hmem := hlines.subset (List.mem_map_of_mem hrule)
    rw [List.mem_range'_1] at hmem
    omega

/-- One line has no owner and another loses its only one to a comment. The third
begins with a blank that is none of ASCII, and the comment joins a word. -/
example :
    (parse
        "docs\na#b @x\n\u00a0*.rs\u2003@o/c @ann @o/c e@f#@z\r\n/a @b").rules =
      [⟨"*.rs", [.ofName "o/c", .ofName "ann"], 0, 3⟩,
        ⟨"/a", [.ofName "b"], 1, 4⟩] := by
  decide

end RuleFile

end Signoff
