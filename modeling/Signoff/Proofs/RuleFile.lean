import Mathlib.Data.List.Nodup
import Signoff.Proofs.Owner
import Signoff.RuleFile

/-!
# The rules of a rule file

A rule is made of one statement, and no rule is made of a statement without
owners. So whatever the text, its rules have owners, and all of these have been
mentioned in it. Statements that make no rule do not count, so the places of
the rules are the numbers from zero on.
-/

namespace Signoff.RuleFile

variable {text : String} {rule : Rule}

/-- Every rule of a file is made of one of its statements. -/
theorem exists_rule?_of_mem_rulesFrom {position : Nat}
    {found : List (Statement × Nat)} (h : rule ∈ rulesFrom position found) :
    ∃ s line place, (s, line) ∈ found ∧ s.rule? place line = some rule := by
  induction found generalizing position with
  | nil => cases h
  | cons entry rest ih =>
      obtain ⟨s, line⟩ := entry
      rw [rulesFrom] at h
      split at h
      · obtain ⟨s', line', place, hmem, hrule⟩ := ih h
        exact ⟨s', line', place, List.mem_cons_of_mem _ hmem, hrule⟩
      · next made hmade =>
          rcases List.mem_cons.1 h with heq | h
          · exact ⟨s, line, position, List.mem_cons_self, heq ▸ hmade⟩
          · obtain ⟨s', line', place, hmem, hrule⟩ := ih h
            exact ⟨s', line', place, List.mem_cons_of_mem _ hmem, hrule⟩

theorem isMentionable_of_mem_owners {s : Statement} {o : Owner}
    (h : o ∈ s.owners) : o.IsMentionable := by
  rw [Statement.owners, List.mem_eraseDups, List.mem_filterMap] at h
  obtain ⟨word, _, hword⟩ := h
  exact Owner.isMentionable_of_ofMention? hword

theorem eq_of_rule? {s : Statement} {position line : Nat}
    (h : s.rule? position line = some rule) :
    rule = ⟨.ofList s.pattern, s.owners, position, line⟩ ∧ s.owners ≠ [] := by
  rw [Statement.rule?] at h
  split at h
  · cases h
  · next hne => exact ⟨(Option.some.inj h).symm, by simpa using hne⟩

theorem owners_of_mem_parse (h : rule ∈ (parse text).rules) :
    rule.owners ≠ [] ∧ ∀ o ∈ rule.owners, o.IsMentionable := by
  obtain ⟨s, line, place, _, hrule⟩ := exists_rule?_of_mem_rulesFrom h
  obtain ⟨rfl, hne⟩ := eq_of_rule? hrule
  exact ⟨hne, fun o ho => isMentionable_of_mem_owners ho⟩

/-- Rules are counted without a gap, however many statements make none. -/
theorem map_position_rulesFrom (position : Nat)
    (found : List (Statement × Nat)) :
    (rulesFrom position found).map Rule.position =
      List.range' position (rulesFrom position found).length := by
  induction found generalizing position with
  | nil => rfl
  | cons entry rest ih =>
      rw [rulesFrom]
      split
      · exact ih position
      · next made hmade =>
          rw [List.map_cons, ih, (eq_of_rule? hmade).1, List.length_cons,
            List.range'_succ]

theorem pairwise_position (text : String) :
    (parse text).rules.Pairwise fun rule rule' =>
      rule.position < rule'.position := by
  rw [← List.pairwise_map (f := Rule.position) (R := (· < ·))]
  show ((rulesFrom 0 _).map Rule.position).Pairwise (· < ·)
  rw [map_position_rulesFrom]
  exact List.pairwise_lt_range'

/-- A rule of a file is told by its place. -/
theorem eq_of_position_eq {rule' : Rule} (h : rule ∈ (parse text).rules)
    (h' : rule' ∈ (parse text).rules)
    (hplace : rule.position = rule'.position) : rule = rule' := by
  have hnodup : ((parse text).rules.map Rule.position).Nodup :=
    List.pairwise_map.2 ((pairwise_position text).imp Nat.ne_of_lt)
  exact List.inj_on_of_nodup_map hnodup h h' hplace

end Signoff.RuleFile
