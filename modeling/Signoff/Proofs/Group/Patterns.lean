import Mathlib.Data.List.Nodup
import Signoff.Proofs.Partition
import Signoff.Proofs.Reordering

/-!
# The patterns of a group

A group is reported with the patterns that gave its files their owners. These
are the patterns of all the rules that govern one of its files, and of no
others, and they stand in the order of the rules. They are collected by the
places of the rules, not by their texts, so a rule file that repeats a pattern
might seem to have it reported twice.

It never is (`patterns_grouping`). What a rule covers is a matter of its pattern
alone. If the same pattern comes again further down, then the later rule covers
whatever the earlier one covers, and the earlier one governs nothing
(`Rule.Governs.eq_of_pattern_eq`). So no two rules with one pattern both govern
files, whether of one group or of two. And a rule that governs files has all of
them in one group, that of its owners.
-/

namespace Signoff

theorem eq_or_mem_of_append_cons_eq {α : Type} {l l' m m' : List α} {a b : α}
    (h : l ++ a :: m = l' ++ b :: m') : a = b ∨ b ∈ m ∨ a ∈ m' := by
  rcases List.append_eq_append_iff.1 h with
    ⟨middle, _, hback⟩ | ⟨middle, _, hback⟩
  · cases middle with
    | nil => exact Or.inl (List.cons.inj hback).1
    | cons c middle =>
        rw [List.cons_append, List.cons.injEq] at hback
        exact Or.inr (Or.inl (by simp [hback.2]))
  · cases middle with
    | nil => exact Or.inl (List.cons.inj hback).1.symm
    | cons c middle =>
        rw [List.cons_append, List.cons.injEq] at hback
        exact Or.inr (Or.inr (by simp [hback.2]))

/-- Of rules with one pattern only the last ever governs a path. -/
theorem Rule.Governs.eq_of_pattern_eq [Engine] {rules : List Rule}
    {rule rule' : Rule} {path path' : String} (h : rule.Governs rules path)
    (h' : rule'.Governs rules path') (hpattern : rule.pattern = rule'.pattern) :
    rule = rule' := by
  obtain ⟨earlier, later, hrules, hcovers, hnone⟩ := h
  obtain ⟨earlier', later', hrules', hcovers', hnone'⟩ := h'
  have hsame : ∀ path, rule.Covers path ↔ rule'.Covers path := by
    intro path
    rw [Rule.Covers, Rule.Covers, hpattern]
  rcases eq_or_mem_of_append_cons_eq (hrules.symm.trans hrules') with
    heq | hlater | hlater'
  · exact heq
  · exact absurd ((hsame path).1 hcovers) (hnone rule' hlater)
  · exact absurd ((hsame path').2 hcovers') (hnone' rule hlater')

theorem RuleFile.nodup_rules (text : String) : (parse text).rules.Nodup := by
  refine List.Pairwise.imp ?_ (pairwise_position text)
  intro rule rule' hlt heq
  exact Nat.ne_of_lt hlt (congrArg Rule.position heq)

namespace Policy

variable {text file : String} {files : List String} {rule : Rule} {g g' : Group}
  {members : List Ownership}

/-- The patterns are those of the rules behind the members, in the order of the
rules. -/
theorem patternsOf_eq [Engine] (hmembers : members ⊆
      (ofRules (RuleFile.parse text).rules).ownerships files) :
    Group.patternsOf members =
      ((RuleFile.parse text).rules.filter fun rule =>
        (rule.position, rule.pattern) ∈ Group.governing members).map
          Rule.pattern := by
  have hplaces : ascending ((Group.governing members).map Prod.fst) =
      ((RuleFile.parse text).rules.filter fun rule =>
        (rule.position, rule.pattern) ∈ Group.governing members).map
          Rule.position := by
    refine eq_of_ascending (isAscending_ascending _) (List.pairwise_map.2
      ((RuleFile.pairwise_position text).sublist List.filter_sublist)) ?_
    intro place
    simp only [mem_ascending, List.mem_map, List.mem_filter, decide_eq_true_eq]
    constructor
    · intro h
      obtain ⟨e, he, rfl⟩ := h
      obtain ⟨rule, hrule, rfl⟩ :=
        exists_rule_of_mem_governing (List.filterMap_subset _ hmembers he)
      exact ⟨rule, ⟨hrule, he⟩, rfl⟩
    · intro h
      obtain ⟨rule, ⟨_, he⟩, rfl⟩ := h
      exact ⟨_, he, rfl⟩
  have hplaced := (isPlaced_ownerships text files).of_subset hmembers
  simp only [Group.patternsOf, hplaces]
  rw [List.filterMap_map, ← List.filterMap_eq_map]
  refine List.filterMap_congr fun rule hrule => ?_
  have hmem := of_decide_eq_true (List.mem_filter.1 hrule).2
  exact (lookup_eq_some_iff_mem hplaced).2 hmem

/-! ## One group -/

/-- Some of the rules, in their order, are those that govern files of the group,
and the group has their patterns. -/
theorem exists_rules_of_mem_groups [Engine]
    (hg : g ∈ ((ofRules (RuleFile.parse text).rules).grouping files).groups) :
    ∃ governing : List Rule, governing.Sublist (RuleFile.parse text).rules ∧
      (∀ rule, rule ∈ governing ↔
        ∃ file ∈ g.files, rule.Governs (RuleFile.parse text).rules file) ∧
      g.patterns = governing.map Rule.pattern := by
  obtain ⟨o, _, _, rfl⟩ := Grouping.mem_groups_ofOwnerships_iff.1 hg
  have hmembers : Grouping.membersOf
        ((ofRules (RuleFile.parse text).rules).ownerships files)
        (ownersKey o.owners) ⊆
      (ofRules (RuleFile.parse text).rules).ownerships files :=
    List.filter_sublist.subset
  refine ⟨_, List.filter_sublist, fun rule => ?_, patternsOf_eq hmembers⟩
  rw [List.mem_filter, decide_eq_true_iff, mem_governing_iff hmembers]
  constructor
  · intro h
    obtain ⟨hrule, file, hfile, other, hgoverns, heq⟩ := h
    have hother := RuleFile.eq_of_position_eq hrule
      (mem_rules_of_governs hgoverns) (Prod.mk.inj heq).1
    exact ⟨file, hfile, hother ▸ hgoverns⟩
  · intro h
    obtain ⟨file, hfile, hgoverns⟩ := h
    exact ⟨mem_rules_of_governs hgoverns, file, hfile, rule, hgoverns, rfl⟩

theorem label_of_mem_groups {all : List Ownership}
    (hg : g ∈ (Grouping.ofOwnerships all).groups) :
    g.label = (g.patterns.head?.map Label.ofPattern).getD g.key := by
  obtain ⟨o, _, _, rfl⟩ := Grouping.mem_groups_ofOwnerships_iff.1 hg
  rfl

theorem holds_of_mem_files [Engine] {p : Policy}
    (hg : g ∈ (p.grouping files).groups) (hfile : file ∈ g.files) :
    g.Holds (p.ownership file) := by
  rw [Grouping.files_eq hg] at hfile
  obtain ⟨o, ho, rfl⟩ := List.mem_map.1 hfile
  obtain ⟨hall, hholds⟩ := List.mem_filter.1 ho
  obtain ⟨file, _, rfl⟩ := List.mem_map.1 hall
  rw [file_ownership]
  exact of_decide_eq_true hholds

theorem exists_governs_of_mem_groups [Engine] {rules : List Rule}
    (hg : g ∈ ((ofRules rules).grouping files).groups) :
    ∃ file ∈ g.files, ∃ rule : Rule, rule.Governs rules file := by
  obtain ⟨file, hfile⟩ := List.exists_mem_of_ne_nil _ (Grouping.files_ne_nil hg)
  obtain ⟨rule, hgoverns, _⟩ :=
    exists_governs_of_owners (holds_of_mem_files hg hfile).1
  exact ⟨file, hfile, rule, hgoverns⟩

theorem key_of_governs [Engine] {rules : List Rule}
    (hg : g ∈ ((ofRules rules).grouping files).groups) (hfile : file ∈ g.files)
    (hgoverns : rule.Governs rules file) : g.key = ownersKey rule.owners := by
  rw [(holds_of_mem_files hg hfile).2, ownership_of_governs hgoverns]

/-! ## All groups -/

/-- Rules with one pattern are one rule, and it has its files in one group. -/
theorem key_eq_of_mem_patterns [Engine] {pattern : String}
    (hg : g ∈ ((ofRules (RuleFile.parse text).rules).grouping files).groups)
    (hg' : g' ∈ ((ofRules (RuleFile.parse text).rules).grouping files).groups)
    (h : pattern ∈ g.patterns) (h' : pattern ∈ g'.patterns) :
    g.key = g'.key := by
  obtain ⟨governing, _, hmem, hpatterns⟩ := exists_rules_of_mem_groups hg
  obtain ⟨governing', _, hmem', hpatterns'⟩ := exists_rules_of_mem_groups hg'
  rw [hpatterns] at h
  rw [hpatterns'] at h'
  obtain ⟨rule, hrule, rfl⟩ := List.mem_map.1 h
  obtain ⟨rule', hrule', hpattern⟩ := List.mem_map.1 h'
  obtain ⟨file, hfile, hgoverns⟩ := (hmem rule).1 hrule
  obtain ⟨file', hfile', hgoverns'⟩ := (hmem' rule').1 hrule'
  rw [key_of_governs hg hfile hgoverns, key_of_governs hg' hfile' hgoverns',
    hgoverns.eq_of_pattern_eq hgoverns' hpattern.symm]

theorem nodup_patterns_of_mem_groups [Engine]
    (hg : g ∈ ((ofRules (RuleFile.parse text).rules).grouping files).groups) :
    g.patterns.Nodup := by
  obtain ⟨governing, hsublist, hmem, hpatterns⟩ := exists_rules_of_mem_groups hg
  rw [hpatterns]
  refine List.Nodup.map_on ?_ ((RuleFile.nodup_rules text).sublist hsublist)
  intro rule hrule rule' hrule' hpattern
  obtain ⟨file, _, hgoverns⟩ := (hmem rule).1 hrule
  obtain ⟨file', _, hgoverns'⟩ := (hmem rule').1 hrule'
  exact hgoverns.eq_of_pattern_eq hgoverns' hpattern

/-- The patterns of a group are those of the rules that govern its files, by the
places of these rules, and the first of them gives the label. No pattern comes
up twice in a grouping. -/
theorem patterns_grouping [Engine] (text : String) (files : List String) :
    let rules := (RuleFile.parse text).rules
    let grouping := (ofRules rules).grouping files
    (∀ g ∈ grouping.groups, ∃ (first : Rule) (others : List Rule),
      (first :: others).Pairwise (fun rule rule' =>
        rule.position < rule'.position) ∧
      (∀ rule, rule ∈ first :: others ↔
        ∃ file ∈ g.files, rule.Governs rules file) ∧
      g.patterns = (first :: others).map Rule.pattern ∧
      g.label = Label.ofPattern first.pattern) ∧
    (grouping.groups.flatMap Group.patterns).Nodup := by
  intro rules grouping
  refine ⟨fun g hg => ?_, ?_⟩
  · obtain ⟨governing, hsublist, hmem, hpatterns⟩ :=
      exists_rules_of_mem_groups hg
    obtain ⟨file, hfile, rule, hgoverns⟩ := exists_governs_of_mem_groups hg
    obtain ⟨first, others, rfl⟩ := List.exists_cons_of_ne_nil
      (List.ne_nil_of_mem ((hmem rule).2 ⟨file, hfile, hgoverns⟩))
    refine ⟨first, others, (RuleFile.pairwise_position text).sublist hsublist,
      hmem, hpatterns, ?_⟩
    rw [label_of_mem_groups hg, hpatterns]
    rfl
  · rw [List.nodup_flatMap]
    refine ⟨fun g hg => nodup_patterns_of_mem_groups hg, ?_⟩
    have hkeys : (grouping.groups.map Group.key).Pairwise (· < ·) := by
      rw [show grouping = .ofOwnerships ((ofRules rules).ownerships files)
        from rfl, Grouping.map_key_groups]
      exact isAscending_ascending _
    refine (List.pairwise_map.1 hkeys).imp_of_mem ?_
    intro g g' hg hg' hlt pattern h h'
    exact String.lt_irrefl _ (key_eq_of_mem_patterns hg hg' h h' ▸ hlt)

/-- A pattern that comes three times, and the last of them has the owner of
another group. -/
example :
    ((ofRules (RuleFile.parse
      "*.rs @a\n*.rs @b\n/src/ @b\n*.md @a\n*.rs @b\n").rules).grouping
        ["src/x.rs", "y.md", "src/z.c", "w.rs"]).groups.map
          (fun g => (g.label, g.patterns)) =
      [("md_files", ["*.md"]), ("src", ["/src/", "*.rs"])] := by
  decide

end Policy

end Signoff
