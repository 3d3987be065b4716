import Signoff.Evaluation
import Signoff.Proofs.Group
import Signoff.Proofs.Policy
import Signoff.Proofs.Roster.Statuses
import Signoff.Proofs.RuleFile
import Signoff.Proofs.Verdict

/-!
# What it takes for a change to be ready

An evaluation sorts the files of a change into groups and judges these. None of
that shows in what it finds out: each file with a governing rule needs an
approver who speaks for one of the owners in that rule, and there has to be such
a file (`isReady_evaluate_iff`).

Rules that were read from a file have owners, so a file has a governing rule
just when it is in a group. The groups themselves drop out because a file has
the owners of its group.
-/

namespace Signoff.Policy

variable {rules : List Rule} {rule : Rule} {text path : String}

theorem evaluate_eq_ok [Engine] [Clock] {p : Policy} {change : Change}
    {directory? : Option Directory} {limits : Limits} {cancelAt? : Option Nat}
    {resolution? : Option Resolution}
    (hlook : Directory.lookUp directory? limits cancelAt?
      ((p.grouping change.files).teams change.requested) = .ok resolution?) :
    p.evaluate change directory? limits cancelAt? =
      .ok ⟨.ofGrouping (p.grouping change.files) change.approvals
        ((resolution?.map Resolution.table).getD (.withoutDirectory
          ((p.grouping change.files).teams change.requested))),
        resolution?⟩ := by
  simp only [evaluate, hlook]
  rfl

theorem exists_lookUp_of_evaluate [Engine] [Clock] {p : Policy}
    {change : Change} {directory? : Option Directory} {limits : Limits}
    {cancelAt? : Option Nat} {e : Evaluation}
    (h : p.evaluate change directory? limits cancelAt? = .ok e) :
    ∃ resolution?, Directory.lookUp directory? limits cancelAt?
        ((p.grouping change.files).teams change.requested) = .ok resolution? ∧
      e.report = .ofGrouping (p.grouping change.files) change.approvals
        ((resolution?.map Resolution.table).getD (.withoutDirectory
          ((p.grouping change.files).teams change.requested))) := by
  simp only [evaluate] at h
  cases hlook : Directory.lookUp directory? limits cancelAt?
      ((p.grouping change.files).teams change.requested) with
  | error error =>
      rw [hlook] at h
      cases h
  | ok resolution? =>
      rw [hlook] at h
      cases h
      exact ⟨resolution?, rfl, rfl⟩

theorem report_of_evaluate [Engine] [Clock] {p : Policy} {change : Change}
    {directory? : Option Directory} {limits : Limits} {cancelAt? : Option Nat}
    {e : Evaluation}
    (h : p.evaluate change directory? limits cancelAt? = .ok e) :
    e.report = .ofGrouping (p.grouping change.files) change.approvals
      e.report.rosters := by
  obtain ⟨resolution?, _, hreport⟩ := exists_lookUp_of_evaluate h
  rw [hreport]
  rfl

/-- The report that comes of an evaluation with all the time it needs. -/
theorem exists_evaluate_eq [Engine] [Clock] (p : Policy) (change : Change)
    {directory? : Option Directory} {limits : Limits}
    (hquiet : ∀ directory ∈ directory?, ∀ team,
      (directory team).cancels = false)
    (htimeout : limits.timeout? = none) :
    ∃ e, p.evaluate change directory? limits none = .ok e ∧
      e.report = .ofGrouping (p.grouping change.files) change.approvals
        (Directory.statuses directory?
          ((p.grouping change.files).teams change.requested)) := by
  obtain ⟨resolution?, hlook, htable⟩ :=
    Directory.exists_lookUp_eq_statuses hquiet htimeout
      ((p.grouping change.files).isAscending_teams change.requested)
  refine ⟨_, evaluate_eq_ok hlook, ?_⟩
  rw [htable]

/-! ## Files and the rules of a file -/

theorem unowned_grouping [Engine] (p : Policy) (files : List String) :
    (p.grouping files).unowned =
      files.filter fun file => (p.ownership file).owners.isEmpty := by
  rw [grouping, Grouping.unowned_ofOwnerships, ownerships, List.filter_map,
    List.map_map]
  conv_rhs => rw [← List.map_id (files.filter _)]
  exact List.map_congr_left fun file _ => p.file_ownership file

section Rules

variable [Engine] (hrules : ∀ rule ∈ rules, rule.owners ≠ [])

include hrules

theorem ownership_ne_nil_iff :
    ((ofRules rules).ownership path).owners ≠ [] ↔
      ∃ rule : Rule, rule.Governs rules path := by
  constructor
  · intro h
    obtain ⟨rule, hgoverns, _⟩ := exists_governs_of_owners h
    exact ⟨rule, hgoverns⟩
  · intro h
    obtain ⟨rule, hgoverns⟩ := h
    rw [ownership_of_governs hgoverns]
    exact hrules rule (mem_rules_of_governs hgoverns)

theorem exists_owner_iff {P : Owner → Prop} :
    (((ofRules rules).ownership path).owners ≠ [] →
        ∃ o ∈ ((ofRules rules).ownership path).owners, P o) ↔
      ∀ rule : Rule, rule.Governs rules path → ∃ o ∈ rule.owners, P o := by
  constructor
  · intro h rule hgoverns
    rw [ownership_of_governs hgoverns] at h
    exact h (hrules rule (mem_rules_of_governs hgoverns))
  · intro h hne
    obtain ⟨rule, hgoverns, howners⟩ := exists_governs_of_owners hne
    rw [howners]
    exact h rule hgoverns

end Rules

theorem isMentionable_of_mem_ownerships [Engine] {files : List String} :
    ∀ o ∈ (ofRules (RuleFile.parse text).rules).ownerships files,
      ∀ owner ∈ o.owners, owner.IsMentionable := by
  intro o ho owner howner
  obtain ⟨file, _, rfl⟩ := List.mem_map.1 ho
  obtain ⟨rule, hgoverns, heq⟩ :=
    exists_governs_of_owners (List.ne_nil_of_mem howner)
  have hmentioned :=
    (RuleFile.owners_of_mem_parse (mem_rules_of_governs hgoverns)).2
  rw [heq] at howner
  exact hmentioned owner howner

/-! ## Readiness -/

/-- A change is ready if a rule governs one of its files at all, and for each
rule that governs one of its files an approval speaks for one of the owners. -/
theorem isReady_evaluate_iff [Engine] [Clock] {change : Change}
    {directory? : Option Directory} {limits : Limits} {cancelAt? : Option Nat}
    {e : Evaluation}
    (h : (ofRules (RuleFile.parse text).rules).evaluate change directory? limits
      cancelAt? = .ok e) :
    e.report.isReady = true ↔
      (∃ file ∈ change.files, ∃ rule : Rule,
        rule.Governs (RuleFile.parse text).rules file) ∧
      ∀ file ∈ change.files, ∀ rule : Rule,
        rule.Governs (RuleFile.parse text).rules file →
        ∃ approval ∈ change.approvals, Owner.bareName approval ≠ "" ∧
          ∃ o ∈ rule.owners,
            o.SpokenForBy (Owner.bareName approval) e.report.rosters := by
  have hrules : ∀ rule ∈ (RuleFile.parse text).rules, rule.owners ≠ [] :=
    fun rule hrule => (RuleFile.owners_of_mem_parse hrule).1
  have hready : e.report.isReady = true ↔ (Report.ofGrouping
      ((ofRules (RuleFile.parse text).rules).grouping change.files)
      change.approvals e.report.rosters).isReady = true := by
    rw [← report_of_evaluate h]
  rw [hready, Report.isReady_ofGrouping_iff, grouping,
    Grouping.forall_groups_ofOwnerships_iff isMentionable_of_mem_ownerships,
    Grouping.groups_ofOwnerships_ne_nil_iff]
  refine and_congr ?_ ?_
  · constructor
    · intro hsome
      obtain ⟨o, ho, hne⟩ := hsome
      obtain ⟨file, hfile, rfl⟩ := List.mem_map.1 ho
      exact ⟨file, hfile, (ownership_ne_nil_iff hrules).1 hne⟩
    · intro hsome
      obtain ⟨file, hfile, hrule⟩ := hsome
      have hne := (ownership_ne_nil_iff hrules).2 hrule
      exact ⟨_, List.mem_map_of_mem hfile, hne⟩
  · simp only [ownerships, List.forall_mem_map, exists_owner_iff hrules,
      exists_approver_iff]
    refine forall₂_congr fun file _ => forall₂_congr fun rule _ => ?_
    constructor
    · intro hsome
      obtain ⟨o, ho, approval, happroval, hname, hspeaks⟩ := hsome
      exact ⟨approval, happroval, hname, o, ho, hspeaks⟩
    · intro hsome
      obtain ⟨approval, happroval, hname, o, ho, hspeaks⟩ := hsome
      exact ⟨o, ho, approval, happroval, hname, hspeaks⟩

/-- Two rules, a file under each, and an approval for each of the two. -/
theorem isReady_evaluate_two_files :
    let text := "* @ann\n/docs/ @org/docs @bob  # last\n"
    let change : Change :=
      ⟨["src/main.c", "docs/a.md"], ["@@bob", "ann"], [], []⟩
    ∃ e, (ofRules (RuleFile.parse text).rules).evaluate change none .standard
        none = .ok e ∧
      e.report.isReady = true ∧
      ((∃ file ∈ change.files, ∃ rule : Rule,
        rule.Governs (RuleFile.parse text).rules file) ∧
      ∀ file ∈ change.files, ∀ rule : Rule,
        rule.Governs (RuleFile.parse text).rules file →
        ∃ approval ∈ change.approvals, Owner.bareName approval ≠ "" ∧
          ∃ o ∈ rule.owners,
            o.SpokenForBy (Owner.bareName approval) e.report.rosters) := by
  intro text change
  have hready : ∃ e, (ofRules (RuleFile.parse text).rules).evaluate change none
      .standard none = .ok e ∧ e.report.isReady = true := ⟨_, rfl, by decide⟩
  obtain ⟨e, he, hready⟩ := hready
  exact ⟨e, he, hready, (isReady_evaluate_iff he).1 hready⟩

end Signoff.Policy
