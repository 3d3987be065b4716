import Mathlib.Data.List.Nodup
import Signoff.CommandLine.Execution
import Signoff.Proofs.Decision
import Signoff.Proofs.Group.Patterns

/-!
# The listing and the report

The listing shows for each file all the rules that cover it, and the report
shows one group with the owners of the last of them. The two are made apart from
one another. The listing collects rules and prints what it has, while the report
goes through ownerships, keys and groups and never sees a list of rules.

They tell the same about every file (`listing_agrees_with_report`). What joins
them is that nobody owns a file just when no rule covers it: a rule that is read
from a file has owners, so a file that is covered is not left to nobody by a
rule without any. From there on a file goes by the key of its owners, and there
is one group for each key.
-/

namespace Signoff

namespace Policy

/-- What the listing says of a file that no rule covers. -/
def unownedLine (file : String) : String :=
  Text.padRight 70 file ++ "  (unowned)"

/-- All that is asked about a file is answered from the same rule, or from
none. -/
structure DecidedBy [Engine] (p : Policy) (file : String)
    (rule? : Option Rule) : Prop where
  governing?_eq : p.governing? file = rule?
  owners?_eq : p.owners? file = rule?.map Rule.owners
  ownership_eq : p.ownership file =
    ⟨file, (rule?.map Rule.owners).getD [], rule?.map Rule.pattern,
      rule?.map Rule.position⟩

variable {rules : List Rule} {rule : Rule} {text file : String}
  {files : List String}

theorem decidedBy_getLast? [Engine] (p : Policy) (file : String) :
    p.DecidedBy file (p.covering file).getLast? := by
  rw [← governing?_eq_getLast?]
  refine ⟨rfl, rfl, ?_⟩
  rw [ownership]
  cases p.governing? file <;> rfl

/-! ## What the listing says -/

theorem listingOf_of_covering_eq_nil [Engine] {p : Policy}
    (h : p.covering file = []) :
    p.listingOf file = [unownedLine file] := by
  rw [listingOf, h]
  rfl

theorem listingOf_of_covering_ne_nil [Engine] {p : Policy}
    (h : p.covering file ≠ []) :
    p.listingOf file = (p.covering file).map (listingLine file) := by
  rw [listingOf]
  split
  · next hnil => exact absurd hnil h
  · rfl

theorem padLeft_toString_eq_cons (width n : Nat) :
    ∃ c column, (Text.padLeft width (toString n)).toList = c :: column ∧
      c ≠ '(' := by
  have htoList : (Text.padLeft width (toString n)).toList =
      List.replicate (width - (toString n).length) ' ' ++
        Nat.toDigits 10 n := by
    rw [Text.padLeft, String.toList_append, String.toList_ofList,
      Nat.toString_eq_ofList_toDigits, String.toList_ofList]
  obtain ⟨c, column, hcons⟩ := List.exists_cons_of_ne_nil
    (List.append_ne_nil_of_right_ne_nil _ Nat.toDigits_ne_nil)
  rw [hcons] at htoList
  refine ⟨c, column, htoList, ?_⟩
  have hc := hcons ▸ List.mem_cons_self (a := c) (l := column)
  rcases List.mem_append.1 hc with hblank | hdigit
  · rw [List.eq_of_mem_replicate hblank]
    decide
  · intro hparen
    have hdigit := Nat.isDigit_of_mem_toDigits (by decide) (by decide) hdigit
    rw [hparen] at hdigit
    exact absurd hdigit (by decide)

/-- Where a file without a rule has a parenthesis, a rule has its line number.
-/
theorem listingLine_ne_unownedLine (file : String) (rule : Rule) :
    listingLine file rule ≠ unownedLine file := by
  intro h
  obtain ⟨c, column, hcolumn, hparen⟩ := padLeft_toString_eq_cons 4 rule.line
  have hblanks : "  (unowned)" = "  " ++ "(unowned)" := rfl
  have htail := congrArg String.toList h
  rw [listingLine, unownedLine, hblanks] at htail
  simp only [String.append_assoc, String.toList_append,
    List.append_cancel_left_eq, hcolumn, List.cons_append] at htail
  exact hparen (List.cons.inj htail).1

theorem unownedLine_mem_listingOf_iff [Engine] {p : Policy} :
    unownedLine file ∈ p.listingOf file ↔ p.covering file = [] := by
  refine ⟨fun hmem => ?_, fun hnil => ?_⟩
  · by_contra hne
    rw [listingOf_of_covering_ne_nil hne] at hmem
    obtain ⟨rule, _, heq⟩ := List.mem_map.1 hmem
    exact listingLine_ne_unownedLine file rule heq
  · rw [listingOf_of_covering_eq_nil hnil]
    exact List.mem_singleton_self _

/-! ## What the report says -/

theorem mem_unowned_grouping_iff [Engine]
    (hrules : ∀ rule ∈ rules, rule.owners ≠ []) (hfile : file ∈ files) :
    file ∈ ((ofRules rules).grouping files).unowned ↔
      (ofRules rules).covering file = [] := by
  have howners : ((ofRules rules).ownership file).owners = [] ↔
      ¬ ∃ rule : Rule, rule.Governs rules file := by
    rw [← ownership_ne_nil_iff hrules, not_not]
  rw [unowned_grouping, List.mem_filter, List.isEmpty_iff, howners,
    ← List.getLast?_eq_none_iff, ← governing?_eq_getLast?,
    Option.eq_none_iff_forall_ne_some]
  simp only [ne_eq, governing?_ofRules_eq_some_iff, not_exists, hfile, true_and]

/-- A file that a rule governs is in one group only, and the group has the
owners of the rule. -/
theorem exists_filter_groups_eq [Engine] (hfile : file ∈ files)
    (hgoverns : rule.Governs (RuleFile.parse text).rules file) :
    ∃ g, (((ofRules (RuleFile.parse text).rules).grouping files).groups.filter
        fun g => file ∈ g.files) = [g] ∧
      ∀ owner, owner ∈ g.owners ↔ owner ∈ rule.owners := by
  let all := (ofRules (RuleFile.parse text).rules).ownerships files
  have ho : (⟨file, rule.owners, some rule.pattern, some rule.position⟩ :
      Ownership) ∈ all :=
    List.mem_map.2 ⟨file, hfile, ownership_of_governs hgoverns⟩
  have hne : rule.owners ≠ [] :=
    (RuleFile.owners_of_mem_parse (mem_rules_of_governs hgoverns)).1
  have hkeys : ((Grouping.ofOwnerships all).groups.map Group.key).Nodup := by
    rw [Grouping.map_key_groups]
    exact nodup_of_isAscending (isAscending_ascending _)
  refine ⟨_, ?_, fun owner => Grouping.mem_owners_ofMembers_iff
    isMentionable_of_mem_ownerships ho hne⟩
  have hg := Grouping.mem_groups_ofOwnerships_iff.2 ⟨_, ho, hne, rfl⟩
  refine List.perm_singleton.1 ((List.perm_ext_iff_of_nodup
    ((hkeys.of_map _).filter _) (List.nodup_singleton _)).2 fun g => ?_)
  rw [List.mem_filter, decide_eq_true_iff, List.mem_singleton]
  constructor
  · intro h
    exact List.inj_on_of_nodup_map hkeys h.1 hg
      (key_of_governs h.1 h.2 hgoverns)
  · intro h
    rw [h]
    exact ⟨hg, List.mem_map_of_mem
      (Grouping.mem_membersOf_iff.2 ⟨ho, hne, rfl⟩)⟩

/-! ## Both together -/

theorem answer_of_listsRules [Engine] [Clock] {p : Policy}
    {i : CommandLine.Invocation} {s : CommandLine.Surroundings}
    (hlists : i.listsRules = true)
    (hfiles : CommandLine.changedFiles i s = .ok files) :
    i.answer p s = .ok ([], unlines (files.flatMap p.listingOf)) := by
  rw [CommandLine.Invocation.answer, hfiles]
  simp only [hlists]
  rfl

/-- The rules that cover a file are the rules whose patterns do, in order, and
the last of them decides. The listing leaves a file to nobody just when the
report does. It has a line for each rule that covers any other file, and the
owners of the last of these are the owners of the only group that the report has
the file in. -/
theorem listing_agrees_with_report [Engine] [Clock] {change : Change}
    {directory? : Option Directory} {limits : Limits} {cancelAt? : Option Nat}
    {e : Evaluation}
    (h : (ofRules (RuleFile.parse text).rules).evaluate change directory? limits
      cancelAt? = .ok e) :
    let rules := (RuleFile.parse text).rules
    let policy := ofRules rules
    (∀ file,
      policy.covering file = (rules.filter fun rule => rule.Covers file) ∧
      policy.DecidedBy file (policy.covering file).getLast?) ∧
    (∀ (i : CommandLine.Invocation) (s : CommandLine.Surroundings),
      i.listsRules = true → CommandLine.changedFiles i s = .ok change.files →
      i.answer policy s =
        .ok ([], unlines (change.files.flatMap policy.listingOf))) ∧
    ∀ file ∈ change.files,
      (unownedLine file ∈ policy.listingOf file ↔ file ∈ e.report.unowned) ∧
      (file ∈ e.report.unowned → policy.listingOf file = [unownedLine file] ∧
        ∀ a ∈ e.report.assessments, file ∉ a.group.files) ∧
      (file ∉ e.report.unowned →
        policy.listingOf file =
          (policy.covering file).map (listingLine file) ∧
        ∃ rule, (policy.covering file).getLast? = some rule ∧
          ∃ a, (e.report.assessments.filter fun a => file ∈ a.group.files) =
              [a] ∧
            ∀ owner, owner ∈ a.group.owners ↔ owner ∈ rule.owners) := by
  intro rules policy
  have hrules : ∀ rule ∈ rules, rule.owners ≠ [] :=
    fun rule hrule => (RuleFile.owners_of_mem_parse hrule).1
  have hreport := report_of_evaluate h
  have hunowned : e.report.unowned =
      (policy.grouping change.files).unowned := by
    rw [hreport]
    rfl
  have hgroups : e.report.assessments.map Assessment.group =
      (policy.grouping change.files).groups := by
    rw [hreport, Report.map_group_ofGrouping]
  refine ⟨fun file => ⟨covering_ofRules rules file,
    decidedBy_getLast? policy file⟩, fun i s => answer_of_listsRules, ?_⟩
  intro file hfile
  have hnobody : file ∈ e.report.unowned ↔ policy.covering file = [] := by
    rw [hunowned]
    exact mem_unowned_grouping_iff hrules hfile
  refine ⟨?_, fun howned => ?_, fun howned => ?_⟩
  · rw [hnobody, unownedLine_mem_listingOf_iff]
  · have hnil := hnobody.1 howned
    refine ⟨listingOf_of_covering_eq_nil hnil, fun a ha hmem => ?_⟩
    have hg := List.mem_map_of_mem (f := Assessment.group) ha
    rw [hgroups] at hg
    refine (holds_of_mem_files hg hmem).1 ?_
    rw [(decidedBy_getLast? policy file).ownership_eq, hnil]
    rfl
  · have hne : policy.covering file ≠ [] := fun hnil => howned (hnobody.2 hnil)
    have hlast := List.getLast?_eq_some_getLast hne
    refine ⟨listingOf_of_covering_ne_nil hne, _, hlast, ?_⟩
    rw [← governing?_eq_getLast?] at hlast
    obtain ⟨g, hg, howners⟩ := exists_filter_groups_eq hfile
      (governing?_ofRules_eq_some_iff.1 hlast)
    have hmap : (e.report.assessments.filter fun a =>
        file ∈ a.group.files).map Assessment.group = [g] := by
      rw [← hg, ← hgroups, List.filter_map]
      rfl
    obtain ⟨a, ha, hag⟩ := List.map_eq_singleton_iff.1 hmap
    refine ⟨a, ha, ?_⟩
    rw [hag]
    exact howners

/-- Two files as arguments, of which one is covered by two rules and the other
by none. -/
theorem listing_agrees_with_report_arguments :
    let policy := ofRules
      (RuleFile.parse "/docs/ @org/docs\n*.md @bob @ann\n").rules
    let change : Change := ⟨["docs/a.md", "x"], [], [], []⟩
    let i : CommandLine.Invocation :=
      ⟨["./docs/a.md", "x"], none, none, [], [], none, 8, none, .text, true, 0⟩
    let s : CommandLine.Surroundings :=
      ⟨fun _ => .file (.error .notFound), fun _ => none, .empty⟩
    ∃ e, policy.evaluate change none .standard none = .ok e ∧
      i.answer policy s =
        .ok ([], unlines (change.files.flatMap policy.listingOf)) ∧
      "x" ∈ e.report.unowned ∧ unownedLine "x" ∈ policy.listingOf "x" ∧
      "docs/a.md" ∉ e.report.unowned ∧
      ∃ rule, (policy.covering "docs/a.md").getLast? = some rule ∧
        ∃ a, (e.report.assessments.filter fun a =>
            "docs/a.md" ∈ a.group.files) = [a] ∧
          ∀ owner, owner ∈ a.group.owners ↔ owner ∈ rule.owners := by
  intro policy change i s
  have hevaluate : ∃ e, policy.evaluate change none .standard none = .ok e ∧
      e.report.unowned = ["x"] := ⟨_, rfl, by decide⟩
  obtain ⟨e, he, hunowned⟩ := hevaluate
  obtain ⟨_, hanswer, hfiles⟩ := listing_agrees_with_report he
  have hx : "x" ∈ e.report.unowned := by
    rw [hunowned]
    decide
  have hdocs : "docs/a.md" ∉ e.report.unowned := by
    rw [hunowned]
    decide
  have hlisting := hfiles "docs/a.md" (by decide)
  exact ⟨e, he, hanswer i s rfl rfl, hx, (hfiles "x" (by decide)).1.2 hx, hdocs,
    (hlisting.2.2 hdocs).2⟩

end Policy

end Signoff
