import Mathlib.Data.List.Forall2
import Signoff.Proofs.Evaluation

/-!
# Inputs in another order

A group takes its owners from whichever of its files comes first, and a pattern
from whichever file is the first under its rule. Neither shows in a report. The
files of a group all have the same owners, which are then listed by name, and a
rule has one pattern, which is listed by the place of the rule. So if files are
given in another order, the groups are the same and stand in the same order, and
only the files inside are rearranged (`alike_ofOwnerships`).

Approvals and requests are only ever searched, and the teams are looked up in an
order of their own. With nothing to cut the look-up short it makes no difference
how long each takes or how many are asked about at a time. Altogether, reports
on reordered inputs are alike (`report_alike_of_reordered`).
-/

namespace Signoff

namespace Group

/-! ## Patterns by place -/

variable {members members' : List Ownership}

/-- Wherever a place comes up, it comes with the same pattern. -/
def IsPlaced (members : List Ownership) : Prop :=
  ∀ e ∈ governing members, ∀ e' ∈ governing members, e.1 = e'.1 → e = e'

theorem IsPlaced.of_subset (h : IsPlaced members) (hsub : members' ⊆ members) :
    IsPlaced members' :=
  fun e he e' he' => h e (List.filterMap_subset _ hsub he) e'
    (List.filterMap_subset _ hsub he')

theorem patternsOf_perm (hperm : members.Perm members')
    (hplaced : IsPlaced members) :
    patternsOf members = patternsOf members' := by
  have hplaces : (governing members).Perm (governing members') :=
    hperm.filterMap _
  have hplaced' := hplaced.of_subset hperm.symm.subset
  simp only [patternsOf]
  rw [ascending_congr fun place => (hplaces.map Prod.fst).mem_iff]
  refine List.filterMap_congr fun place _ => Option.ext fun pattern => ?_
  rw [lookup_eq_some_iff_mem hplaced, lookup_eq_some_iff_mem hplaced',
    hplaces.mem_iff]

/-! ## Groups -/

/-- The groups are the same but for the order of their files. -/
structure Alike (g g' : Group) : Prop where
  key : g.key = g'.key
  label : g.label = g'.label
  owners : g.owners = g'.owners
  files : g.files.Perm g'.files
  patterns : g.patterns = g'.patterns

theorem alike_ofMembers (key : String) (hperm : members.Perm members')
    (howners : ∀ o ∈ members, ∀ o' ∈ members,
      ascending o.owners = ascending o'.owners)
    (hplaced : IsPlaced members) :
    (ofMembers key members).Alike (ofMembers key members') := by
  have hpatterns := patternsOf_perm hperm hplaced
  refine ⟨rfl, ?_, ?_, hperm.map _, hpatterns⟩
  · simp only [ofMembers]
    rw [hpatterns]
  · by_cases hne : members = []
    · rw [hne, List.nil_perm] at hperm
      rw [hne, hperm]
    · have hne' : members' ≠ [] :=
        fun hnil => hne (List.perm_nil.1 (hnil ▸ hperm))
      obtain ⟨first, hfirst, heq⟩ := exists_owners_ofMembers key hne
      obtain ⟨first', hfirst', heq'⟩ := exists_owners_ofMembers key hne'
      rw [heq, heq']
      exact howners first hfirst first' (hperm.mem_iff.2 hfirst')

end Group

namespace Grouping

variable {all all' : List Ownership} {g g' : Grouping}
  {requested requested' : List String}

/-- The groups are alike and in the same order, and the files without owners
are the same in some order. -/
structure Alike (g g' : Grouping) : Prop where
  groups : List.Forall₂ Group.Alike g.groups g'.groups
  unowned : g.unowned.Perm g'.unowned

theorem ascending_owners_eq
    (hall : ∀ o ∈ all, ∀ owner ∈ o.owners, owner.IsMentionable) {key : String} :
    ∀ o ∈ membersOf all key, ∀ o' ∈ membersOf all key,
      ascending o.owners = ascending o'.owners := by
  intro o ho o' ho'
  obtain ⟨ho, hne, hkey⟩ := mem_membersOf_iff.1 ho
  obtain ⟨ho', hne', hkey'⟩ := mem_membersOf_iff.1 ho'
  have hsame := hkey.trans hkey'.symm
  refine ascending_congr fun owner => ⟨?_, ?_⟩
  · exact mem_of_ownersKey_eq hne hne' (hall o ho) (hall o' ho') hsame
  · exact mem_of_ownersKey_eq hne' hne (hall o' ho') (hall o ho) hsame.symm

theorem alike_ofOwnerships (hperm : all.Perm all')
    (hall : ∀ o ∈ all, ∀ owner ∈ o.owners, owner.IsMentionable)
    (hplaced : Group.IsPlaced all) :
    (ofOwnerships all).Alike (ofOwnerships all') := by
  have hunowned :
      (ofOwnerships all).unowned.Perm (ofOwnerships all').unowned := by
    rw [unowned_ofOwnerships, unowned_ofOwnerships]
    exact (hperm.filter _).map _
  refine ⟨?_, hunowned⟩
  have hkeys : ascending (keysOf all) = ascending (keysOf all') :=
    ascending_congr fun _ => ((hperm.filter _).map _).mem_iff
  rw [groups_ofOwnerships, groups_ofOwnerships, hkeys,
    List.forall₂_map_left_iff, List.forall₂_map_right_iff, List.forall₂_same]
  intro key _
  exact Group.alike_ofMembers key (hperm.filter _) (ascending_owners_eq hall)
    (hplaced.of_subset List.filter_sublist.subset)

theorem Alike.map_owners (h : g.Alike g') :
    g.groups.map Group.owners = g'.groups.map Group.owners := by
  rw [← List.forall₂_eq_eq_eq, List.forall₂_map_left_iff,
    List.forall₂_map_right_iff]
  exact h.groups.imp fun _ _ halike => halike.owners

theorem Alike.teams_eq (h : g.Alike g')
    (hrequested : ∀ name, name ∈ requested ↔ name ∈ requested') :
    g.teams requested = g'.teams requested' := by
  have hteams : ∀ g : Grouping,
      g.groups.flatMap (fun group => group.teamOwners.map Owner.name) =
        (g.groups.map Group.owners).flatMap fun owners =>
          (owners.filter Owner.isTeam).map Owner.name := by
    intro g
    rw [List.flatMap_map]
    rfl
  refine ascending_congr fun team => ?_
  simp only [List.mem_append, hteams, h.map_owners, List.mem_map,
    List.mem_filter, hrequested]

end Grouping

/-! ## Reports -/

/-- The verdicts are the same, about groups that are alike. -/
structure Assessment.Alike (a a' : Assessment) : Prop where
  group : a.group.Alike a'.group
  verdict : a.verdict = a'.verdict
  unknownTeams : a.unknownTeams = a'.unknownTeams

namespace Report

/-- The reports are the same but for the order of files in each group and of the
files without owners. -/
structure Alike (r r' : Report) : Prop where
  assessments : List.Forall₂ Assessment.Alike r.assessments r'.assessments
  unowned : r.unowned.Perm r'.unowned
  rosters : r.rosters = r'.rosters

variable {r r' : Report}

theorem alike_ofGrouping {g g' : Grouping} {approvals approvals' : List String}
    (hg : g.Alike g') (happrovers : ∀ name,
      name ∈ approvers approvals ↔ name ∈ approvers approvals')
    (rosters : RosterTable) :
    (ofGrouping g approvals rosters).Alike
      (ofGrouping g' approvals' rosters) := by
  refine ⟨?_, hg.unowned, rfl⟩
  rw [ofGrouping, ofGrouping, List.forall₂_map_left_iff,
    List.forall₂_map_right_iff]
  refine hg.groups.imp fun group group' h => ⟨h, ?_, ?_⟩
  · exact Group.verdict_congr h.owners happrovers fun _ _ _ => rfl
  · exact Group.unknownTeams_congr h.owners fun _ _ _ => rfl

theorem Alike.missing_eq (h : r.Alike r') : r.missing = r'.missing := by
  refine List.Forall₂.length_eq (R := Assessment.Alike)
    (List.rel_filter ?_ h.assessments)
  intro a a' halike
  simp only [Assessment.isSatisfied, halike.verdict]

theorem Alike.isReady_eq (h : r.Alike r') : r.isReady = r'.isReady := by
  have hlength := h.assessments.length_eq
  rw [isReady, isReady, h.missing_eq, Bool.eq_iff_iff]
  simp only [Bool.and_eq_true, Bool.not_eq_true', List.isEmpty_eq_false_iff,
    ← List.length_pos_iff, hlength]

end Report

/-! ## Evaluations -/

namespace Policy

variable {text : String}

/-- What is known of the rules behind some ownerships is known from the rules
that govern their files. -/
theorem mem_governing_iff [Engine] {rules : List Rule} {files : List String}
    {members : List Ownership} {e : Nat × String}
    (hmembers : members ⊆ (ofRules rules).ownerships files) :
    e ∈ Group.governing members ↔
      ∃ file ∈ members.map Ownership.file, ∃ rule : Rule,
        rule.Governs rules file ∧ e = (rule.position, rule.pattern) := by
  constructor
  · intro h
    obtain ⟨o, ho, hgoverning⟩ := List.mem_filterMap.1 h
    obtain ⟨file, _, rfl⟩ := List.mem_map.1 (hmembers ho)
    refine ⟨file, List.mem_map.2 ⟨_, ho, file_ownership _ file⟩, ?_⟩
    cases hrule : (ofRules rules).governing? file with
    | none => simp [ownership, hrule] at hgoverning
    | some rule =>
        have hgoverns := governing?_ofRules_eq_some_iff.1 hrule
        rw [ownership_of_governs hgoverns] at hgoverning
        exact ⟨rule, hgoverns, (Option.some.inj hgoverning).symm⟩
  · intro h
    obtain ⟨_, hfile, rule, hgoverns, rfl⟩ := h
    obtain ⟨o, ho, rfl⟩ := List.mem_map.1 hfile
    obtain ⟨file, _, rfl⟩ := List.mem_map.1 (hmembers ho)
    rw [file_ownership] at hgoverns
    refine List.mem_filterMap.2 ⟨_, ho, ?_⟩
    rw [ownership_of_governs hgoverns]
    rfl

theorem exists_rule_of_mem_governing [Engine] {rules : List Rule}
    {files : List String} {e : Nat × String}
    (he : e ∈ Group.governing ((ofRules rules).ownerships files)) :
    ∃ rule ∈ rules, e = (rule.position, rule.pattern) := by
  obtain ⟨_, _, rule, hgoverns, heq⟩ :=
    (mem_governing_iff (List.Subset.refl _)).1 he
  exact ⟨rule, mem_rules_of_governs hgoverns, heq⟩

theorem isPlaced_ownerships [Engine] (text : String) (files : List String) :
    Group.IsPlaced
      ((ofRules (RuleFile.parse text).rules).ownerships files) := by
  intro e he e' he' hplace
  obtain ⟨rule, hrule, rfl⟩ := exists_rule_of_mem_governing he
  obtain ⟨rule', hrule', rfl⟩ := exists_rule_of_mem_governing he'
  rw [RuleFile.eq_of_position_eq hrule hrule' hplace]

/-- Neither the order of the files makes a difference, nor the order and the
repetitions of approvals and requests, nor how fast a directory answers. -/
theorem report_alike_of_reordered [Engine] [Clock] {change change' : Change}
    {directory? directory'? : Option Directory} {limits limits' : Limits}
    (hfiles : change.files.Perm change'.files)
    (happrovers : ∀ name, name ∈ approvers change.approvals ↔
      name ∈ approvers change'.approvals)
    (hrequested : ∀ name, name ∈ change.requested ↔ name ∈ change'.requested)
    (hdirectory : Option.Rel Directory.SaysSame directory? directory'?)
    (htimeout : limits.timeout? = none) (htimeout' : limits'.timeout? = none) :
    let policy := ofRules (RuleFile.parse text).rules
    ∃ e e', policy.evaluate change directory? limits none = .ok e ∧
      policy.evaluate change' directory'? limits' none = .ok e' ∧
      e.report.Alike e'.report ∧
      e.report.missing = e'.report.missing ∧
      e.report.isReady = e'.report.isReady := by
  intro policy
  have hgrouping : (policy.grouping change.files).Alike
      (policy.grouping change'.files) :=
    Grouping.alike_ofOwnerships (hfiles.map _) isMentionable_of_mem_ownerships
      (isPlaced_ownerships text change.files)
  obtain ⟨resolution?, resolution'?, hlook, hlook', htable⟩ :=
    Directory.table_lookUp_eq hdirectory htimeout htimeout'
      ((policy.grouping change.files).teams change.requested)
  have hteams := hgrouping.teams_eq hrequested
  refine ⟨_, _, evaluate_eq_ok hlook, evaluate_eq_ok (hteams ▸ hlook'), ?_⟩
  rw [← hteams, ← htable]
  have halike := Report.alike_ofGrouping hgrouping happrovers
    ((resolution?.map Resolution.table).getD (.withoutDirectory
      ((policy.grouping change.files).teams change.requested)))
  exact ⟨halike, halike.missing_eq, halike.isReady_eq⟩

/-- Three files in another order, an approval and a request that come up twice
the other time, and a directory that is slow the first time. -/
theorem report_alike_of_reordered_three_files :
    let text := "* @org/web @ann\n/docs/ @ann @org/web\n/lib/ @bob\n"
    let change : Change :=
      ⟨["docs/a.md", "main.c", "lib/x"], ["", "@cat"], ["org/core"], []⟩
    let change' : Change :=
      ⟨["main.c", "lib/x", "docs/a.md"], ["cat", "@@cat"], [],
        ["org/core", "org/core"]⟩
    let slow : Directory := fun team => .after 5 (.ok ⟨team, ["cat"]⟩) false
    let quick : Directory := fun team => .immediate (.ok ⟨team, ["cat"]⟩)
    let policy := ofRules (RuleFile.parse text).rules
    change.files.Perm change'.files ∧
      (∀ name, name ∈ approvers change.approvals ↔
        name ∈ approvers change'.approvals) ∧
      (∀ name, name ∈ change.requested ↔ name ∈ change'.requested) ∧
      Option.Rel Directory.SaysSame (some slow) (some quick) ∧
      ∃ e e', policy.evaluate change (some slow) ⟨0, none⟩ none = .ok e ∧
        policy.evaluate change' (some quick) .standard none = .ok e' ∧
        e.report.Alike e'.report ∧
        e.report.missing = e'.report.missing ∧
        e.report.isReady = e'.report.isReady := by
  intro text change change' slow quick policy
  have hfiles : change.files.Perm change'.files := by
    decide
  have happrovers : ∀ name, name ∈ approvers change.approvals ↔
      name ∈ approvers change'.approvals := by
    have hfirst : approvers change.approvals = ["cat"] := by decide
    have hsecond : approvers change'.approvals = ["cat", "cat"] := by decide
    simp [hfirst, hsecond]
  have hrequested :
      ∀ name, name ∈ change.requested ↔ name ∈ change'.requested := by
    simp [change, change', Change.requested]
  have hdirectory : Option.Rel Directory.SaysSame (some slow) (some quick) :=
    .some fun _ => ⟨rfl, rfl, rfl⟩
  exact ⟨hfiles, happrovers, hrequested, hdirectory,
    report_alike_of_reordered hfiles happrovers hrequested hdirectory rfl rfl⟩

end Policy

end Signoff
