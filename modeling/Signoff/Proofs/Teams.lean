import Signoff.Proofs.Completion
import Signoff.Proofs.Evaluation
import Signoff.Proofs.Partition
import Signoff.Proofs.Roster.Completeness

/-!
# The teams of a report

An evaluation goes through teams three times. It collects them from the groups
and the requests, looks up their rosters, and then asks each group for the teams
among its owners whose rosters have not turned up. The last step looks for a
team by name in what the second has left, where a team that was never looked up
would count as unknown just like one whose look-up failed.

There is no such team. A group has its owners from the rules, and mentions tell
teams by their slash, so the teams collected are those that a rule or a request
names. The look-up leaves an entry for each of them whatever happens to it, and
for nobody else. So a roster that is missing is missing for the reason that the
report gives (`teams_of_evaluate`).
-/

namespace Signoff

/-! ## The teams that are collected -/

namespace Grouping

variable {g : Grouping}

theorem mem_teams_iff {requested : List String} {team : String} :
    team ∈ g.teams requested ↔
      (∃ group ∈ g.groups, ∃ o ∈ group.owners,
        o.isTeam = true ∧ o.name = team) ∨
      '/' ∈ team.toList ∧ ∃ name ∈ requested, Owner.bareName name = team := by
  rw [teams, mem_ascending, List.mem_append]
  refine or_congr ?_ ?_
  · simp only [List.mem_flatMap, List.mem_map, Group.teamOwners,
      List.mem_filter, and_assoc]
  · simp only [List.mem_map, List.mem_filter, Function.comp_apply]
    constructor
    · intro h
      obtain ⟨o, ⟨⟨name, hname, rfl⟩, hteam⟩, rfl⟩ := h
      exact ⟨Owner.isTeam_ofName.1 hteam, name, hname, rfl⟩
    · intro h
      obtain ⟨hslash, name, hname, rfl⟩ := h
      exact ⟨_, ⟨⟨name, hname, rfl⟩, Owner.isTeam_ofName.2 hslash⟩, rfl⟩

theorem name_mem_teams {group : Group} {o : Owner} (requested : List String)
    (hgroup : group ∈ g.groups) (ho : o ∈ group.owners)
    (hteam : o.isTeam = true) : o.name ∈ g.teams requested :=
  mem_teams_iff.2 (Or.inl ⟨group, hgroup, o, ho, hteam, rfl⟩)

end Grouping

namespace Policy

variable [Engine] {text : String} {files : List String} {group : Group}

theorem isMentionable_of_mem_groups
    (hgroup : group ∈
      ((ofRules (RuleFile.parse text).rules).grouping files).groups) :
    ∀ o ∈ group.owners, o.IsMentionable := by
  intro o ho
  obtain ⟨first, hfirst, _, howners⟩ := Grouping.exists_holds hgroup
  rw [howners, mem_ascending] at ho
  exact isMentionable_of_mem_ownerships first hfirst o ho

/-- The owners of a group all have names of their own. -/
theorem nodup_map_name_owners
    (hgroup : group ∈
      ((ofRules (RuleFile.parse text).rules).grouping files).groups) :
    (group.owners.map Owner.name).Nodup := by
  have hmentioned := isMentionable_of_mem_groups hgroup
  obtain ⟨first, _, _, howners⟩ := Grouping.exists_holds hgroup
  refine List.Nodup.map_on (fun o ho o' ho' hname => ?_) ?_
  · exact (hmentioned o ho).eq_of_name_eq (hmentioned o' ho') hname
  · rw [howners]
    exact nodup_of_isAscending (isAscending_ascending _)

/-- The owners of the groups are the owners in the rules that govern the files.
-/
theorem exists_owner_of_group_iff {P : Owner → Prop} :
    (∃ group ∈ ((ofRules (RuleFile.parse text).rules).grouping files).groups,
        ∃ o ∈ group.owners, P o) ↔
      ∃ file ∈ files, ∃ rule : Rule,
        rule.Governs (RuleFile.parse text).rules file ∧
          ∃ o ∈ rule.owners, P o := by
  constructor
  · intro h
    obtain ⟨group, hgroup, o, ho, hP⟩ := h
    obtain ⟨first, hfirst, ⟨hne, _⟩, howners⟩ := Grouping.exists_holds hgroup
    obtain ⟨file, hfile, rfl⟩ := List.mem_map.1 hfirst
    obtain ⟨rule, hgoverns, hrule⟩ := exists_governs_of_owners hne
    rw [howners, mem_ascending, hrule] at ho
    exact ⟨file, hfile, rule, hgoverns, o, ho, hP⟩
  · intro h
    obtain ⟨file, hfile, rule, hgoverns, o, ho, hP⟩ := h
    have hfirst : (ofRules (RuleFile.parse text).rules).ownership file ∈
        (ofRules (RuleFile.parse text).rules).ownerships files :=
      List.mem_map_of_mem hfile
    rw [ownership_of_governs hgoverns] at hfirst
    have hne := List.ne_nil_of_mem ho
    exact ⟨_, Grouping.mem_groups_ofOwnerships_iff.2 ⟨_, hfirst, hne, rfl⟩, o,
      (Grouping.mem_owners_ofMembers_iff isMentionable_of_mem_ownerships hfirst
        hne).2 ho, hP⟩

theorem mem_teams_grouping_iff {requested : List String} {team : String} :
    team ∈ ((ofRules (RuleFile.parse text).rules).grouping files).teams
        requested ↔
      '/' ∈ team.toList ∧
        ((∃ file ∈ files, ∃ rule : Rule,
            rule.Governs (RuleFile.parse text).rules file ∧
            ∃ o ∈ rule.owners, o.name = team) ∨
          ∃ name ∈ requested, Owner.bareName name = team) := by
  rw [Grouping.mem_teams_iff, exists_owner_of_group_iff, and_or_left]
  refine or_congr_left ⟨fun h => ?_, fun h => ?_⟩
  · obtain ⟨file, hfile, rule, hgoverns, o, ho, hteam, rfl⟩ := h
    have hmentioned := (RuleFile.owners_of_mem_parse
      (mem_rules_of_governs hgoverns)).2 o ho
    exact ⟨hmentioned.isTeam_iff.1 hteam, file, hfile, rule, hgoverns, o, ho,
      rfl⟩
  · obtain ⟨hslash, file, hfile, rule, hgoverns, o, ho, rfl⟩ := h
    have hmentioned := (RuleFile.owners_of_mem_parse
      (mem_rules_of_governs hgoverns)).2 o ho
    exact ⟨file, hfile, rule, hgoverns, o, ho, hmentioned.isTeam_iff.2 hslash,
      rfl⟩

end Policy

/-! ## The teams that are looked up -/

theorem Directory.teams_of_lookUp [Clock] {directory? : Option Directory}
    {limits : Limits} {cancelAt? : Option Nat} {teams : List String}
    {resolution? : Option Resolution} (hteams : IsAscending teams)
    (h : lookUp directory? limits cancelAt? teams = .ok resolution?) :
    ((resolution?.map Resolution.table).getD
      (.withoutDirectory teams)).teams = teams := by
  cases directory? with
  | none =>
      cases h
      show (RosterTable.withoutDirectory teams).teams = teams
      rw [RosterTable.teams, RosterTable.entries_withoutDirectory hteams,
        List.map_map]
      exact List.map_id _
  | some directory =>
      rw [lookUp] at h
      cases hbounds : Resolution.Bounds.ofLimits limits cancelAt? with
      | error error =>
          rw [hbounds] at h
          cases h
      | ok b =>
          rw [hbounds] at h
          cases h
          show (Resolution.resolve b directory teams).table.teams = teams
          rw [Resolution.teams_resolve, ascending_eq_self hteams]

/-! ## The teams that are missing -/

section Missing

variable {table : RosterTable} {team : String}

/-- What a table does not know about one of its teams it has a reason for. -/
theorem RosterTable.isKnown_eq_false_iff (hteam : team ∈ table.teams) :
    table.isKnown team = false ↔
      ∃ gap, table.get? team = some (.unknown gap) := by
  obtain ⟨status, hget⟩ := mem_teams_iff.1 hteam
  rw [isKnown, members?, hget, Option.bind_some]
  cases status with
  | known members => simp [Roster.Status.members?]
  | unknown gap => simp [Roster.Status.members?]

theorem Group.unknownTeams_sublist_owners (g : Group) (table : RosterTable) :
    (g.unknownTeams table).Sublist (g.owners.map Owner.name) :=
  (List.filter_sublist.trans List.filter_sublist).map Owner.name

/-- The look-up went through all teams of the group, so each that is missing is
missing for a reason. -/
theorem Group.mem_unknownTeams_iff_exists_gap {g : Group}
    (hteams : ∀ o ∈ g.owners, o.isTeam = true → o.name ∈ table.teams) :
    team ∈ g.unknownTeams table ↔ ∃ o ∈ g.owners, o.name = team ∧
      o.isTeam = true ∧ ∃ gap, table.get? o.name = some (.unknown gap) := by
  rw [mem_unknownTeams_iff]
  refine exists_congr fun o => and_congr_right fun ho => ?_
  constructor
  · intro h
    obtain ⟨hunknown, hteam, hname⟩ := h
    exact ⟨hname, hteam,
      (RosterTable.isKnown_eq_false_iff (hteams o ho hteam)).1 hunknown⟩
  · intro h
    obtain ⟨hname, hteam, hgap⟩ := h
    exact ⟨(RosterTable.isKnown_eq_false_iff (hteams o ho hteam)).2 hgap, hteam,
      hname⟩

end Missing

/-! ## Evaluations -/

namespace Policy

variable {text : String} {change : Change} {directory? : Option Directory}
  {limits : Limits} {cancelAt? : Option Nat} {e : Evaluation}

theorem teams_report_of_evaluate [Engine] [Clock] {p : Policy}
    (h : p.evaluate change directory? limits cancelAt? = .ok e) :
    e.report.rosters.teams =
      (p.grouping change.files).teams change.requested := by
  obtain ⟨resolution?, hlook, hreport⟩ := exists_lookUp_of_evaluate h
  rw [hreport]
  exact Directory.teams_of_lookUp (Grouping.isAscending_teams _ _) hlook

/-- A report has an entry for the teams that own files by a rule or have been
requested, and for no others. The teams that a group lacks are those of its
owners that have a reason for it there, each once and in their order. -/
theorem teams_of_evaluate [Engine] [Clock]
    (h : (ofRules (RuleFile.parse text).rules).evaluate change directory? limits
      cancelAt? = .ok e) :
    (∀ team, team ∈ e.report.rosters.teams ↔ '/' ∈ team.toList ∧
      ((∃ file ∈ change.files, ∃ rule : Rule,
          rule.Governs (RuleFile.parse text).rules file ∧
          ∃ o ∈ rule.owners, o.name = team) ∨
        ∃ name ∈ change.reviewers ++ change.teams,
          Owner.bareName name = team)) ∧
    ∀ a ∈ e.report.assessments,
      a.unknownTeams.Sublist (a.group.owners.map Owner.name) ∧
      a.unknownTeams.Nodup ∧
      ∀ team, team ∈ a.unknownTeams ↔
        ∃ o ∈ a.group.owners, o.name = team ∧ o.isTeam = true ∧
          ∃ gap, e.report.rosters.get? o.name = some (.unknown gap) := by
  have hteams := teams_report_of_evaluate h
  refine ⟨fun team => ?_, fun a ha => ?_⟩
  · rw [hteams, mem_teams_grouping_iff]
    rfl
  · rw [report_of_evaluate h] at ha
    obtain ⟨group, hgroup, rfl⟩ := List.mem_map.1 ha
    have hsub := group.unknownTeams_sublist_owners e.report.rosters
    refine ⟨hsub, (nodup_map_name_owners hgroup).sublist hsub, fun team => ?_⟩
    refine Group.mem_unknownTeams_iff_exists_gap fun o ho hteam => ?_
    rw [hteams]
    exact Grouping.name_mem_teams _ hgroup ho hteam

/-- Of the two teams that are looked up one owns the file by its rule and the
other is requested. There is time for one of them, and that is the one whose
name comes first. -/
theorem teams_of_evaluate_one_in_time :
    let text := "* @org/web @ann\n/docs/ @org/docs\n"
    let change : Change :=
      ⟨["main.c"], ["ann"], ["@@org/core", "bob"], ["@carol"]⟩
    let slow : Directory := fun team => .after 5 (.ok ⟨team, ["cat"]⟩) false
    ∃ e, (ofRules (RuleFile.parse text).rules).evaluate change (some slow)
        ⟨1, some ⟨0, 7000000⟩⟩ none = .ok e ∧
      "org/web" ∈ e.report.rosters.teams ∧
      "org/core" ∈ e.report.rosters.teams ∧
      "bob" ∉ e.report.rosters.teams ∧
      e.report.rosters.get? "org/core" = some (.known ["cat"]) ∧
      e.report.rosters.get? "org/web" = some (.unknown .deadlineExceeded) ∧
      ∀ a ∈ e.report.assessments, a.unknownTeams.Nodup ∧
        ∀ team ∈ a.unknownTeams, ∃ o ∈ a.group.owners, o.name = team ∧
          o.isTeam = true ∧
          ∃ gap, e.report.rosters.get? o.name = some (.unknown gap) := by
  intro text change slow
  let limits : Limits := ⟨1, some ⟨0, 7000000⟩⟩
  have hgoverns :
      (⟨"*", [.ofName "org/web", .ofName "ann"], 0, 1⟩ : Rule).Governs
        (RuleFile.parse text).rules "main.c" :=
    governing?_ofRules_eq_some_iff.1 (by decide)
  have hclock : ∀ span ∈ limits.timeout?, Clock.Reaches span := by
    decide
  have hsought : ((ofRules (RuleFile.parse text).rules).grouping
      change.files).teams change.requested = ["org/core", "org/web"] := by
    decide
  have hreport : ∃ e, (ofRules (RuleFile.parse text).rules).evaluate change
      (some slow) limits none = .ok e ∧
      e.report.rosters.entries = [("org/core", .known ["cat"]),
        ("org/web", .unknown .deadlineExceeded)] := by
    refine ⟨_, evaluate_eq_ok (Directory.lookUp_eq_ok hclock slow none _), ?_⟩
    show (Resolution.resolve _ slow _).table.entries = _
    rw [Resolution.entries_resolve fun _ _ => rfl, hsought]
    decide
  obtain ⟨e, he, hentries⟩ := hreport
  obtain ⟨hteams, hmissing⟩ := teams_of_evaluate he
  refine ⟨e, he, (hteams _).2 ⟨by decide, Or.inl ?_⟩,
    (hteams _).2 ⟨by decide, Or.inr ?_⟩, ?_, ?_, ?_, fun a ha => ?_⟩
  · exact ⟨"main.c", by decide, _, hgoverns, .ofName "org/web", by decide, rfl⟩
  · exact ⟨"@@org/core", by decide, by decide⟩
  · intro hbob
    exact absurd ((hteams _).1 hbob).1 (by decide)
  · simp [RosterTable.get?_eq_some_iff, hentries]
  · simp [RosterTable.get?_eq_some_iff, hentries]
  · obtain ⟨_, hnodup, hgaps⟩ := hmissing a ha
    exact ⟨hnodup, fun team hteam => (hgaps team).1 hteam⟩

end Policy

end Signoff
