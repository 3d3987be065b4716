import Signoff.Proofs.Teams

/-!
# Requests for review

A requested team is looked up together with the teams that own files. It takes
up a slot, so those may have to wait for it, and it has an entry in the same
table. None of this reaches a verdict as long as the look-up has the time it
needs. A group asks for the teams among its own owners only, and what the table
says of these is what the directory says, whoever else was looked up along with
them (`report_of_other_requests`).
-/

namespace Signoff.Policy

/-- Two changes that differ in their requests have the same groups, files
without owners and verdicts. The tables of their teams may differ, but not in a
team that owns a group. -/
theorem report_of_other_requests [Engine] [Clock] (p : Policy) (change : Change)
    (reviewers teams : List String) {directory? directory'? : Option Directory}
    {limits limits' : Limits}
    (hdirectory : Option.Rel Directory.SaysSame directory? directory'?)
    (htimeout : limits.timeout? = none) (htimeout' : limits'.timeout? = none) :
    let other : Change := { change with reviewers := reviewers, teams := teams }
    ∃ e e', p.evaluate change directory? limits none = .ok e ∧
      p.evaluate other directory'? limits' none = .ok e' ∧
      e'.report.assessments = e.report.assessments ∧
      e'.report.unowned = e.report.unowned ∧
      e'.report.missing = e.report.missing ∧
      e'.report.isReady = e.report.isReady ∧
      ∀ a ∈ e.report.assessments, ∀ o ∈ a.group.owners, o.isTeam = true →
        ∃ status, e.report.rosters.get? o.name = some status ∧
          e'.report.rosters.get? o.name = some status := by
  intro other
  obtain ⟨hquiet, hquiet'⟩ := Directory.not_cancels hdirectory
  obtain ⟨e, he, hreport⟩ := exists_evaluate_eq p change hquiet htimeout
  obtain ⟨e', he', hreport'⟩ := exists_evaluate_eq p other hquiet' htimeout'
  rw [← Directory.statuses_eq hdirectory] at hreport'
  have hstatus : ∀ group ∈ (p.grouping change.files).groups,
      ∀ o ∈ group.owners, o.isTeam = true → ∀ requested,
        (Directory.statuses directory? ((p.grouping change.files).teams
          requested)).get? o.name =
        some (Directory.statusOf directory? o.name) := by
    intro group hgroup o ho hteam requested
    exact Directory.get?_statuses_eq_some_iff.2
      ⟨Grouping.name_mem_teams requested hgroup ho hteam, rfl⟩
  have hassessments : e'.report.assessments = e.report.assessments := by
    rw [hreport, hreport']
    refine Report.assessments_congr _ fun group hgroup o ho hteam => ?_
    rw [hstatus group hgroup o ho hteam, hstatus group hgroup o ho hteam]
  refine ⟨e, e', he, he', hassessments, ?_, ?_, ?_, ?_⟩
  · rw [hreport, hreport']
    rfl
  · rw [Report.missing, Report.pending, hassessments]
    rfl
  · rw [Report.isReady, Report.missing, Report.pending, hassessments]
    rfl
  · rw [hreport, hreport']
    intro a ha o ho hteam
    obtain ⟨group, hgroup, rfl⟩ := List.mem_map.1 ha
    exact ⟨_, hstatus group hgroup o ho hteam _,
      hstatus group hgroup o ho hteam _⟩

/-- Instead of nobody, a team is requested that owns the file, under two of its
spellings, and one that does not. -/
theorem report_of_other_requests_owning_team :
    let p := ofRules (RuleFile.parse "* @org/web @ann\n").rules
    let change : Change := ⟨["main.c"], ["@cat"], [], []⟩
    let other : Change :=
      { change with
        reviewers := ["@org/web", "bob"]
        teams := ["org/web", "org/core"] }
    let slow : Directory := fun team => .after 5 (.ok ⟨team, ["cat"]⟩) false
    let quick : Directory := fun team => .immediate (.ok ⟨team, ["cat"]⟩)
    Option.Rel Directory.SaysSame (some slow) (some quick) ∧
      ∃ e e', p.evaluate change (some slow) ⟨0, none⟩ none = .ok e ∧
        p.evaluate other (some quick) .standard none = .ok e' ∧
        e'.report.assessments = e.report.assessments ∧
        e'.report.missing = e.report.missing ∧
        e'.report.isReady = e.report.isReady := by
  intro p change other slow quick
  have hdirectory : Option.Rel Directory.SaysSame (some slow) (some quick) :=
    .some fun _ => ⟨rfl, rfl, rfl⟩
  obtain ⟨e, e', he, he', hassessments, _, hmissing, hready, _⟩ :=
    @report_of_other_requests _ _ p change ["@org/web", "bob"]
      ["org/web", "org/core"] _ _ ⟨0, none⟩ .standard hdirectory rfl rfl
  exact ⟨hdirectory, e, e', he, he', hassessments, hmissing, hready⟩

end Signoff.Policy
