import Signoff.Proofs.Monotone

/-!
# Verdicts and rosters to come

A table of rosters may not know every team that a report needs. Whatever is
found out about the others, a verdict can change in one way only: a group that
is pending can turn out to be satisfied. It does so only if it has a team that
is not known, and then it does indeed if the right roster turns up, as long as
anybody has approved at all (`verdicts_of_completions`). So the uncertain groups
of a report are those that it may be wrong about.

A team counts as not known when the table has no entry for it, just as when it
has one that says why there is no roster. A completion may put anything in
either place.
-/

namespace Signoff

namespace RosterTable

variable {table table' : RosterTable} {team : String}

/-- The table knows the members of all teams that the other one knows, and they
are the same. -/
def Completes (table' table : RosterTable) : Prop :=
  ∀ team members, table.get? team = some (.known members) →
    table'.get? team = some (.known members)

theorem Completes.extends (h : table'.Completes table) : table'.Extends table :=
  fun team members hget => ⟨members, h team members hget, fun _ => id⟩

theorem completes_insert (hunknown : table.isKnown team = false)
    (status : Roster.Status) : (table.insert team status).Completes table := by
  intro other members hget
  have hne : other ≠ team := by
    intro heq
    rw [heq] at hget
    rw [isKnown_iff.2 ⟨members, hget⟩] at hunknown
    cases hunknown
  rw [get?_insert, if_neg hne]
  exact hget

end RosterTable

variable {table table' : RosterTable} {approver approval : String} {o : Owner}
  {g : Grouping} {group : Group} {approvals : List String}

/-! ## One owner -/

/-- No completion has more members for a team that is known. -/
theorem Owner.SpokenForBy.of_isKnown (hspeaks : o.SpokenForBy approver table')
    (hcompletes : table'.Completes table)
    (hknown : o.isTeam = true → table.isKnown o.name = true) :
    o.SpokenForBy approver table := by
  rcases hspeaks with hname | ⟨hteam, members', hget', hmember⟩
  · exact Or.inl hname
  · obtain ⟨members, hget⟩ := RosterTable.isKnown_iff.1 (hknown hteam)
    have heq := hcompletes _ _ hget
    rw [hget', Option.some.injEq, Roster.Status.known.injEq] at heq
    exact Or.inr ⟨hteam, members, hget, heq ▸ hmember⟩

/-! ## One group -/

theorem Group.mem_unknownTeams_iff {team : String} :
    team ∈ group.unknownTeams table ↔ ∃ o ∈ group.owners,
      table.isKnown o.name = false ∧ o.isTeam = true ∧ o.name = team := by
  simp [unknownTeams, teamOwners, and_assoc]

theorem Group.IsServedBy.of_completes
    (hserved : group.IsServedBy table approval)
    (hcompletes : table'.Completes table) :
    group.IsServedBy table' approval := by
  obtain ⟨hname, o, ho, hspeaks⟩ := hserved
  exact ⟨hname, o, ho, hspeaks.of_extends hcompletes.extends⟩

theorem Group.IsServedBy.of_certain (hserved : group.IsServedBy table' approval)
    (hcompletes : table'.Completes table)
    (hcertain : group.unknownTeams table = []) :
    group.IsServedBy table approval := by
  obtain ⟨hname, o, ho, hspeaks⟩ := hserved
  refine ⟨hname, o, ho, hspeaks.of_isKnown hcompletes fun hteam => ?_⟩
  cases hknown : table.isKnown o.name with
  | true => rfl
  | false =>
      have hmem := Group.mem_unknownTeams_iff.2 ⟨o, ho, hknown, hteam, rfl⟩
      rw [hcertain] at hmem
      cases hmem

/-- A team that is not known may have anybody for a member. -/
theorem Group.exists_completes_isServedBy
    (huncertain : group.unknownTeams table ≠ [])
    (hname : Owner.bareName approval ≠ "") :
    ∃ table' : RosterTable, table'.Completes table ∧
      group.IsServedBy table' approval := by
  obtain ⟨team, hmem⟩ := List.exists_mem_of_ne_nil _ huncertain
  obtain ⟨o, ho, hunknown, hteam, _⟩ := mem_unknownTeams_iff.1 hmem
  refine ⟨table.insert o.name (.known [Owner.bareName approval]),
    RosterTable.completes_insert hunknown _, hname, o, ho,
    Or.inr ⟨hteam, _, ?_, List.mem_singleton_self _⟩⟩
  rw [RosterTable.get?_insert, if_pos rfl]

/-! ## All groups -/

namespace Report

/-- The groups that have the approval they need. -/
def satisfied (r : Report) : List Assessment :=
  r.assessments.filter Assessment.isSatisfied

theorem mem_groups_satisfied_iff :
    group ∈ (ofGrouping g approvals table).satisfied.map Assessment.group ↔
      group ∈ g.groups ∧
        ∃ approval ∈ approvals, group.IsServedBy table approval := by
  rw [satisfied, map_group_filter, List.mem_filter,
    ← Group.isSatisfied_iff_isServedBy]
  rfl

theorem mem_groups_uncertain_iff :
    group ∈ (ofGrouping g approvals table).uncertain.map Assessment.group ↔
      group ∈ (ofGrouping g approvals table).pending.map Assessment.group ∧
        group.unknownTeams table ≠ [] := by
  rw [uncertain, pending, map_group_filter, map_group_filter, List.mem_filter,
    List.mem_filter, and_assoc]
  simp [Assessment.isUncertain, Assessment.isSatisfied]

/-- A group that is satisfied stays so whatever is found out about other teams,
and so does a pending group that is not uncertain. An uncertain one may turn out
to be satisfied once there is an approval. -/
theorem verdicts_of_completions :
    (group ∈ (ofGrouping g approvals table).satisfied.map Assessment.group →
      ∀ table' : RosterTable, table'.Completes table →
        group ∈
          (ofGrouping g approvals table').satisfied.map Assessment.group) ∧
    (group ∈ (ofGrouping g approvals table).pending.map Assessment.group →
      group ∉ (ofGrouping g approvals table).uncertain.map Assessment.group →
      ∀ table' : RosterTable, table'.Completes table →
        group ∈ (ofGrouping g approvals table').pending.map Assessment.group) ∧
    ((∃ approval ∈ approvals, Owner.bareName approval ≠ "") →
      group ∈ (ofGrouping g approvals table).uncertain.map Assessment.group →
      ∃ table' : RosterTable, table'.Completes table ∧
        group ∈ (ofGrouping g approvals table').satisfied.map
          Assessment.group) := by
  simp only [mem_groups_uncertain_iff, mem_groups_satisfied_iff,
    mem_groups_pending_iff]
  refine ⟨?_, ?_, ?_⟩
  · intro hsatisfied table' hcompletes
    obtain ⟨hgroup, approval, happroval, hserved⟩ := hsatisfied
    exact ⟨hgroup, approval, happroval, hserved.of_completes hcompletes⟩
  · intro hpending hcertain table' hcompletes
    refine ⟨hpending.1, fun hserved' => hpending.2 ?_⟩
    obtain ⟨approval, happroval, hserved'⟩ := hserved'
    have hnil : group.unknownTeams table = [] :=
      Decidable.not_not.1 fun hne => hcertain ⟨hpending, hne⟩
    exact ⟨approval, happroval, hserved'.of_certain hcompletes hnil⟩
  · intro hname huncertain
    obtain ⟨approval, happroval, hname⟩ := hname
    obtain ⟨⟨hgroup, _⟩, hne⟩ := huncertain
    obtain ⟨table', hcompletes, hserved⟩ :=
      Group.exists_completes_isServedBy hne hname
    exact ⟨table', hcompletes, hgroup, approval, happroval, hserved⟩

/-- Of two groups a roster is missing for one. It may have a member who has
approved, and the other group cannot have. -/
theorem verdicts_of_completions_missing_roster :
    let core : Group := ⟨"org/core", "core", [.ofName "org/core"], ["a"], []⟩
    let web : Group := ⟨"org/web", "web", [.ofName "org/web"], ["b"], []⟩
    let table := RosterTable.ofRosters [⟨"org/core", ["bob"]⟩]
    let report := ofGrouping ⟨[core, web], []⟩ ["@zed"]
    core ∈ (report table).pending.map Assessment.group ∧
      core ∉ (report table).uncertain.map Assessment.group ∧
      (∀ table' : RosterTable, table'.Completes table →
        core ∈ (report table').pending.map Assessment.group) ∧
      web ∈ (report table).uncertain.map Assessment.group ∧
      ∃ table' : RosterTable, table'.Completes table ∧
        web ∈ (report table').satisfied.map Assessment.group := by
  intro core web table report
  have hpending : core ∈ (report table).pending.map Assessment.group := by
    decide
  have hcertain : core ∉ (report table).uncertain.map Assessment.group := by
    decide
  have huncertain : web ∈ (report table).uncertain.map Assessment.group := by
    decide
  exact ⟨hpending, hcertain,
    verdicts_of_completions.2.1 hpending hcertain, huncertain,
    verdicts_of_completions.2.2 ⟨"@zed", by decide, by decide⟩ huncertain⟩

end Report

end Signoff
