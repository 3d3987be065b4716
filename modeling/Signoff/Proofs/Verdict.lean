import Mathlib.Data.List.Basic
import Signoff.Report.Basic

/-!
# Who satisfies a group

The verdict about a group names one owner and how that owner came to approve.
Whether there is such an owner at all is a matter of single approvers: a group
is satisfied if one of them speaks for one of its owners, and a change is ready
if it has groups and all of them are satisfied.
-/

namespace Signoff

variable {approvers : List String} {table : RosterTable}

/-- The approver is the owner, or is known to be a member of the team. -/
def Owner.SpokenForBy (o : Owner) (approver : String) (table : RosterTable) :
    Prop :=
  approver = o.name ∨ o.isTeam = true ∧
    ∃ members, table.get? o.name = some (.known members) ∧ approver ∈ members

theorem RosterTable.members?_eq_some_iff {team : String}
    {members : List String} : table.members? team = some members ↔
      table.get? team = some (.known members) := by
  rw [members?]
  cases table.get? team with
  | none => simp
  | some status =>
      cases status with
      | known known => simp [Roster.Status.members?]
      | unknown gap => simp [Roster.Status.members?]

theorem RosterTable.isKnown_iff {team : String} : table.isKnown team = true ↔
    ∃ members, table.get? team = some (.known members) := by
  rw [isKnown, Option.isSome_iff_exists]
  simp only [members?_eq_some_iff]

theorem RosterTable.mem_members_iff {team name : String} :
    name ∈ (table.members? team).getD [] ↔
      ∃ members, table.get? team = some (.known members) ∧ name ∈ members := by
  simp only [← members?_eq_some_iff]
  cases table.members? team with
  | none => simp
  | some members => simp

/-- An approver is an approval with a name, without what comes before that. -/
theorem mem_approvers_iff {approvals : List String} {name : String} :
    name ∈ Signoff.approvers approvals ↔
      name ≠ "" ∧ ∃ approval ∈ approvals, Owner.bareName approval = name := by
  simp [Signoff.approvers, and_comm]

theorem exists_approver_iff {approvals : List String} {P : String → Prop} :
    (∃ approver ∈ Signoff.approvers approvals, P approver) ↔
      ∃ approval ∈ approvals, Owner.bareName approval ≠ "" ∧
        P (Owner.bareName approval) := by
  simp only [mem_approvers_iff]
  constructor
  · intro h
    obtain ⟨_, ⟨hne, approval, happroval, rfl⟩, hP⟩ := h
    exact ⟨approval, happroval, hne, hP⟩
  · intro h
    obtain ⟨approval, happroval, hne, hP⟩ := h
    exact ⟨_, ⟨hne, approval, happroval, rfl⟩, hP⟩

/-- A team that has not approved by name is spoken for by its members alone. -/
theorem Owner.exists_spokenForBy_iff {o : Owner} (hname : o.name ∉ approvers)
    (hteam : o.isTeam = true) :
    (∃ approver ∈ approvers, o.SpokenForBy approver table) ↔
      ∃ member ∈ (table.members? o.name).getD [], member ∈ approvers := by
  constructor
  · intro h
    obtain ⟨approver, happrover, hspeaks⟩ := h
    rcases hspeaks with heq | ⟨_, hmember⟩
    · exact absurd (heq ▸ happrover) hname
    · exact ⟨approver, RosterTable.mem_members_iff.2 hmember, happrover⟩
  · intro h
    obtain ⟨member, hmember, happrover⟩ := h
    have hroster := RosterTable.mem_members_iff.1 hmember
    exact ⟨member, happrover, Or.inr ⟨hteam, hroster⟩⟩

theorem Owner.isSome_verdict?_iff {o : Owner} :
    (o.verdict? approvers table).isSome = true ↔
      ∃ approver ∈ approvers, o.SpokenForBy approver table := by
  rw [verdict?]
  split
  · next hname => exact iff_of_true rfl ⟨o.name, hname, Or.inl rfl⟩
  · next hname =>
      split
      · next hteam =>
          rw [exists_spokenForBy_iff hname hteam]
          split
          · next hnone =>
              rw [List.filter_eq_nil_iff] at hnone
              simpa using hnone
          · next hsome =>
              obtain ⟨member, hmember⟩ := List.exists_mem_of_ne_nil _ hsome
              obtain ⟨hroster, happrover⟩ := List.mem_filter.1 hmember
              have hin := of_decide_eq_true happrover
              exact iff_of_true rfl ⟨member, hroster, hin⟩
      · next hteam =>
          refine iff_of_false Bool.false_ne_true ?_
          intro h
          obtain ⟨approver, happrover, hspeaks⟩ := h
          rcases hspeaks with heq | ⟨hteam', _⟩
          · exact hname (heq ▸ happrover)
          · exact hteam hteam'

/-- An owner who decides at all decides in favour. -/
theorem Owner.isSatisfied_of_verdict? {o : Owner} {v : Verdict}
    (h : o.verdict? approvers table = some v) : v.isSatisfied = true := by
  rw [verdict?] at h
  split at h
  · obtain rfl := Option.some.inj h
    rfl
  · split at h
    · split at h
      · cases h
      · obtain rfl := Option.some.inj h
        rfl
    · cases h

theorem Group.isSatisfied_verdict_iff {g : Group} :
    (g.verdict approvers table).isSatisfied = true ↔
      ∃ o ∈ g.owners, ∃ approver ∈ approvers, o.SpokenForBy approver table := by
  simp only [← Owner.isSome_verdict?_iff, ← List.findSome?_isSome_iff]
  rw [verdict]
  cases hfound : g.owners.findSome? fun o => o.verdict? approvers table with
  | none => simp [Verdict.isSatisfied]
  | some v =>
      obtain ⟨o, _, hverdict⟩ := List.exists_of_findSome?_eq_some hfound
      exact iff_of_true (Owner.isSatisfied_of_verdict? hverdict) rfl

/-- The approval has a name that speaks for an owner of the group. -/
def Group.IsServedBy (g : Group) (table : RosterTable) (approval : String) :
    Prop :=
  Owner.bareName approval ≠ "" ∧
    ∃ o ∈ g.owners, o.SpokenForBy (Owner.bareName approval) table

theorem Group.isSatisfied_iff_isServedBy {g : Group} {approvals : List String} :
    (g.verdict (Signoff.approvers approvals) table).isSatisfied = true ↔
      ∃ approval ∈ approvals, g.IsServedBy table approval := by
  rw [isSatisfied_verdict_iff]
  simp only [exists_approver_iff, IsServedBy]
  refine ⟨fun h => ?_, fun h => ?_⟩
  · obtain ⟨o, ho, approval, happroval, hname, hspeaks⟩ := h
    exact ⟨approval, happroval, hname, o, ho, hspeaks⟩
  · obtain ⟨approval, happroval, hname, o, ho, hspeaks⟩ := h
    exact ⟨o, ho, approval, happroval, hname, hspeaks⟩

/-! ## What a verdict depends on -/

section Congruence

variable {approvers' : List String} {table' : RosterTable} {g g' : Group}

theorem Owner.verdict?_congr {o : Owner}
    (happrovers : ∀ name, name ∈ approvers ↔ name ∈ approvers')
    (htable : o.isTeam = true → table.get? o.name = table'.get? o.name) :
    o.verdict? approvers table = o.verdict? approvers' table' := by
  rw [verdict?, verdict?]
  cases hteam : o.isTeam with
  | false => simp [happrovers]
  | true =>
      rw [RosterTable.members?, htable hteam]
      simp only [happrovers, RosterTable.members?]

/-- Of approvals and rosters a verdict takes in who has approved and what is
known about the teams that own the group. -/
theorem Group.verdict_congr (howners : g.owners = g'.owners)
    (happrovers : ∀ name, name ∈ approvers ↔ name ∈ approvers')
    (htable : ∀ o ∈ g.owners, o.isTeam = true →
      table.get? o.name = table'.get? o.name) :
    g.verdict approvers table = g'.verdict approvers' table' := by
  have hsame : g.owners.filterMap (fun o => o.verdict? approvers table) =
      g.owners.filterMap fun o => o.verdict? approvers' table' :=
    List.filterMap_congr
      fun o ho => Owner.verdict?_congr happrovers (htable o ho)
  rw [verdict, verdict, ← List.head?_filterMap, ← List.head?_filterMap, hsame,
    howners]

theorem Group.unknownTeams_congr (howners : g.owners = g'.owners)
    (htable : ∀ o ∈ g.owners, o.isTeam = true →
      table.get? o.name = table'.get? o.name) :
    g.unknownTeams table = g'.unknownTeams table' := by
  have hsame : g.teamOwners.filter (fun o => !table.isKnown o.name) =
      g.teamOwners.filter fun o => !table'.isKnown o.name := by
    refine List.filter_congr fun o ho => ?_
    obtain ⟨ho, hteam⟩ := List.mem_filter.1 ho
    simp only [RosterTable.isKnown, RosterTable.members?, htable o ho hteam]
  rw [unknownTeams, unknownTeams, hsame, teamOwners, teamOwners, howners]

namespace Assessment

def ofGroup (approvers : List String) (table : RosterTable) (group : Group) :
    Assessment :=
  ⟨group, group.verdict approvers table, group.unknownTeams table⟩

theorem ofGroup_congr {group : Group}
    (htable : ∀ o ∈ group.owners, o.isTeam = true →
      table.get? o.name = table'.get? o.name) :
    ofGroup approvers table group = ofGroup approvers table' group := by
  rw [ofGroup, ofGroup, Group.verdict_congr rfl (fun _ => Iff.rfl) htable,
    Group.unknownTeams_congr rfl htable]

end Assessment

/-- Tables that say the same about the teams that own groups lead to the same
assessments, whatever else they say. -/
theorem Report.assessments_congr {g : Grouping} (approvals : List String)
    (htable : ∀ group ∈ g.groups, ∀ o ∈ group.owners, o.isTeam = true →
      table.get? o.name = table'.get? o.name) :
    (ofGrouping g approvals table).assessments =
      (ofGrouping g approvals table').assessments :=
  List.map_congr_left fun group hgroup =>
    Assessment.ofGroup_congr (htable group hgroup)

end Congruence

/-! ## The groups of a report -/

section Groups

variable {g : Grouping} {group : Group} {approvals : List String}

theorem Report.map_group_filter (p : Assessment → Bool) :
    ((ofGrouping g approvals table).assessments.filter p).map Assessment.group =
      g.groups.filter fun group =>
        p ⟨group, group.verdict (Signoff.approvers approvals) table,
          group.unknownTeams table⟩ := by
  rw [ofGrouping, List.filter_map, List.map_map]
  exact List.map_id _

theorem Report.mem_groups_pending_iff :
    group ∈ (ofGrouping g approvals table).pending.map Assessment.group ↔
      group ∈ g.groups ∧
        ¬ ∃ approval ∈ approvals, group.IsServedBy table approval := by
  rw [pending, map_group_filter, List.mem_filter,
    ← Group.isSatisfied_iff_isServedBy]
  simp [Assessment.isSatisfied]

end Groups

theorem Report.isReady_iff {r : Report} :
    r.isReady = true ↔ r.assessments ≠ [] ∧
      ∀ a ∈ r.assessments, a.isSatisfied = true := by
  simp [isReady, missing, pending, and_comm]

theorem Report.isReady_ofGrouping_iff {g : Grouping} {approvals : List String} :
    (ofGrouping g approvals table).isReady = true ↔ g.groups ≠ [] ∧
      ∀ group ∈ g.groups, ∃ o ∈ group.owners,
        ∃ approver ∈ Signoff.approvers approvals,
          o.SpokenForBy approver table := by
  rw [isReady_iff]
  simp only [ofGrouping, ne_eq, List.map_eq_nil_iff, List.forall_mem_map,
    Assessment.isSatisfied, Group.isSatisfied_verdict_iff]

end Signoff
