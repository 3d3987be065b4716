import Signoff.Proofs.Verdict

/-!
# The owner who decides

A group asks its owners in order, and the first of them who has approved decides
about it. An owner has approved if any approver speaks for it. What is said of
that owner in the verdict is more than this: its own name if it is among the
approvers, also where the owner is a team, and otherwise all members of the team
who have approved, in the order of the roster.

Owners before the one who decides may be teams without a roster, teams of which
nobody has approved, and individuals. They are told by one thing only, that no
approver speaks for them, so the search comes down to where a list of owners is
to be split (`ofGrouping_first_owner_decides`).
-/

namespace Signoff

variable {approvers : List String} {table : RosterTable}

/-! ## One owner -/

namespace Owner

variable {o : Owner} {v : Verdict}

instance (o : Owner) (approver : String) (table : RosterTable) :
    Decidable (o.SpokenForBy approver table) :=
  decidable_of_iff (approver = o.name ∨
      o.isTeam = true ∧ approver ∈ (table.members? o.name).getD [])
    (or_congr_right (and_congr_right fun _ => RosterTable.mem_members_iff))

/-- Somebody among the approvers speaks for the owner. -/
def HasApproved (o : Owner) (approvers : List String) (table : RosterTable) :
    Prop :=
  ∃ approver ∈ approvers, o.SpokenForBy approver table

instance (o : Owner) (approvers : List String) (table : RosterTable) :
    Decidable (o.HasApproved approvers table) :=
  inferInstanceAs (Decidable (∃ approver ∈ approvers, _))

/-- What there is to say of the owner's approval. Members are named only where
the owner is not. -/
inductive Brings (o : Owner) (approvers : List String) (table : RosterTable) :
    Verdict → Prop
  | byName (hname : o.name ∈ approvers) :
      o.Brings approvers table (.byName o.name)
  | byTeam {roster : List String} (hname : o.name ∉ approvers)
      (hteam : o.isTeam = true)
      (hroster : table.get? o.name = some (.known roster))
      (hsome : roster.filter (· ∈ approvers) ≠ []) :
      o.Brings approvers table (.byTeam o.name (roster.filter (· ∈ approvers)))

theorem brings_of_verdict? (h : o.verdict? approvers table = some v) :
    o.Brings approvers table v := by
  rw [verdict?] at h
  split at h
  · next hname =>
      obtain rfl := Option.some.inj h
      exact .byName hname
  · next hname =>
      split at h
      · next hteam =>
          cases hroster : table.members? o.name with
          | none =>
              rw [hroster] at h
              cases h
          | some roster =>
              rw [hroster, Option.getD_some] at h
              split at h
              · cases h
              · next hsome =>
                  obtain rfl := Option.some.inj h
                  exact .byTeam hname hteam
                    (RosterTable.members?_eq_some_iff.1 hroster) hsome
      · cases h

/-- Whoever is named as the approver has approved. -/
theorem Brings.approver?_mem (h : o.Brings approvers table v) :
    ∃ name ∈ approvers, v.approver? = some name := by
  cases h with
  | byName hname => exact ⟨o.name, hname, rfl⟩
  | @byTeam roster hname hteam hroster hsome =>
      have hhead := List.head?_eq_some_head hsome
      have hmem := List.mem_filter.1 (List.head_mem hsome)
      exact ⟨_, of_decide_eq_true hmem.2, hhead⟩

end Owner

/-! ## One group -/

namespace Group

variable {g : Group}

/-- One of the owners has approved. -/
def IsApproved (g : Group) (approvers : List String) (table : RosterTable) :
    Prop :=
  ∃ o ∈ g.owners, o.HasApproved approvers table

instance (g : Group) (approvers : List String) (table : RosterTable) :
    Decidable (g.IsApproved approvers table) :=
  inferInstanceAs (Decidable (∃ o ∈ g.owners, _))

/-- The owner has approved, and none of those who are asked earlier has. -/
def FirstToApprove (g : Group) (approvers : List String) (table : RosterTable)
    (o : Owner) : Prop :=
  ∃ earlier later, g.owners = earlier ++ o :: later ∧
    o.HasApproved approvers table ∧
    ∀ other ∈ earlier, ¬ other.HasApproved approvers table

theorem exists_firstToApprove
    (h : (g.verdict approvers table).isSatisfied = true) :
    ∃ o, g.FirstToApprove approvers table o ∧
      o.Brings approvers table (g.verdict approvers table) := by
  rw [verdict] at h ⊢
  cases hfound : g.owners.findSome? fun o => o.verdict? approvers table with
  | none =>
      rw [hfound] at h
      cases h
  | some v =>
      obtain ⟨earlier, o, later, howners, hverdict, hnone⟩ :=
        List.findSome?_eq_some_iff.1 hfound
      refine ⟨o, ⟨earlier, later, howners, ?_, fun other hother => ?_⟩,
        Owner.brings_of_verdict? hverdict⟩
      · exact Owner.isSome_verdict?_iff.1 (Option.isSome_of_eq_some hverdict)
      · intro happroved
        have hsome := Owner.isSome_verdict?_iff.2 happroved
        rw [hnone other hother] at hsome
        cases hsome

end Group

/-! ## All groups -/

namespace Report

variable {g : Grouping} {approvals : List String}

theorem map_group_ofGrouping (g : Grouping) (approvals : List String)
    (table : RosterTable) :
    (ofGrouping g approvals table).assessments.map Assessment.group =
      g.groups := by
  rw [ofGrouping, List.map_map]
  exact List.map_id _

theorem missing_ofGrouping (g : Grouping) (approvals : List String)
    (table : RosterTable) :
    (ofGrouping g approvals table).missing = g.groups.countP fun group =>
      ¬ group.IsApproved (Signoff.approvers approvals) table := by
  rw [missing, pending, ← List.countP_eq_length_filter, ofGrouping,
    List.countP_map]
  refine List.countP_congr fun group _ => ?_
  have happroved :
      (group.verdict (Signoff.approvers approvals) table).isSatisfied = true ↔
        group.IsApproved (Signoff.approvers approvals) table :=
    Group.isSatisfied_verdict_iff
  simp [Assessment.isSatisfied, ← happroved]

/-- A group is satisfied just when one of its owners has approved. The first
owner who has is the one that the verdict names, by name or with all members who
have approved. The others are counted, and nothing else about the groups is
touched. -/
theorem ofGrouping_first_owner_decides (g : Grouping) (approvals : List String)
    (table : RosterTable) :
    let r := ofGrouping g approvals table
    let names := Signoff.approvers approvals
    (∀ name, name ∈ names ↔
      name ≠ "" ∧ ∃ approval ∈ approvals, Owner.bareName approval = name) ∧
    (∀ a ∈ r.assessments,
      (a.isSatisfied = true ↔ a.group.IsApproved names table) ∧
      (a.isSatisfied = true →
        (∃ o, a.group.FirstToApprove names table o ∧
          o.Brings names table a.verdict) ∧
        ∃ name ∈ names, a.verdict.approver? = some name)) ∧
    r.missing = g.groups.countP (fun group => ¬ group.IsApproved names table) ∧
    (r.isReady = true ↔
      g.groups ≠ [] ∧ ∀ group ∈ g.groups, group.IsApproved names table) ∧
    r.assessments.map Assessment.group = g.groups ∧ r.unowned = g.unowned := by
  intro r names
  refine ⟨fun name => mem_approvers_iff, ?_,
    missing_ofGrouping g approvals table, isReady_ofGrouping_iff,
    map_group_ofGrouping g approvals table, rfl⟩
  intro a ha
  obtain ⟨group, _, rfl⟩ := List.mem_map.1 ha
  refine ⟨Group.isSatisfied_verdict_iff, fun hsatisfied => ?_⟩
  obtain ⟨o, hfirst, hbrings⟩ := Group.exists_firstToApprove hsatisfied
  exact ⟨⟨o, hfirst, hbrings⟩, hbrings.approver?_mem⟩

/-- Of three owners the first has not approved, two members of the second have,
and the third has, by name. The team decides. -/
theorem ofGrouping_team_decides :
    let web : Group := ⟨"ann,org/web,zed", "web",
      [.ofName "ann", .ofName "org/web", .ofName "zed"], ["a"], ["*"]⟩
    let table := RosterTable.ofRosters [⟨"org/web", ["dan", "bob", "cat"]⟩]
    let r := ofGrouping ⟨[web], []⟩ ["zed", "@@cat", "@", "dan"] table
    let names := Signoff.approvers ["zed", "@@cat", "@", "dan"]
    ∃ a ∈ r.assessments, a.isSatisfied = true ∧
      a.verdict = .byTeam "org/web" ["dan", "cat"] ∧
      ∃ o, a.group.FirstToApprove names table o ∧
        o.Brings names table a.verdict := by
  intro web table r names
  have ha : ⟨web, .byTeam "org/web" ["dan", "cat"], []⟩ ∈ r.assessments := by
    decide
  have hdecided := (ofGrouping_first_owner_decides ⟨[web], []⟩
    ["zed", "@@cat", "@", "dan"] table).2.1 _ ha
  exact ⟨_, ha, rfl, rfl, (hdecided.2 rfl).1⟩

end Report

end Signoff
