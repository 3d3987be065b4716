import Mathlib.Data.List.Forall2
import Signoff.Proofs.Decision

/-!
# More approvals and more rosters

Nothing that is found out takes an approval away. Another approval may put an
earlier owner in front of the one who decided before, and another roster may
turn a verdict by name into one by a team, so the verdicts of two reports need
not agree in anything but this: an owner who has approved still has, whoever it
was that spoke for this owner. What holds of one owner then holds of the groups
that have such an owner, of their number, and of the change (`ofGrouping_mono`).

A roster may grow as well. What has to stay is that a team is known and that the
members it had are among those it has.
-/

namespace Signoff

variable {approvers approvers' : List String} {table table' : RosterTable}

namespace RosterTable

/-- The table knows all teams that the other one knows, with at least the
members that these have there. -/
def Extends (table' table : RosterTable) : Prop :=
  ∀ team members, table.get? team = some (.known members) →
    ∃ members', table'.get? team = some (.known members') ∧ members ⊆ members'

theorem Extends.isKnown {team : String} (h : table'.Extends table)
    (hknown : table.isKnown team = true) : table'.isKnown team = true := by
  obtain ⟨members, hget⟩ := isKnown_iff.1 hknown
  obtain ⟨members', hget', _⟩ := h team members hget
  exact isKnown_iff.2 ⟨members', hget'⟩

end RosterTable

/-! ## One owner -/

namespace Owner

variable {o : Owner} {approver : String}

theorem SpokenForBy.of_extends (hspeaks : o.SpokenForBy approver table)
    (htable : table'.Extends table) : o.SpokenForBy approver table' := by
  rcases hspeaks with hname | ⟨hteam, members, hget, hmember⟩
  · exact Or.inl hname
  · obtain ⟨members', hget', hmembers⟩ := htable _ _ hget
    exact Or.inr ⟨hteam, members', hget', hmembers hmember⟩

theorem HasApproved.mono (h : o.HasApproved approvers table)
    (happrovers : approvers ⊆ approvers') (htable : table'.Extends table) :
    o.HasApproved approvers' table' := by
  obtain ⟨approver, happrover, hspeaks⟩ := h
  exact ⟨approver, happrovers happrover, hspeaks.of_extends htable⟩

end Owner

/-! ## One group -/

namespace Group

variable {g : Group}

theorem IsApproved.mono (h : g.IsApproved approvers table)
    (happrovers : approvers ⊆ approvers') (htable : table'.Extends table) :
    g.IsApproved approvers' table' := by
  obtain ⟨o, ho, happroved⟩ := h
  exact ⟨o, ho, happroved.mono happrovers htable⟩

theorem unknownTeams_sublist (g : Group) (htable : table'.Extends table) :
    (g.unknownTeams table').Sublist (g.unknownTeams table) := by
  refine List.Sublist.map _ (List.monotone_filter_right _ fun o hunknown' => ?_)
  cases hknown : table.isKnown o.name with
  | false => rfl
  | true =>
      rw [htable.isKnown hknown] at hunknown'
      cases hunknown'

end Group

/-- The same group at a later time: the approval that it had it still has, and
no roster of it has gone missing. -/
structure Assessment.Advances (a a' : Assessment) : Prop where
  group : a'.group = a.group
  isSatisfied : a.isSatisfied = true → a'.isSatisfied = true
  unknownTeams : a'.unknownTeams.Sublist a.unknownTeams

/-! ## All groups -/

namespace Report

variable {approvals approvals' : List String}

theorem forall₂_advances (g : Grouping)
    (happrovers : Signoff.approvers approvals ⊆ Signoff.approvers approvals')
    (htable : table'.Extends table) :
    List.Forall₂ Assessment.Advances
      (ofGrouping g approvals table).assessments
      (ofGrouping g approvals' table').assessments := by
  rw [ofGrouping, ofGrouping, List.forall₂_map_left_iff,
    List.forall₂_map_right_iff, List.forall₂_same]
  refine fun group _ => ⟨rfl, fun hsatisfied => ?_,
    group.unknownTeams_sublist htable⟩
  have happroved : group.IsApproved (Signoff.approvers approvals) table :=
    Group.isSatisfied_verdict_iff.1 hsatisfied
  exact Group.isSatisfied_verdict_iff.2 (happroved.mono happrovers htable)

/-- With more approvers, and with more known about teams, the groups that are
satisfied stay so. No more approvals are missing than before, a change that is
ready stays ready, and no roster is missing that was not. -/
theorem ofGrouping_mono (g : Grouping)
    (happrovers : Signoff.approvers approvals ⊆ Signoff.approvers approvals')
    (htable : table'.Extends table) :
    let r := ofGrouping g approvals table
    let r' := ofGrouping g approvals' table'
    List.Forall₂ Assessment.Advances r.assessments r'.assessments ∧
      r'.missing ≤ r.missing ∧ (r.isReady = true → r'.isReady = true) := by
  intro r r'
  refine ⟨forall₂_advances g happrovers htable, ?_, fun hready => ?_⟩
  · rw [missing_ofGrouping, missing_ofGrouping]
    refine List.countP_mono_left fun group _ hpending => ?_
    rw [decide_eq_true_iff] at hpending ⊢
    exact fun happroved => hpending (happroved.mono happrovers htable)
  · obtain ⟨hne, happroved⟩ := isReady_ofGrouping_iff.1 hready
    refine isReady_ofGrouping_iff.2 ⟨hne, fun group hgroup => ?_⟩
    exact Group.IsApproved.mono (happroved group hgroup) happrovers htable

/-- The roster of the earlier of two teams turns up and one of its members
approves, while the other team, which has approved all along, gets a member
more. The verdict comes to name the earlier team. -/
theorem ofGrouping_mono_earlier_owner :
    let web : Group := ⟨"org/core,org/web", "web",
      [.ofName "org/core", .ofName "org/web"], ["a"], ["*"]⟩
    let table := RosterTable.ofList [("org/core", .unknown .cancelled),
      ("org/web", .known ["cat"])]
    let table' := RosterTable.ofRosters [⟨"org/web", ["ann", "cat"]⟩,
      ⟨"org/core", ["dan"]⟩]
    let r := ofGrouping ⟨[web], []⟩ ["cat"] table
    let r' := ofGrouping ⟨[web], []⟩ ["@dan", "@cat"] table'
    Signoff.approvers ["cat"] ⊆ Signoff.approvers ["@dan", "@cat"] ∧
      table'.Extends table ∧
      r.assessments.map Assessment.verdict = [.byTeam "org/web" ["cat"]] ∧
      r'.assessments.map Assessment.verdict = [.byTeam "org/core" ["dan"]] ∧
      List.Forall₂ Assessment.Advances r.assessments r'.assessments ∧
      r'.missing ≤ r.missing ∧ (r.isReady = true → r'.isReady = true) := by
  intro web table table' r r'
  have happrovers :
      Signoff.approvers ["cat"] ⊆ Signoff.approvers ["@dan", "@cat"] := by
    decide
  have htable : table'.Extends table := by
    intro team members hget
    simp only [table, RosterTable.ofList, List.foldl_cons, List.foldl_nil,
      RosterTable.get?_insert, RosterTable.get?_empty] at hget
    split at hget
    · next hweb =>
        cases hget
        exact ⟨["ann", "cat"], hweb ▸ rfl, by decide⟩
    · split at hget <;> cases hget
  exact ⟨happrovers, htable, by decide, by decide,
    ofGrouping_mono _ happrovers htable⟩

end Report

end Signoff
