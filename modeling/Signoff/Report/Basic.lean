import Signoff.Verdict

/-!
# Reports

A report says of each group of a change whether it has the approval it needs.
The change is ready when it has groups and none of them is pending: a change
that no rule covers is not ready by default.

A pending group can be wronged by a roster that is not known. Such groups are
the uncertain ones.
-/

namespace Signoff

/-- A group and the verdict about it. -/
structure Assessment where
  group : Group
  verdict : Verdict
  /-- The teams among the owners whose rosters are not known. -/
  unknownTeams : List String
  deriving DecidableEq

namespace Assessment

/-- A group that has not been looked at yet. -/
def unjudged (group : Group) : Assessment := ⟨group, .pending, []⟩

def isSatisfied (a : Assessment) : Bool := a.verdict.isSatisfied

/-- Pending, and not for certain. -/
def isUncertain (a : Assessment) : Bool :=
  !a.isSatisfied && !a.unknownTeams.isEmpty

end Assessment

/-- The state of the approvals of a change. -/
structure Report where
  assessments : List Assessment
  unowned : List String
  rosters : RosterTable

namespace Report

/-- Judges the groups by the approvals and by what is known about teams. -/
def ofGrouping (g : Grouping) (approvals : List String)
    (rosters : RosterTable) : Report :=
  let approvers := approvers approvals
  { assessments := g.groups.map fun group =>
      ⟨group, group.verdict approvers rosters, group.unknownTeams rosters⟩
    unowned := g.unowned
    rosters := rosters }

def pending (r : Report) : List Assessment :=
  r.assessments.filter fun a => !a.isSatisfied

/-- The pending groups that a roster could still satisfy. -/
def uncertain (r : Report) : List Assessment :=
  r.assessments.filter Assessment.isUncertain

/-- The number of approvals that are missing, one for each pending group. -/
def missing (r : Report) : Nat := r.pending.length

/-- Is there anything to approve, and is all of it approved? -/
def isReady (r : Report) : Bool := r.missing == 0 && !r.assessments.isEmpty

end Report

end Signoff
