import Signoff.Group
import Signoff.Roster.Table

/-!
# Verdicts

A group is satisfied by the first of its owners who has approved, be it under
the owner's own name or through members of a team whose roster is known. Who
belongs to a team is taken from rosters alone.
-/

namespace Signoff

/-- Whether a group has the approval it needs, and whose. -/
inductive Verdict where
  | pending
  /-- An owner has approved by name. -/
  | byName (name : String)
  /-- These members of the team have approved, in the order of its roster. -/
  | byTeam (team : String) (members : List String)
  deriving DecidableEq

namespace Verdict

def isSatisfied : Verdict → Bool
  | .pending => false
  | _ => true

/-- The approver whom a report names: for a team, the first of its members. -/
def approver? : Verdict → Option String
  | .pending => none
  | .byName name => some name
  | .byTeam _ members => members.head?

def team? : Verdict → Option String
  | .byTeam team _ => some team
  | _ => none

end Verdict

/-- The bare names of those who have approved. An approval without a name counts
for nothing. -/
def approvers (approvals : List String) : List String :=
  (approvals.map Owner.bareName).filter fun name => !name.isEmpty

/-- The verdict for a group that the owner alone decides, if the owner has
approved. -/
def Owner.verdict? (o : Owner) (approvers : List String) (table : RosterTable) :
    Option Verdict :=
  if o.name ∈ approvers then some (.byName o.name)
  else if o.isTeam then
    match ((table.members? o.name).getD []).filter (· ∈ approvers) with
    | [] => none
    | members => some (.byTeam o.name members)
  else none

/-- The verdict that the first owner brings about who has approved. -/
def Group.verdict (g : Group) (approvers : List String) (table : RosterTable) :
    Verdict :=
  (g.owners.findSome? fun o => o.verdict? approvers table).getD .pending

/-- The teams among the owners of a group whose rosters are not known, as often
as they own it. -/
def Group.unknownTeams (g : Group) (table : RosterTable) : List String :=
  (g.teamOwners.filter fun o => !table.isKnown o.name).map Owner.name

end Signoff
