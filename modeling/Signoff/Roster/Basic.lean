import Signoff.Owner

/-!
# Rosters

A roster lists the members of a team. It comes from a directory outside, which
may not know the team or may fail, so for each team either the members are known
or the reason is why they are not.
-/

namespace Signoff

/-- The members of a team. -/
structure Roster where
  team : String
  members : List String
  deriving DecidableEq

namespace Roster

/-- A roster that names each member once, where it is named first. -/
def ofMembers (team : String) (members : List String) : Roster :=
  ⟨team, members.eraseDups⟩

def contains (r : Roster) (user : String) : Bool := r.members.contains user

/-- Why a directory has no roster to give. -/
inductive Failure where
  | unknownTeam (team : String)
  | unavailable (team : String) (reason : String)
  deriving DecidableEq

def Failure.message : Failure → String
  | .unknownTeam team => "team not found: " ++ team
  | .unavailable team reason =>
      "failed to fetch roster for " ++ team ++ ": " ++ reason

/-- Why the members of a team are not known. -/
inductive Gap where
  /-- There is no directory to ask. -/
  | noDirectory
  | cancelled
  | deadlineExceeded
  /-- The directory was asked in vain. -/
  | failed (message : String)
  deriving DecidableEq

/-- What is known about the members of a team. -/
inductive Status where
  | known (members : List String)
  | unknown (gap : Gap)
  deriving DecidableEq

/-- What an answer of a directory says about the members of the team that it was
asked for. -/
def Status.ofAnswer : Except Failure Roster → Status
  | .ok roster => .known roster.members
  | .error failure => .unknown (.failed failure.message)

def Status.members? : Status → Option (List String)
  | .known members => some members
  | .unknown _ => none

end Roster

end Signoff
