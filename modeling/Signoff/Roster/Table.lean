import Signoff.Entries
import Signoff.Roster.Basic

/-!
# Roster tables

What is known about each of a number of teams, in ascending order of their
names. The order is part of the type, and all that a table tells is told by
`get?`.
-/

namespace Signoff

/-- The statuses of teams by ascending name. -/
structure RosterTable where
  entries : List (String × Roster.Status)
  ascending : entries.Pairwise fun a b => a.1 < b.1

namespace RosterTable

open Roster (Status)

/-- The table of no team. -/
def empty : RosterTable := ⟨[], .nil⟩

/-- Sets the status of a team, in place of any that it had. -/
def insert (t : RosterTable) (team : String) (status : Status) : RosterTable :=
  ⟨alterEntry team (fun _ => status) t.entries, pairwise_alterEntry t.ascending⟩

def insertRoster (t : RosterTable) (roster : Roster) : RosterTable :=
  t.insert roster.team (.known roster.members)

/-- The table of some statuses, of which a later one for the same team replaces
an earlier one. -/
def ofList (statuses : List (String × Status)) : RosterTable :=
  statuses.foldl (fun t entry => t.insert entry.1 entry.2) empty

def ofRosters (rosters : List Roster) : RosterTable :=
  rosters.foldl insertRoster empty

/-- The table in which no directory knows any of the teams. -/
def withoutDirectory (teams : List String) : RosterTable :=
  ofList (teams.map (·, .unknown .noDirectory))

def get? (t : RosterTable) (team : String) : Option Status :=
  List.lookup team t.entries

/-- The members of a team, if they are known. -/
def members? (t : RosterTable) (team : String) : Option (List String) :=
  (t.get? team).bind Status.members?

def isKnown (t : RosterTable) (team : String) : Bool := (t.members? team).isSome

/-- The teams in ascending order. -/
def teams (t : RosterTable) : List String := t.entries.map Prod.fst

/-- The teams of the table whose members are not known. -/
def unknownTeams (t : RosterTable) : List String :=
  (t.entries.filter fun entry => entry.2.members?.isNone).map Prod.fst

def size (t : RosterTable) : Nat := t.entries.length

def isEmpty (t : RosterTable) : Bool := t.entries.isEmpty

/-! ## The view of a table as a function -/

theorem get?_empty (team : String) : empty.get? team = none := rfl

theorem get?_insert (t : RosterTable) (team other : String) (status : Status) :
    (t.insert team status).get? other =
      if other = team then some status else t.get? other :=
  lookup_alterEntry team other status t.entries

end RosterTable

end Signoff
