import Signoff.Roster.Basic

/-!
# Directories

A directory answers for teams, one at a time. It may take its time, and it may
call off the whole resolution that it is part of as it answers. An answer that
is put off (`Reply.after`) is put off by thirty years at most.
-/

namespace Signoff

/-- What comes back for one team. -/
structure Reply where
  /-- The milliseconds that it takes. -/
  delay : Nat
  answer : Except Roster.Failure Roster
  /-- The resolution is cancelled just before the answer is given. -/
  cancels : Bool

namespace Reply

/-- An answer that is there at once. -/
def immediate (answer : Except Roster.Failure Roster) : Reply :=
  ⟨0, answer, false⟩

/-- The milliseconds of thirty years of 365 days. -/
def longestDelay : Nat := 946080000000

/-- An answer that takes a number of milliseconds, or the longest delay if that
is shorter. -/
def after (delay : Nat) (answer : Except Roster.Failure Roster)
    (cancels : Bool) : Reply :=
  ⟨min delay longestDelay, answer, cancels⟩

end Reply

/-- The source of rosters: a reply for each team. -/
abbrev Directory := String → Reply

namespace Directory

/-- The roster of a team in a list of teams and members. The team may be given
with or without `@` in front, and of several entries for it the last one counts.
-/
def find (rosters : List (String × List String)) (team : String) :
    Except Roster.Failure Roster :=
  let name := Owner.bareName team
  match List.lookup name rosters.reverse with
  | some members => .ok (.ofMembers name members)
  | none => .error (.unknownTeam name)

/-- A directory that holds all rosters itself. -/
def ofRosters (rosters : List (String × List String)) : Directory :=
  fun team => .immediate (find rosters team)

end Directory

end Signoff
