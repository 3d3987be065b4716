import Signoff.Ascending
import Signoff.Roster.Directory

/-!
# Schedules

When each team would be asked about, and answered for, if nothing cut a
resolution short. The teams are taken in order, and each goes to the slot that
is free first; every slot is free from the start. Nothing here is a process: a
schedule is computed team by team from the times at which the slots become free.
-/

namespace Signoff

/-- The time that a team has in a schedule. -/
structure Booking where
  team : String
  start : Nat
  finish : Nat
  deriving DecidableEq

namespace Schedule

/-- Books teams in order on slots that become free at the times given. -/
def book (delay : String → Nat) (free : List Nat) : List String → List Booking
  | [] => []
  | team :: teams =>
      let start := free.min?.getD 0
      let finish := start + delay team
      ⟨team, start, finish⟩ :: book delay (finish :: free.erase start) teams

/-- The schedule of some teams, each of them once, in ascending order. -/
def ofTeams (slots : Nat) (directory : Directory) (teams : List String) :
    List Booking :=
  book (fun team => (directory team).delay) (List.replicate slots 0)
    (ascending teams)

/-- The time at which the last booking is over. -/
def makespan (bookings : List Booking) : Nat :=
  (bookings.map Booking.finish).foldl max 0

end Schedule

end Signoff
