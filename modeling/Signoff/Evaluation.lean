import Signoff.Change
import Signoff.Report.Basic
import Signoff.Roster.Resolution

/-!
# Evaluations

From a change to its report: the files are given their owners and sorted into
groups, the teams concerned are looked up in the directory, and the groups are
judged by the approvals. Without a directory no team is known. With one, it may
turn out that its deadline is out of reach, and that is the only way to fail.
-/

namespace Signoff

/-- A report and the resolution of teams that it rests on, unless there was no
directory. -/
structure Evaluation where
  report : Report
  resolution? : Option Resolution

variable [Clock]

namespace Directory

/-- Looks up some teams, if there is a directory to look them up in. -/
def lookUp (directory? : Option Directory) (limits : Limits)
    (cancelAt? : Option Nat) (teams : List String) :
    Except Limits.Error (Option Resolution) :=
  match directory? with
  | none => .ok none
  | some directory =>
      (Resolution.Bounds.ofLimits limits cancelAt?).map fun bounds =>
        some (Resolution.resolve bounds directory teams)

end Directory

namespace Policy

variable [Engine]

/-- Sorts files into groups by their owners under the policy. -/
def grouping (p : Policy) (files : List String) : Grouping :=
  .ofOwnerships (p.ownerships files)

/-- Evaluates a change under the policy. -/
def evaluate (p : Policy) (change : Change) (directory? : Option Directory)
    (limits : Limits) (cancelAt? : Option Nat) :
    Except Limits.Error Evaluation :=
  let grouping := p.grouping change.files
  let teams := grouping.teams change.requested
  (Directory.lookUp directory? limits cancelAt? teams).map fun resolution? =>
    let rosters :=
      (resolution?.map Resolution.table).getD (.withoutDirectory teams)
    ⟨.ofGrouping grouping change.approvals rosters, resolution?⟩

end Policy

end Signoff
