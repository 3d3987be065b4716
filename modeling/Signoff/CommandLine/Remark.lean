import Signoff.Json.Printer
import Signoff.Policy
import Signoff.Roster.Table

/-!
# Remarks

What the program has to say beside its result. None of it changes the result: a
rule file that is missing, a pattern that covers nothing, a team whose members
could not be found out.

A remark is printed as it is worded, so a name with a line feed in it takes up
more lines than one.
-/

namespace Signoff.CommandLine

inductive Remark where
  | noRuleFile (path : String)
  /-- The pattern of the rule cannot be made ready. -/
  | unusablePattern (rule : Rule)
  /-- The time was up, or the resolution cancelled, before the team was settled.
  -/
  | unsettled (team : String)
  /-- The directory was asked in vain. -/
  | noRoster (message : String)
  deriving DecidableEq

namespace Remark

def message : Remark → String
  | .noRuleFile path =>
      "warning: no rule file, and so nothing to approve: " ++ path
  | .unusablePattern rule =>
      "warning: line " ++ toString rule.line ++ ": unusable pattern: " ++
        rule.pattern
  | .unsettled team => "warning: no roster in time for " ++ Json.quote team
  | .noRoster message => "warning: " ++ message

/-- The remarks on rules that cover nothing. -/
def ofPolicy [Engine] (p : Policy) : List Remark :=
  (p.entries.filter fun e => e.pattern?.isNone).map
    fun e => .unusablePattern e.rule

/-- The remark on the status of a team, if there is one to be made. -/
def ofStatus? (team : String) : Roster.Status → Option Remark
  | .known _ => none
  | .unknown .noDirectory => none
  | .unknown .cancelled => some (.unsettled team)
  | .unknown .deadlineExceeded => some (.unsettled team)
  | .unknown (.failed message) => some (.noRoster message)

/-- The remarks on teams, in ascending order of the teams. -/
def ofTable (t : RosterTable) : List Remark :=
  t.entries.filterMap fun entry => ofStatus? entry.1 entry.2

end Remark

end Signoff.CommandLine
