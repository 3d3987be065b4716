import Signoff.Change
import Signoff.Json.Basic
import Signoff.Roster.Directory
import Signoff.Roster.Limits
import Signoff.Text.Decimal

/-!
# Records in JSON

How limits, changes and rosters are read from JSON. Each is a record and takes
fields that it does not know for nothing. Limits and changes have a default for
every field, and a roster has none. A span of time is stricter: it has exactly
its two fields.
-/

namespace Signoff

namespace Json

/-- The value that a field stands for, or the default if there is no such field.
-/
def fieldOr {α : Type} (members : List (String × Json)) (name : String)
    (default : α) (read : Json → Option α) : Option α :=
  match member? members name with
  | none => some default
  | some j => read j

/-- A value that may be null. -/
def nullable? {α : Type} (read : Json → Option α) : Json → Option (Option α)
  | .null => some none
  | j => (read j).map some

end Json

/-- The members of a span, which has the two fields `secs` and `nanos` and no
others. -/
def Span.members? : Json → Option (List (String × Json))
  | .object members =>
      if members.all fun member =>
          member.1 == "secs" || member.1 == "nanos" then
        some members
      else none
  | .array [seconds, nanoseconds] =>
      some [("secs", seconds), ("nanos", nanoseconds)]
  | _ => none

/-- Reads a span. Nanoseconds that make up seconds are carried over, so long as
the seconds remain a number of 64 bits. -/
def Span.ofJson? (j : Json) : Option Span := do
  let members ← members? j
  let seconds ← (← Json.member? members "secs").count? Text.maxWord
  let nanoseconds ← (← Json.member? members "nanos").count? Text.maxHalfWord
  let span := Span.normalized seconds nanoseconds
  if span.seconds ≤ Text.maxWord then some span else none

def Limits.ofJson? (j : Json) : Option Limits := do
  let members ← j.record? ["concurrency", "timeout"]
  return {
    concurrency := ← Json.fieldOr members "concurrency" standard.concurrency
      (·.count? Text.maxWord)
    timeout? := ← Json.fieldOr members "timeout" standard.timeout?
      (Json.nullable? Span.ofJson?) }

def Change.ofJson? (j : Json) : Option Change := do
  let members ← j.record? ["changed_files", "approvals",
    "requested_reviewers", "requested_teams"]
  return {
    files := ← Json.fieldOr members "changed_files" [] Json.strings?
    approvals := ← Json.fieldOr members "approvals" [] Json.strings?
    reviewers := ← Json.fieldOr members "requested_reviewers" [] Json.strings?
    teams := ← Json.fieldOr members "requested_teams" [] Json.strings? }

/-- Reads a roster, whose members are taken as they are. -/
def Roster.ofJson? (j : Json) : Option Roster := do
  let members ← j.record? ["team", "members"]
  return {
    team := ← (← Json.member? members "team").string?
    members := ← (← Json.member? members "members").strings? }

/-- Reads an object that gives the members of each team. -/
def Directory.rostersOfJson? : Json → Option (List (String × List String))
  | .object members =>
      members.mapM fun (team, names) => names.strings?.map (team, ·)
  | _ => none

end Signoff
