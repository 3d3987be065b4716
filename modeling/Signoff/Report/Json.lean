import Signoff.Evaluation
import Signoff.Json.Basic

/-!
# Reports in JSON

The JSON form of a report and of what it is made of, fields in a fixed order. A
verdict names its kind under `via`, and a roster status under `status`.
-/

namespace Signoff

/-- An array of strings. -/
def Json.ofStrings (strings : List String) : Json :=
  .array (strings.map .string)

/-- A value, or null. -/
def Json.ofOption {α : Type} (write : α → Json) : Option α → Json
  | none => .null
  | some a => write a

def Json.ofNat (n : Nat) : Json := .integer n

def Owner.toJson (o : Owner) : Json :=
  .object [
    ("name", .string o.name),
    ("kind", .string (match o.kind with
      | .individual => "individual"
      | .team => "team"))]

def Ownership.toJson (o : Ownership) : Json :=
  .object [
    ("file", .string o.file),
    ("owners", .array (o.owners.map Owner.toJson)),
    ("matched_pattern", .ofOption .string o.pattern?),
    ("rule_index", .ofOption .ofNat o.position?)]

def Verdict.toJson : Verdict → Json
  | .pending => .object [("via", .string "pending")]
  | .byName name =>
      .object [("via", .string "individual"), ("approver", .string name)]
  | .byTeam team members =>
      .object [("via", .string "team"), ("team", .string team),
        ("members", .ofStrings members)]

def Assessment.toJson (a : Assessment) : Json :=
  .object [
    ("key", .string a.group.key),
    ("label", .string a.group.label),
    ("owners", .array (a.group.owners.map Owner.toJson)),
    ("files", .ofStrings a.group.files),
    ("patterns", .ofStrings a.group.patterns),
    ("satisfaction", a.verdict.toJson),
    ("unresolved_teams", .ofStrings a.unknownTeams)]

/-- The members of an object that tell a gap. -/
def Roster.Gap.members : Roster.Gap → List (String × Json)
  | .noDirectory => [("reason", .string "no_provider")]
  | .cancelled => [("reason", .string "cancelled")]
  | .deadlineExceeded => [("reason", .string "deadline_exceeded")]
  | .failed message =>
      [("reason", .string "failed"), ("detail", .string message)]

def Roster.Status.toJson : Roster.Status → Json
  | .known members =>
      .object [("status", .string "resolved"), ("members", .ofStrings members)]
  | .unknown gap => .object (("status", .string "unresolved") :: gap.members)

def RosterTable.toJson (t : RosterTable) : Json :=
  .object (t.entries.map fun entry => (entry.1, entry.2.toJson))

namespace Report

/-- The members of the object that is a report. -/
def members (r : Report) : List (String × Json) :=
  [ ("groups", .array (r.assessments.map Assessment.toJson)),
    ("unowned_files", .ofStrings r.unowned),
    ("groups_needing_approval", .ofNat r.missing),
    ("ready_to_merge", .bool r.isReady),
    ("teams", r.rosters.toJson)]

/-- A report together with the owners of each file. -/
def toJson (r : Report) (files : List Ownership) : Json :=
  .object (("files", .array (files.map Ownership.toJson)) :: r.members)

end Report

end Signoff
