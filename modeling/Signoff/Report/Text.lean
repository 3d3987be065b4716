import Signoff.Evaluation

/-!
# Reports as text

A report for people: the groups with their files, then the files that nobody
owns, then a sentence about what is missing. Beside it stands the listing of all
rules that cover some files, one rule a line in columns.
-/

namespace Signoff

/-- Text in lines, each of them ended. -/
def unlines (lines : List String) : String :=
  String.join (lines.map (· ++ "\n"))

def mentions (owners : List Owner) : String :=
  " ".intercalate (owners.map Owner.mention)

/-- What a report says about the approval of a group. -/
def Assessment.status (a : Assessment) : String :=
  match a.verdict with
  | .byTeam team members =>
      "approved by " ++ members.head?.getD "" ++ " via @" ++ team
  | .byName name => "approved by " ++ name
  | .pending =>
      if a.unknownTeams.isEmpty then "needs approval"
      else
        "needs approval (unknown roster: " ++ ", ".intercalate a.unknownTeams ++
          ")"

def fileLine (file : String) : String := "    " ++ file

def Assessment.lines (a : Assessment) : List String :=
  ("[" ++ a.group.label ++ "] " ++ mentions a.group.owners ++ "  " ++
    a.status) ::
    a.group.files.map fileLine

namespace Report

/-- The sentence at the end. -/
def conclusion (r : Report) : String :=
  let groups := toString r.assessments.length
  if r.assessments.isEmpty then "no ownership rules apply to this change"
  else if r.isReady then "all " ++ groups ++ " approval groups satisfied"
  else
    toString r.missing ++ " more approval(s) needed across " ++ groups ++
      " group(s)"

def lines (r : Report) : List String :=
  r.assessments.flatMap Assessment.lines ++
    (if r.unowned.isEmpty then [] else "(unowned)" :: r.unowned.map fileLine) ++
    ["", r.conclusion]

def text (r : Report) : String := unlines r.lines

end Report

namespace Policy

variable [Engine]

/-- A rule that covers a file, as a line of the listing. -/
def listingLine (file : String) (rule : Rule) : String :=
  Text.padRight 70 file ++ "  " ++
    Text.padLeft 4 (toString rule.line) ++ "  " ++
    Text.padRight 30 rule.pattern ++ "  " ++ mentions rule.owners

/-- The lines that the listing has about one file. -/
def listingOf (p : Policy) (file : String) : List String :=
  match p.covering file with
  | [] => [Text.padRight 70 file ++ "  (unowned)"]
  | rules => rules.map (listingLine file)

/-- All rules that cover the files, file by file. -/
def listing (p : Policy) (files : List String) : String :=
  unlines (files.flatMap p.listingOf)

end Policy

end Signoff
