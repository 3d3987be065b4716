import Signoff.CommandLine.Disk
import Signoff.CommandLine.Invocation
import Signoff.CommandLine.Remark
import Signoff.Json.Reader
import Signoff.Json.Records
import Signoff.Report.Json
import Signoff.Report.Text

/-!
# Executions

What the program does in given surroundings. All input is read through
`Surroundings`, which a disk in memory can supply as well as a real one. The
inputs are read in a fixed order, and the first one that cannot be had ends the
execution: the rule file, the list of changed files, then the rosters. A rule
file that does not exist is one without rules.

The standard input may stand for any of them, under a name that the system has
for it. It can be read once, and whoever comes later finds nothing in it
(`Surroundings.afterReading`).
-/

namespace Signoff.CommandLine

/-- What the program can see. -/
structure Surroundings where
  source : String → Source
  /-- The files below a folder, each by the names that lead to it from there. -/
  filesBelow? : String → Option (List (List String))
  /-- What is left of the standard input. -/
  input : ByteArray

namespace Surroundings

/-- The surroundings on a disk in memory. -/
def ofDisk (disk : Disk) (input : ByteArray) : Surroundings :=
  ⟨disk.source, disk.filesBelow?, input⟩

def read (s : Surroundings) (path : String) : File :=
  match s.source path with
  | .file file => file
  | .input => .ok s.input

/-- The surroundings when the standard input has been read. -/
def drained (s : Surroundings) : Surroundings := { s with input := .empty }

/-- The surroundings when what is at a path has been read. -/
def afterReading (s : Surroundings) (path : String) : Surroundings :=
  match s.source path with
  | .file _ => s
  | .input => s.drained

end Surroundings

/-- Why an execution ends without a result. -/
inductive Failure where
  | reading (path : String)
  /-- The standard input cannot be read. -/
  | input (failure : File.Failure)
  | parsingRosters (path : String)
  | limits (error : Limits.Error)

def Failure.message : Failure → String
  | .reading path => "reading " ++ path
  | .input failure => failure.message
  | .parsingRosters path => "parsing rosters from " ++ path
  | .limits error => error.message

/-- How an execution ends, and what there is to say about it. -/
inductive Outcome where
  | refused (error : UsageError)
  | failed (remarks : List Remark) (failure : Failure)
  | done (remarks : List Remark) (output : String)

namespace Outcome

def exitCode : Outcome → Nat
  | .refused _ => 2
  | .failed _ _ => 1
  | .done _ _ => 0

def output : Outcome → String
  | .done _ output => output
  | _ => ""

/-- What the program says beside its result, remark by remark and at last why it
gives up. -/
def messages : Outcome → List String
  | .refused _ => []
  | .failed remarks failure =>
      remarks.map Remark.message ++ ["Error: " ++ failure.message]
  | .done remarks _ => remarks.map Remark.message

/-- The first line among the messages that is marked as an error. -/
def errorLine? (o : Outcome) : Option String :=
  let lines := (Text.lines (unlines o.messages).toList).map Text.withoutReturn
  (lines.find? "Error: ".toList.isPrefixOf).map String.ofList

end Outcome

/-! ## Inputs -/

/-- The text of a file that has to be there. -/
def readText (s : Surroundings) (path : String) : Except Failure String :=
  (s.read path).text.mapError fun _ => .reading path

/-- The rule file, which is empty if there is none. -/
def readRules (s : Surroundings) (path : String) :
    Except Failure (List Remark × RuleFile) :=
  match RuleFile.read (s.read path) with
  | .ok rules => .ok ([], rules)
  | .error .notFound => .ok ([.noRuleFile path], .empty)
  | .error _ => .error (.reading path)

/-- The names in a list, one a line, without margins and blank lines. -/
def listedFiles (text : String) : List String :=
  ((Text.lines text.toList).map Text.trim |>.filter fun line =>
    !line.isEmpty).map String.ofList

/-- The files named by a list. -/
def readList (s : Surroundings) (path : String) :
    Except Failure (List String) :=
  if Path.isDash path.toList then
    ((File.decode s.input).mapError .input).map listedFiles
  else (readText s path).map listedFiles

/-- The surroundings when the list of changed files has been read, if there is
one. -/
def afterList (i : Invocation) (s : Surroundings) : Surroundings :=
  match i.listPath? with
  | none => s
  | some path =>
      if Path.isDash path.toList then s.drained else s.afterReading path

/-- Is something kept out of sight, along with all that is below it? -/
def isHidden (names : List String) : Bool := names.contains ".git"

/-- The files that a path stands for: what a folder holds, and any other path
itself, whether or not anything is there. -/
def filesAt (s : Surroundings) (path : String) : List String :=
  match s.filesBelow? path with
  | some below =>
      (below.filter (!isHidden ·)).map fun names =>
        .ofList (Path.relative
          ((names.map String.toList).foldl Path.join path.toList))
  | none => [.ofList (Path.relative path.toList)]

/-- The changed files: those of the list, then those that the paths stand for.
-/
def changedFiles (i : Invocation) (s : Surroundings) :
    Except Failure (List String) := do
  let listed ←
    match i.listPath? with
    | some path => readList s path
    | none => .ok []
  return listed ++ i.roots.flatMap (filesAt s)

/-- A directory that answers from a file of rosters. -/
def readRosters (s : Surroundings) (path : String) :
    Except Failure Directory := do
  let text ← readText s path
  match (Json.parse? text).bind Directory.rostersOfJson? with
  | some rosters => return .ofRosters rosters
  | none => .error (.parsingRosters path)

/-! ## Results -/

variable [Engine] [Clock]

/-- The report on a change in the format that is asked for. -/
def render (format : Format) (policy : Policy) (change : Change)
    (report : Report) : String :=
  match format with
  | .text => report.text
  | .json => (report.toJson (policy.ownerships change.files)).render ++ "\n"

/-- What the arguments ask for, and the remarks on it, when the rules have been
read. -/
def Invocation.answer (i : Invocation) (policy : Policy) (s : Surroundings) :
    Except Failure (List Remark × String) := do
  let change : Change :=
    { files := ← changedFiles i s, approvals := i.approvals, reviewers := [],
      teams := i.requestedTeams }
  if i.listsRules then return ([], policy.listing change.files)
  let directory? ←
    match i.rostersPath? with
    | some path => (readRosters (afterList i s) path).map some
    | none => .ok none
  let evaluation ←
    (policy.evaluate change directory? i.limits none).mapError .limits
  let report := evaluation.report
  return (Remark.ofTable report.rosters, render i.format policy change report)

/-- Does what the arguments ask for. -/
def Invocation.run (i : Invocation) (s : Surroundings) : Outcome :=
  match readRules s i.rulesPath with
  | .error failure => .failed [] failure
  | .ok (remarks, file) =>
      let policy := Policy.ofRules file.rules
      let remarks := remarks ++ Remark.ofPolicy policy
      match i.answer policy (s.afterReading i.rulesPath) with
      | .error failure => .failed remarks failure
      | .ok (further, output) => .done (remarks ++ further) output

/-- Reads the arguments and does what they ask for. -/
def execute (arguments : List String) (s : Surroundings) : Outcome :=
  match Invocation.ofArguments arguments with
  | .error error => .refused error
  | .ok i => i.run s

end Signoff.CommandLine
