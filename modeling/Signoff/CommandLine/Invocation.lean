import Signoff.Roster.Limits
import Signoff.Text.Decimal

/-!
# Invocations

What the arguments of the program ask for. An argument is a path unless it
starts with a dash and has more to it. Options have long names, and the common
ones have letters, which can be drawn together behind one dash. A value stands
behind its option in the same argument or is the next argument, in which case it
must not look like an option itself. After `--` all arguments are paths.

Options that say one thing may be given once. Approvals and requested teams add
up.
-/

namespace Signoff.CommandLine

inductive Format where
  | text
  | json
  deriving DecidableEq

inductive Switch where
  | file
  | filesFrom
  | approval
  | requestedTeam
  | rosters
  | concurrency
  | timeout
  | format
  | allMatchingRules
  | verbose
  deriving DecidableEq

namespace Switch

def ofName? : String → Option Switch
  | "file" => some .file
  | "files-from" => some .filesFrom
  | "approval" => some .approval
  | "requested-team" => some .requestedTeam
  | "rosters" => some .rosters
  | "concurrency" => some .concurrency
  | "timeout-ms" => some .timeout
  | "format" => some .format
  | "all-matching-rules" => some .allMatchingRules
  | "verbose" => some .verbose
  | _ => none

def ofLetter? : Char → Option Switch
  | 'f' => some .file
  | 'a' => some .approval
  | 'v' => some .verbose
  | _ => none

def takesValue : Switch → Bool
  | .allMatchingRules => false
  | .verbose => false
  | _ => true

/-- May the option be given more than once? -/
def isRepeatable : Switch → Bool
  | .approval => true
  | .requestedTeam => true
  | .verbose => true
  | _ => false

/-- Is the option content with an empty value? -/
def allowsEmpty : Switch → Bool
  | .approval => true
  | .requestedTeam => true
  | _ => false

end Switch

/-- Why arguments are refused. -/
inductive UsageError where
  | unknownOption (argument : String)
  | missingValue (switch : Switch)
  | unexpectedValue (switch : Switch)
  | invalidValue (switch : Switch) (value : String)
  | repeated (switch : Switch)
  | emptyPath
  deriving DecidableEq

/-- A thing that the arguments say. Options without a value have an empty one.
-/
inductive Item where
  | path (path : String)
  | option (switch : Switch) (value : String)
  deriving DecidableEq

/-! ## From arguments to items -/

/-- Does an argument look like an option? -/
def looksLikeOption (argument : String) : Bool :=
  match argument.toList with
  | '-' :: _ :: _ => true
  | _ => false

def pathItem (path : String) : Except UsageError Item :=
  if path.isEmpty then .error .emptyPath else .ok (.path path)

/-- An option with its value. -/
def valueItem (switch : Switch) (value : String) : Except UsageError Item :=
  if value.isEmpty && !switch.allowsEmpty then .error (.missingValue switch)
  else .ok (.option switch value)

/-- What one argument says by itself: some items, and maybe an option that still
needs a value. -/
abbrev Reading := List Item × Option Switch

/-- Reads the letters behind a single dash. -/
def readLetters (argument : String) : List Char → Except UsageError Reading
  | [] => .ok ([], none)
  | letter :: rest =>
      match Switch.ofLetter? letter with
      | none => .error (.unknownOption argument)
      | some switch =>
          if switch.takesValue then
            match rest with
            | [] => .ok ([], some switch)
            | '=' :: value =>
                (valueItem switch (.ofList value)).map
                  fun item => ([item], none)
            | value =>
                (valueItem switch (.ofList value)).map
                  fun item => ([item], none)
          else
            (readLetters argument rest).map fun (items, pending?) =>
              (.option switch "" :: items, pending?)

/-- Reads what follows two dashes: a name, and a value after the first `=`. -/
def readName (argument : String) (text : List Char) :
    Except UsageError Reading :=
  match Switch.ofName? (.ofList (text.takeWhile (· != '='))) with
  | none => .error (.unknownOption argument)
  | some switch =>
      match switch.takesValue, text.dropWhile (· != '=') with
      | true, [] => .ok ([], some switch)
      | true, _ :: value =>
          (valueItem switch (.ofList value)).map fun item => ([item], none)
      | false, [] => .ok ([.option switch ""], none)
      | false, _ :: _ => .error (.unexpectedValue switch)

def readArgument (argument : String) : Except UsageError Reading :=
  match argument.toList with
  | '-' :: '-' :: text => readName argument text
  | '-' :: letter :: letters => readLetters argument (letter :: letters)
  | _ => (pathItem argument).map fun item => ([item], none)

/-- Reads arguments in order. An option may be waiting for its value. -/
def readArguments (pending? : Option Switch) :
    List String → Except UsageError (List Item)
  | [] =>
      match pending? with
      | some switch => .error (.missingValue switch)
      | none => .ok []
  | argument :: rest =>
      match pending? with
      | some switch =>
          if looksLikeOption argument then .error (.missingValue switch)
          else do
            return (← valueItem switch argument) :: (← readArguments none rest)
      | none =>
          if argument = "--" then rest.mapM pathItem
          else do
            let (items, pending?) ← readArgument argument
            return items ++ (← readArguments pending? rest)

/-! ## From items to an invocation -/

structure Invocation where
  paths : List String
  /-- The rule file, if it is not the usual one. -/
  rulesPath? : Option String
  /-- A list of changed files, or `-` for a list on the standard input. -/
  listPath? : Option String
  approvals : List String
  requestedTeams : List String
  /-- The rosters of teams. -/
  rostersPath? : Option String
  concurrency : Nat
  /-- The time for looking up rosters, in milliseconds. -/
  timeout? : Option Nat
  format : Format
  /-- List the rules that cover the files instead of reporting on approvals. -/
  listsRules : Bool
  verbosity : Nat
  deriving DecidableEq

/-- Reads a number of 64 bits. A plus sign may stand in front. -/
def number? (text : String) : Option Nat :=
  let digits :=
    match text.toList with
    | '+' :: digits => digits
    | digits => digits
  if Text.isDecimal digits && Text.decimalValue digits ≤ Text.maxWord then
    some (Text.decimalValue digits)
  else none

def Format.ofName? : String → Option Format
  | "text" => some .text
  | "json" => some .json
  | _ => none

/-- The values of an option, in order. -/
def valuesOf (items : List Item) (switch : Switch) : List String :=
  items.filterMap fun
    | .option other value => if other = switch then some value else none
    | .path _ => none

/-- The value of an option that may be given once, read in its own way. -/
def valueOf? {α : Type} (items : List Item) (switch : Switch)
    (read : String → Option α) : Except UsageError (Option α) :=
  match valuesOf items switch with
  | [] => .ok none
  | value :: _ =>
      match read value with
      | some a => .ok (some a)
      | none => .error (.invalidValue switch value)

/-- Refuses options that are given more often than they may be. -/
def checkRepetitions : List Item → Except UsageError Unit
  | [] => .ok ()
  | .path _ :: rest => checkRepetitions rest
  | .option switch _ :: rest =>
      if !switch.isRepeatable && !(valuesOf rest switch).isEmpty then
        .error (.repeated switch)
      else checkRepetitions rest

namespace Invocation

def ofItems (items : List Item) : Except UsageError Invocation := do
  checkRepetitions items
  return {
    paths := items.filterMap fun
      | .path path => some path
      | .option _ _ => none
    rulesPath? := ← valueOf? items .file some
    listPath? := ← valueOf? items .filesFrom some
    approvals := valuesOf items .approval
    requestedTeams := valuesOf items .requestedTeam
    rostersPath? := ← valueOf? items .rosters some
    concurrency := (← valueOf? items .concurrency number?).getD
      Limits.standard.concurrency
    timeout? := ← valueOf? items .timeout number?
    format := (← valueOf? items .format Format.ofName?).getD .text
    listsRules := !(valuesOf items .allMatchingRules).isEmpty
    verbosity := (valuesOf items .verbose).length }

/-- Reads the arguments of the program. -/
def ofArguments (arguments : List String) : Except UsageError Invocation := do
  ofItems (← readArguments none arguments)

/-- The rule file to read. -/
def rulesPath (i : Invocation) : String := i.rulesPath?.getD "./CODEOWNERS"

/-- The paths of changed files and folders, which by default is the working
folder. -/
def roots (i : Invocation) : List String :=
  if i.paths.isEmpty && i.listPath?.isNone then ["."] else i.paths

def limits (i : Invocation) : Limits :=
  ⟨i.concurrency, i.timeout?.map Span.ofMilliseconds⟩

end Invocation

end Signoff.CommandLine
