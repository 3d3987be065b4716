import Signoff.CommandLine.Execution

/-!
# The program

Reads the files that the arguments name, lists the folders among them, executes,
and prints. All that is decided is decided by `CommandLine.execute`. Here its
surroundings are filled in from the real ones, and the clock is read.

How a folder is listed is up to the system that the program runs on, so the
program is given what lists it (`Lister`).
-/

namespace Signoff.Program

open CommandLine

/-- Lists the files below a folder, each by the names that lead to it from
there. At any other path there is nothing to list. -/
abbrev Lister := String → IO (Option (List (List String)))

/-- The system's number for the failure to read a folder as a file. -/
def folderCode : UInt32 := 21

def failureOf : IO.Error → File.Failure
  | .noFileOrDirectory _ _ _ => .notFound
  | .inappropriateType _ code _ =>
      if code = folderCode then .isFolder else .notFolder
  | error => .other (toString error)

def readFile (path : String) : IO File := do
  try
    return .ok (← IO.FS.readBinFile path)
  catch error =>
    return .error (failureOf error)

/-- The files that an invocation reads, the folders that it walks, and the
standard input if it reads that. -/
def surroundings (list : Lister) (i : Invocation) : IO Surroundings := do
  let paths := i.rulesPath :: i.listPath?.toList ++ i.rostersPath?.toList
  let files ← paths.mapM fun path => return (path, ← readFile path)
  let folders ← i.roots.mapM fun path => return (path, ← list path)
  let readsInput := i.listPath?.any fun path => Path.isDash path.toList
  let input ← if readsInput then (← IO.getStdin).readBinToEnd else pure .empty
  return {
    source := fun path =>
      .file ((List.lookup path files).getD (.error .notFound))
    filesBelow? := fun path => (List.lookup path folders).join
    input := input }

/-- Runs the program with some arguments and returns its exit code. -/
def run (list : Lister) (arguments : List String) : IO UInt32 := do
  match Invocation.ofArguments arguments with
  | .error _ =>
      IO.eprintln "error: the arguments are not understood"
      return 2
  | .ok i =>
      let surroundings ← surroundings list i
      let _ : Clock := ⟨.normalized 0 (← IO.monoNanosNow)⟩
      let outcome := execute arguments surroundings
      IO.print outcome.output
      for message in outcome.messages do
        IO.eprintln message
      return outcome.exitCode.toUInt32

end Signoff.Program
