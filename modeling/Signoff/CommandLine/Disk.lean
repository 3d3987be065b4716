import Signoff.File
import Signoff.CommandLine.Path

/-!
# Disks

A disk held in memory: folders within folders and files in them. A path is
followed from a working folder one component at a time, and each component but
the last has to lead to a folder. A slash at the end asks for a folder, too.
Names and paths have a greatest length, which is counted in bytes.

Next to what is put on it, a disk has what every system has (`Tree.system`): its
usual folders, a file that is always empty, and names for the standard input.
-/

namespace Signoff

/-- What there is to read at a path. -/
inductive Source where
  | file (file : File)
  /-- The standard input. -/
  | input

/-- A file, or a folder with what is in it. -/
inductive Tree where
  | file (contents : ByteArray)
  /-- The standard input under the name of a file. -/
  | input
  | folder (entries : List (String × Tree))

namespace Tree

/-- The folder with nothing in it. -/
def empty : Tree := .folder []

/-- The number of bytes that a name may have. -/
def nameLimit : Nat := 255

/-- The number of bytes that a path may have. -/
def pathLimit : Nat := 4095

/-- What is found by going on from a place by some names. The folders around the
place are given with the innermost first, and the outermost counts as being
inside itself. -/
def follow (here : Tree) (around : List Tree) :
    List String → Except File.Failure Tree
  | [] => .ok here
  | name :: names =>
      match here with
      | .file _ | .input => .error .notFolder
      | .folder entries =>
          if name = "." then follow here around names
          else if name = ".." then
            match around with
            | [] => follow here [] names
            | outer :: further => follow outer further names
          else if nameLimit < name.utf8ByteSize then .error .tooLong
          else
            match List.lookup name entries with
            | some inner => follow inner (here :: around) names
            | none => .error .notFound

/-- The names by which a path is followed. -/
def names (path : String) : List String :=
  let parts := Path.components path.toList
  (parts.filter (· != [])).map String.ofList ++
    if parts.getLast? == some [] then ["."] else []

mutual

/-- The files of a tree, each by the names that lead to it. -/
def files : Tree → List (List String)
  | .file _ | .input => [[]]
  | .folder entries => filesOf entries

def filesOf : List (String × Tree) → List (List String)
  | [] => []
  | (name, inner) :: rest => inner.files.map (name :: ·) ++ filesOf rest

end

/-- Puts something at the end of some names, and folders on the way to it. -/
def place (placed : Tree) : List String → Tree → Tree
  | [], _ => placed
  | name :: names, .folder entries =>
      let inner := place placed names ((List.lookup name entries).getD empty)
      .folder (entries.filter (·.1 != name) ++ [(name, inner)])
  | name :: names, _ => .folder [(name, place placed names empty)]

/-- The folders that a system comes with. -/
def systemFolders : List String :=
  ["bin", "boot", "etc", "home", "lib", "media", "mnt", "opt", "root", "run",
    "sbin", "srv", "sys", "tmp", "usr", "var"]

/-- A system on which nothing has been put yet. -/
def system : Tree :=
  .folder ([
    ("dev", .folder [("null", .file .empty), ("stdin", .input),
      ("fd", .folder [("0", .input)])]),
    ("proc", .folder [("self", .folder [("fd", .folder [("0", .input)])])])] ++
    systemFolders.map fun name => (name, empty))

end Tree

/-- A tree, and the folder in it from which paths are followed. -/
structure Disk where
  root : Tree
  /-- The names that lead to the working folder. -/
  working : List String

namespace Disk

/-- What is at a path. -/
def find (d : Disk) (path : String) : Except File.Failure Tree :=
  if path.isEmpty then .error .notFound
  else if Tree.pathLimit < path.utf8ByteSize then .error .tooLong
  else if path.toList.head? == some '/' then d.root.follow [] (Tree.names path)
  else d.root.follow [] (d.working ++ Tree.names path)

/-- Where the text at a path comes from. -/
def source (d : Disk) (path : String) : Source :=
  match d.find path with
  | .ok (.file contents) => .file (.ok contents)
  | .ok .input => .input
  | .ok (.folder _) => .file (.error .isFolder)
  | .error failure => .file (.error failure)

/-- The files below a folder, each by the names that lead to it from there. -/
def filesBelow? (d : Disk) (path : String) : Option (List (List String)) :=
  match d.find path with
  | .ok (.folder entries) => some (Tree.filesOf entries)
  | _ => none

end Disk

end Signoff
