import Signoff.Text.Blank

/-!
# Paths on the command line

A path is a text whose components are separated by slashes. Paths are taken as
they are written, with one exception: a component `.` at the front says nothing,
and it is dropped together with all that then says nothing at the front or at
the back, which is slashes and further `.` components. What stands in between
stays as it is.
-/

namespace Signoff.Path

/-- The stretches between slashes, empty ones included. -/
def components (path : List Char) : List (List Char) := path.splitOn '/'

/-- A component that leads nowhere. -/
def isIdle (component : List Char) : Bool :=
  component == [] || component == ['.']

/-- Components without the idle ones at the front and at the back. -/
def trimIdle (components : List (List Char)) : List (List Char) :=
  ((components.dropWhile isIdle).reverse.dropWhile isIdle).reverse

def ofComponents (components : List (List Char)) : List Char :=
  ['/'].intercalate components

/-- A path without the `.` that it starts with, if it does. -/
def relative (path : List Char) : List Char :=
  match components path with
  | ['.'] :: rest => ofComponents (trimIdle rest)
  | _ => path

/-- The path to something in the folder at another path. -/
def join (base name : List Char) : List Char :=
  if base.isEmpty || base.getLast? == some '/' then base ++ name
  else base ++ '/' :: name

/-- Does the path, idle components aside, say `-` and nothing else? -/
def isDash (path : List Char) : Bool :=
  match components path with
  | ['-'] :: rest => rest.all isIdle
  | _ => false

end Signoff.Path
