/-!
# JSON values

Members of an object keep their order, and all of them are kept even when a key
is repeated; the last one is the one that counts. Numbers are told apart by how
they are written, because only a number without a point or an exponent stands
for a count.
-/

namespace Signoff

inductive Json where
  | null
  | bool (b : Bool)
  /-- A number written as an integer. -/
  | integer (n : Int)
  /-- Any other number, as it is written. Minus zero is one of them. -/
  | decimal (text : String)
  | string (s : String)
  | array (items : List Json)
  | object (members : List (String × Json))

namespace Json

/-- The integer `n`, if it is a count of at most `bound`. -/
def count? (bound : Nat) : Json → Option Nat
  | .integer (.ofNat n) => if n ≤ bound then some n else none
  | _ => none

def string? : Json → Option String
  | .string s => some s
  | _ => none

/-- The strings of an array that holds nothing else. -/
def strings? : Json → Option (List String)
  | .array items => items.mapM string?
  | _ => none

/-- The value of a key. -/
def member? (members : List (String × Json)) (key : String) : Option Json :=
  List.lookup key members.reverse

/-- The members of a record with the named fields. A record is written as an
object, or as an array that gives fields in order and may leave out the last
ones. -/
def record? (names : List String) : Json → Option (List (String × Json))
  | .object members => some members
  | .array items =>
      if items.length ≤ names.length then some (names.zip items) else none
  | _ => none

end Json

end Signoff
