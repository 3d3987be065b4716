/-!
# Decimal numbers

Reading numbers that are written in decimal digits, and the bounds on numbers
that have to fit into a fixed number of bits.
-/

namespace Signoff.Text

/-- At least one digit, and nothing else. -/
def isDecimal (text : List Char) : Bool :=
  !text.isEmpty && text.all Char.isDigit

/-- The number that some digits write. -/
def decimalValue (digits : List Char) : Nat :=
  digits.foldl (fun n c => 10 * n + (c.toNat - '0'.toNat)) 0

/-- The largest number of 64 bits. -/
def maxWord : Nat := 0xFFFFFFFFFFFFFFFF

/-- The largest number of 32 bits. -/
def maxHalfWord : Nat := 0xFFFFFFFF

end Signoff.Text
