import Signoff.Json.Basic

/-!
# Printing JSON

One member or item a line, each level indented by two spaces. Text is written as
it is, except for what a JSON string cannot hold.
-/

namespace Signoff.Json

/-- The hexadecimal digits of a number below 256. -/
def hexPair (n : Nat) : String :=
  .ofList [Nat.digitChar (n / 16), Nat.digitChar (n % 16)]

/-- A character within a string. Control characters have short names or are
written by number. -/
def quoteChar (c : Char) : String :=
  match c with
  | '"' => "\\\""
  | '\\' => "\\\\"
  | '\x08' => "\\b"
  | '\x0c' => "\\f"
  | '\n' => "\\n"
  | '\r' => "\\r"
  | '\t' => "\\t"
  | c => if c.toNat < 0x20 then "\\u00" ++ hexPair c.toNat else c.toString

def quote (s : String) : String :=
  "\"" ++ String.join (s.toList.map quoteChar) ++ "\""

/-- Lines between brackets, or the brackets alone. -/
def block (opening closing : String) (indent : Nat) : List String → String
  | [] => opening ++ closing
  | lines =>
      let margin := String.ofList (List.replicate (2 * indent) ' ')
      opening ++ "\n" ++
        ",\n".intercalate (lines.map fun line => margin ++ "  " ++ line) ++
        "\n" ++ margin ++ closing

mutual

/-- A value at a level of indentation. -/
def pretty (indent : Nat) : Json → String
  | .null => "null"
  | .bool b => if b then "true" else "false"
  | .integer n => toString n
  | .decimal text => text
  | .string s => quote s
  | .array items => block "[" "]" indent (prettyItems (indent + 1) items)
  | .object members =>
      block "\x7b" "\x7d" indent (prettyMembers (indent + 1) members)

def prettyItems (indent : Nat) : List Json → List String
  | [] => []
  | item :: rest => pretty indent item :: prettyItems indent rest

def prettyMembers (indent : Nat) : List (String × Json) → List String
  | [] => []
  | (key, value) :: rest =>
      (quote key ++ ": " ++ pretty indent value) :: prettyMembers indent rest

end

/-- A value that stands alone. -/
def render (j : Json) : String := pretty 0 j

end Signoff.Json
