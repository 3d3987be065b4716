import Signoff.Json.Basic
import Signoff.Text.Decimal

/-!
# Tokens of JSON

The text of a JSON value is first cut into tokens: punctuation, and the values
that have no others inside. A string names characters by escapes, and one beyond
`U+FFFF` by two escapes in a row, a leading surrogate and a trailing one. A
surrogate that stands alone names nothing, and the text is refused.

`tokens?` takes one token after the other, each from what the one before it has
left (`length_token?_lt`).
-/

namespace Signoff.Json

inductive Token where
  | openArray
  | closeArray
  | openObject
  | closeObject
  | comma
  | colon
  /-- A value without parts. -/
  | scalar (j : Json)

/-- The blanks between tokens, which are fewer than Unicode has. -/
def isSpace (c : Char) : Bool := c == ' ' || c == '\t' || c == '\n' || c == '\r'

/-! ## Numbers -/

/-- The characters that numbers are made of. -/
def isNumberChar (c : Char) : Bool :=
  c.isDigit || c == '-' || c == '+' || c == '.' || c == 'e' || c == 'E'

/-- Digits without needless zeros in front. -/
def isWhole (digits : List Char) : Bool :=
  Text.isDecimal digits && (digits.head? != some '0' || digits == ['0'])

/-- An exponent with its sign, after the letter. -/
def isExponent : List Char → Bool
  | '+' :: digits => Text.isDecimal digits
  | '-' :: digits => Text.isDecimal digits
  | digits => Text.isDecimal digits

/-- What follows the whole part of a number that is not an integer: a point with
digits, an exponent, or both. -/
def isFraction : List Char → Bool
  | '.' :: s =>
      Text.isDecimal (s.takeWhile Char.isDigit) &&
        match s.dropWhile Char.isDigit with
        | [] => true
        | c :: exponent => (c == 'e' || c == 'E') && isExponent exponent
  | c :: exponent => (c == 'e' || c == 'E') && isExponent exponent
  | [] => false

/-- Reads a number that is all of the text. -/
def number? (text : List Char) : Option Json :=
  let negative := text.head? == some '-'
  let unsigned := if negative then text.tail else text
  let whole := unsigned.takeWhile Char.isDigit
  let rest := unsigned.dropWhile Char.isDigit
  if !isWhole whole then none
  else if !rest.isEmpty then
    if isFraction rest then some (.decimal (.ofList text)) else none
  else if negative then
    if whole == ['0'] then some (.decimal (.ofList text))
    else some (.integer (-(Text.decimalValue whole)))
  else some (.integer (Text.decimalValue whole))

/-! ## Strings -/

/-- How far the reading of a string has come. -/
inductive Mode where
  | plain
  /-- After a backslash. -/
  | escaped
  /-- In an escape by number, with so many digits to go after the next one. A
  leading surrogate may be waiting for its partner. -/
  | numbered (leading? : Option Nat) (left : Nat) (value : Nat)
  /-- After a leading surrogate: a backslash has to follow. -/
  | leading (unit : Nat)
  /-- After a leading surrogate and a backslash: a numbered escape has to
  follow. -/
  | leadingEscaped (unit : Nat)

def hexValue? (c : Char) : Option Nat :=
  if c.isDigit then some (c.toNat - '0'.toNat)
  else if 'a' ≤ c && c ≤ 'f' then some (c.toNat - 'a'.toNat + 10)
  else if 'A' ≤ c && c ≤ 'F' then some (c.toNat - 'A'.toNat + 10)
  else none

/-- The character that a one-letter escape names. -/
def escape? (c : Char) : Option Char :=
  match c with
  | '"' => some '"'
  | '\\' => some '\\'
  | '/' => some '/'
  | 'b' => some '\x08'
  | 'f' => some '\x0c'
  | 'n' => some '\n'
  | 'r' => some '\r'
  | 't' => some '\t'
  | _ => none

def isLeading (unit : Nat) : Bool := 0xD800 ≤ unit && unit < 0xDC00

def isTrailing (unit : Nat) : Bool := 0xDC00 ≤ unit && unit < 0xE000

/-- What a finished number does: it names a character, or leads to the next
mode, or is refused. -/
def unit? (leading? : Option Nat) (unit : Nat) : Option (Char ⊕ Mode) :=
  match leading? with
  | some first =>
      if isTrailing unit then
        some (.inl (Char.ofNat
          (0x10000 + (first - 0xD800) * 0x400 + (unit - 0xDC00))))
      else none
  | none =>
      if isLeading unit then some (.inr (.leading unit))
      else if isTrailing unit then none
      else some (.inl (Char.ofNat unit))

/-- Reads a string from behind its opening quote to its closing one. `done` has
the characters so far, the last one first. -/
def stringFrom (done : List Char) :
    Mode → List Char → Option (String × List Char)
  | _, [] => none
  | .plain, c :: s =>
      if c = '"' then some (.ofList done.reverse, s)
      else if c = '\\' then stringFrom done .escaped s
      else if c.toNat < 0x20 then none
      else stringFrom (c :: done) .plain s
  | .escaped, c :: s =>
      if c = 'u' then stringFrom done (.numbered none 3 0) s
      else
        match escape? c with
        | some named => stringFrom (named :: done) .plain s
        | none => none
  | .numbered leading? left value, c :: s =>
      match hexValue? c with
      | none => none
      | some digit =>
          match left with
          | left + 1 =>
              stringFrom done (.numbered leading? left (16 * value + digit)) s
          | 0 =>
              match unit? leading? (16 * value + digit) with
              | none => none
              | some (.inl named) => stringFrom (named :: done) .plain s
              | some (.inr mode) => stringFrom done mode s
  | .leading unit, c :: s =>
      if c = '\\' then stringFrom done (.leadingEscaped unit) s else none
  | .leadingEscaped unit, c :: s =>
      if c = 'u' then stringFrom done (.numbered (some unit) 3 0) s else none

/-- A string takes at least its closing quote. -/
theorem length_stringFrom_lt {done : List Char} {mode : Mode} {s : List Char}
    {t : String} {rest : List Char}
    (h : stringFrom done mode s = some (t, rest)) : rest.length < s.length := by
  fun_induction stringFrom done mode s <;> simp_all <;> omega

/-! ## All tokens -/

/-- A value that is written as a word. -/
def word? : List Char → Option (Json × List Char)
  | 'n' :: 'u' :: 'l' :: 'l' :: rest => some (.null, rest)
  | 't' :: 'r' :: 'u' :: 'e' :: rest => some (.bool true, rest)
  | 'f' :: 'a' :: 'l' :: 's' :: 'e' :: rest => some (.bool false, rest)
  | _ => none

/-- A number at the front of a text. -/
def leadingNumber? (s : List Char) : Option (Json × List Char) :=
  let text := s.takeWhile isNumberChar
  if text = [] then none else (number? text).map (·, s.dropWhile isNumberChar)

/-- A value without parts at the front of a text. -/
def scalar? : List Char → Option (Json × List Char)
  | '"' :: s => (stringFrom [] .plain s).map fun (t, rest) => (.string t, rest)
  | s =>
      match leadingNumber? s with
      | some read => some read
      | none => word? s

def punctuation? : Char → Option Token
  | '[' => some .openArray
  | ']' => some .closeArray
  | '\x7b' => some .openObject
  | '\x7d' => some .closeObject
  | ',' => some .comma
  | ':' => some .colon
  | _ => none

/-- The token at the front of a text, and what it leaves. -/
def token? : List Char → Option (Token × List Char)
  | [] => none
  | c :: s =>
      match punctuation? c with
      | some t => some (t, s)
      | none => (scalar? (c :: s)).map fun (j, rest) => (.scalar j, rest)

theorem length_word?_lt {s rest : List Char} {j : Json}
    (h : word? s = some (j, rest)) :
    rest.length < s.length := by
  unfold word? at h
  split at h <;> cases h <;> simp only [List.length_cons] <;> omega

theorem length_leadingNumber?_lt {s rest : List Char} {j : Json}
    (h : leadingNumber? s = some (j, rest)) : rest.length < s.length := by
  unfold leadingNumber? at h
  dsimp only at h
  split at h
  · cases h
  · next hne =>
      obtain ⟨_, -, hEq⟩ := Option.map_eq_some_iff.1 h
      obtain rfl := (Prod.mk.inj hEq).2
      have hsum := congrArg List.length
        (List.takeWhile_append_dropWhile (p := isNumberChar) (l := s))
      have hpos := List.length_pos_iff.2 hne
      rw [List.length_append] at hsum
      omega

theorem length_scalar?_lt {s rest : List Char} {j : Json}
    (h : scalar? s = some (j, rest)) :
    rest.length < s.length := by
  unfold scalar? at h
  split at h
  · next s =>
      obtain ⟨⟨_, _⟩, hstring, hEq⟩ := Option.map_eq_some_iff.1 h
      cases hEq
      exact Nat.lt_succ_of_lt (length_stringFrom_lt hstring)
  · split at h
    · next hnumber => exact length_leadingNumber?_lt (h ▸ hnumber)
    · exact length_word?_lt h

theorem length_token?_lt {s rest : List Char} {t : Token}
    (h : token? s = some (t, rest)) :
    rest.length < s.length := by
  unfold token? at h
  split at h
  · cases h
  · split at h
    · cases h
      exact Nat.lt_succ_self _
    · obtain ⟨⟨_, _⟩, hscalar, hEq⟩ := Option.map_eq_some_iff.1 h
      cases hEq
      exact length_scalar?_lt hscalar

/-- The tokens of a text, if it has nothing but tokens and blanks. -/
def tokens? (s : List Char) : Option (List Token) :=
  match _hs : s.dropWhile isSpace with
  | [] => some []
  | c :: front =>
      match _ht : token? (c :: front) with
      | none => none
      | some (t, rest) => (tokens? rest).map (t :: ·)
termination_by s.length
decreasing_by
  exact Nat.lt_of_lt_of_le (length_token?_lt _ht)
    (_hs ▸ (List.dropWhile_sublist isSpace).length_le)

end Signoff.Json
