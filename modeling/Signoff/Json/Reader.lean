import Signoff.Json.Token

/-!
# Reading JSON

The value of a list of tokens. The containers that have been opened and not
closed wait on a stack, each with the parts that it has so far, the last one
first. Every token moves the reader on by one step, from what it expects to what
it expects next.
-/

namespace Signoff.Json

/-- A container part of the way through. -/
inductive Frame where
  | array (done : List Json)
  | object (done : List (String × Json)) (key : String)

/-- What may come next. -/
inductive Expected where
  | value
  /-- The first item of an array, or its end. -/
  | itemOrEnd
  /-- The first key of an object, or its end. -/
  | keyOrEnd
  /-- A key of an object that has these members. -/
  | key (done : List (String × Json))
  | colon (done : List (String × Json)) (key : String)
  /-- What goes on after a finished value, or the end. -/
  | next (j : Json)

/-- The tokens make up one value. -/
def ofTokens? : List Frame → Expected → List Token → Option Json
  | stack, .value, .scalar j :: ts => ofTokens? stack (.next j) ts
  | stack, .value, .openArray :: ts => ofTokens? stack .itemOrEnd ts
  | stack, .value, .openObject :: ts => ofTokens? stack .keyOrEnd ts
  | stack, .itemOrEnd, .closeArray :: ts =>
      ofTokens? stack (.next (.array [])) ts
  | stack, .itemOrEnd, .scalar j :: ts =>
      ofTokens? (.array [] :: stack) (.next j) ts
  | stack, .itemOrEnd, .openArray :: ts =>
      ofTokens? (.array [] :: stack) .itemOrEnd ts
  | stack, .itemOrEnd, .openObject :: ts =>
      ofTokens? (.array [] :: stack) .keyOrEnd ts
  | stack, .keyOrEnd, .closeObject :: ts =>
      ofTokens? stack (.next (.object [])) ts
  | stack, .keyOrEnd, .scalar (.string key) :: ts =>
      ofTokens? stack (.colon [] key) ts
  | stack, .key done, .scalar (.string key) :: ts =>
      ofTokens? stack (.colon done key) ts
  | stack, .colon done key, .colon :: ts =>
      ofTokens? (.object done key :: stack) .value ts
  | .array done :: stack, .next j, .comma :: ts =>
      ofTokens? (.array (j :: done) :: stack) .value ts
  | .array done :: stack, .next j, .closeArray :: ts =>
      ofTokens? stack (.next (.array (j :: done).reverse)) ts
  | .object done key :: stack, .next j, .comma :: ts =>
      ofTokens? stack (.key ((key, j) :: done)) ts
  | .object done key :: stack, .next j, .closeObject :: ts =>
      ofTokens? stack (.next (.object ((key, j) :: done).reverse)) ts
  | [], .next j, [] => some j
  | _, _, _ => none

/-- Reads a text that is one JSON value. -/
def parse? (text : String) : Option Json :=
  (tokens? text.toList).bind (ofTokens? [] .value)

end Signoff.Json
