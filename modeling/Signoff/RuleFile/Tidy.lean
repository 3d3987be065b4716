import Signoff.RuleFile

/-!
# Tidy rule files

A rule file with everything taken out that is dropped when it is read. Words
that mention no owner are deleted from the lines that make a rule, and a line
that makes none is left blank. Nothing else is touched: patterns and mentions
stay with the blanks around them, comments stay behind rules, and each line
keeps its number.
-/

namespace Signoff

namespace Text

/-- The blanks in front of the first word. -/
def margin (s : List Char) : List Char := s.takeWhile isBlank

def firstWord (s : List Char) : List Char :=
  (s.dropWhile isBlank).takeWhile (!isBlank ·)

def afterFirstWord (s : List Char) : List Char :=
  (s.dropWhile isBlank).dropWhile (!isBlank ·)

/-- What remains of a word. -/
def kept (keep : List Char → Bool) (word : List Char) : List Char :=
  if keep word then word else []

/-- A text that goes on after `word`, without the words that are not to be kept.
The blanks stay. -/
def keepWordsFrom (keep : List Char → Bool) (word : List Char) :
    List Char → List Char
  | [] => kept keep word
  | c :: rest =>
      if isBlank c then kept keep word ++ c :: keepWordsFrom keep [] rest
      else keepWordsFrom keep (word ++ [c]) rest

/-- A text without the words that are not to be kept. -/
def keepWords (keep : List Char → Bool) (s : List Char) : List Char :=
  keepWordsFrom keep [] s

end Text

namespace RuleFile

/-- Does the word mention an owner? -/
def isMention (word : List Char) : Bool := (Owner.ofMention? word).isSome

/-- A pattern and the mentions after it, without the words among them that are
none. -/
def tidiedBody (body : List Char) : List Char :=
  Text.margin body ++
    (Text.firstWord body ++ Text.keepWords isMention (Text.afterFirstWord body))

/-- A line that makes a rule, without the words that are dropped from it. -/
def tidiedRule (line : List Char) : List Char :=
  tidiedBody (line.takeWhile (· != '#')) ++ line.dropWhile (· != '#')

/-- A line without what is dropped from it, which is all of it if it makes no
rule. -/
def tidiedLine (line : List Char) : List Char :=
  match Statement.ofLine? line with
  | none => []
  | some s => if s.owners.isEmpty then [] else tidiedRule line

/-- A text without what is dropped when it is read as a rule file. -/
def tidied (text : List Char) : List Char :=
  ['\n'].intercalate ((text.splitOn '\n').map tidiedLine)

end RuleFile

end Signoff
