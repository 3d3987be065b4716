import Signoff.RuleFile

/-!
# Reading files

What may come of an attempt to read a file as text, and the rule file that a
file holds.
-/

namespace Signoff

/-- Why a file could not be read. -/
inductive File.Failure where
  | notFound
  | isFolder
  /-- The way to the file leads through something that is not a folder. -/
  | notFolder
  /-- The path, or a name in it, is longer than a file system allows. -/
  | tooLong
  | notText
  /-- Anything else that stands in the way, in the words of the system. -/
  | other (message : String)
  deriving DecidableEq

/-- The contents of a file, or why there are none. -/
abbrev File := Except File.Failure ByteArray

namespace File

def Failure.message : Failure → String
  | .notFound => "No such file or directory (os error 2)"
  | .isFolder => "Is a directory (os error 21)"
  | .notFolder => "Not a directory (os error 20)"
  | .tooLong => "File name too long (os error 36)"
  | .notText => "stream did not contain valid UTF-8"
  | .other message => message

/-- The text that some bytes encode in UTF-8. -/
def decode (bytes : ByteArray) : Except Failure String :=
  match String.fromUTF8? bytes with
  | some text => .ok text
  | none => .error .notText

theorem decode_toUTF8 (text : String) : decode text.toUTF8 = .ok text := by
  rw [decode, String.fromUTF8?, String.toUTF8_eq_toByteArray,
    dif_pos text.isValidUTF8]
  rfl

def text (file : File) : Except Failure String := file.bind decode

end File

/-- The rule file in a file. -/
def RuleFile.read (file : File) : Except File.Failure RuleFile :=
  file.text.map RuleFile.parse

/-- What is said of a rule file that cannot be read. -/
def RuleFile.complaint (failure : File.Failure) : String :=
  "failed to read rule file: " ++ failure.message

end Signoff
