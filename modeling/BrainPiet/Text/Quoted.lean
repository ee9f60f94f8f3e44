import BrainPiet.Text.Letter
import BrainPiet.Text.Printable

/-!
# Quoted text

A text is quoted so that a reader can tell where it ends and see every character in it. Single
quotes stand around it, or double quotes when it holds a single quote and no double one.
-/

namespace BrainPiet.Text

/-- A number in lower-case hexadecimal, filled with zeros to a width. -/
def hexadecimal (width n : Nat) : String :=
  let digits := Nat.toDigits 16 n
  String.ofList (List.replicate (width - digits.length) '0' ++ digits)

/-- One character inside quotes of the given kind. -/
def quotedChar (mark c : Char) : String :=
  if c = mark ∨ c = '\\' then String.ofList ['\\', c]
  else if c = '\n' then "\\n"
  else if c = '\t' then "\\t"
  else if c = '\r' then "\\r"
  else if isPrintable c then c.toString
  else if c.toNat < 0x100 then "\\x" ++ hexadecimal 2 c.toNat
  else if c.toNat < 0x10000 then "\\u" ++ hexadecimal 4 c.toNat
  else "\\U" ++ hexadecimal 8 c.toNat

/-- A byte that belongs to no character, as a message shows it. -/
def strayMark (b : UInt8) : String := "\\udc" ++ hexadecimal 2 b.toNat

/-- One letter inside quotes of the given kind. -/
def quotedLetter (mark : Char) : Letter → String
  | .char c => quotedChar mark c
  | .stray b => strayMark b

/-- The kind of quote that stands around a text. -/
def quoteMark (text : Phrase) : Char :=
  if text.contains (.char '\'') ∧ ¬ text.contains (.char '"') then '"' else '\''

/-- Letters in quotes. -/
def quotedPhrase (text : Phrase) : String :=
  let mark := quoteMark text
  mark.toString ++ String.join (text.map (quotedLetter mark)) ++ mark.toString

/-- The text in quotes. -/
def quoted (text : String) : String := quotedPhrase (Phrase.ofText text)

/-- Letters as they stand in a message. -/
def shown (text : Phrase) : String :=
  String.join (text.map fun
    | .char c => c.toString
    | .stray b => strayMark b)

end BrainPiet.Text
