/-!
# Letters from outside

The words of a command line and the names of files consist of bytes. Bytes that make up a character
are read as such, and each of the others is a letter of its own. Such a letter has no place in a
stream of characters.
-/

namespace BrainPiet

/-- A letter: a character, or a byte that belongs to none. -/
inductive Letter
  | char (c : Char)
  | stray (b : UInt8)
  deriving DecidableEq, Repr, Inhabited

namespace Letter

instance : Hashable Letter where
  hash
    | char c => hash (2 * c.toNat)
    | stray b => hash (2 * b.toNat + 1)

/-- The character that a letter is. -/
def char? : Letter → Option Char
  | char c => some c
  | stray _ => none

/-- The stray byte that a letter is. -/
def stray? : Letter → Option UInt8
  | char _ => none
  | stray b => some b

end Letter

/-- A text from outside. -/
abbrev Phrase := List Letter

namespace Phrase

/-- The letters of a text. -/
def ofText (text : String) : Phrase := text.toList.map .char

/-- The text of letters that are characters all. -/
def text? (p : Phrase) : Option String := (p.mapM Letter.char?).map String.ofList

end Phrase

end BrainPiet
