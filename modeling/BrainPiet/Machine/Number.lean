import BrainPiet.Text.Numeral

/-!
# Numbers in the input and the output of a machine

A number in the input is a run of digits after blanks and an optional minus sign. The bytes are read
as characters of the same code. Superscript digits belong to such a run although no number can be
made of them.
-/

namespace BrainPiet

/-- Why a number could not be read or written. -/
inductive NumberFault
  | notDecimal (text : String)
  | tooManyDigits (count : Nat)
  | unwritable
  deriving DecidableEq, Repr, Inhabited

namespace NumberFault

/-- The most characters of a quoted text that a message shows. -/
def shownLength : Nat := 200

private def limitText : String :=
  "Exceeds the limit (" ++ toString Text.digitLimit ++ " digits) for integer string conversion"

private def adviceText : String := "; use sys.set_int_max_str_digits() to increase the limit"

/-- The wording of each fault. -/
def message : NumberFault → String
  | notDecimal text =>
    "invalid literal for int() with base 10: " ++
      String.ofList ((Text.quoted text).toList.take shownLength)
  | tooManyDigits count =>
    limitText ++ ": value has " ++ toString count ++ " digits" ++ adviceText
  | unwritable => limitText ++ adviceText

end NumberFault

namespace Byte

/-- Blanks that may stand before a number. -/
def isBlank (b : UInt8) : Bool :=
  (0x09 ≤ b && b ≤ 0x0D) || (0x1C ≤ b && b ≤ 0x20) || b == 0x85 || b == 0xA0

/-- The decimal digits. -/
def isDecimal (b : UInt8) : Bool := 0x30 ≤ b && b ≤ 0x39

/-- The digits that a run may hold: the decimal ones, and superscript one, two and three. -/
def isDigit (b : UInt8) : Bool := isDecimal b || b == 0xB2 || b == 0xB3 || b == 0xB9

/-- The minus sign. -/
def minus : UInt8 := 0x2D

/-- The bytes as characters of the same code. -/
def text (bytes : List UInt8) : String :=
  String.ofList (bytes.map fun b ↦ Char.ofNat b.toNat)

/-- The bytes of a text; each character of a decimal number is one byte. -/
def ofText (text : String) : List UInt8 := text.toUTF8.toList

end Byte

/-- What was found where a number was looked for, and the input behind it. -/
structure NumberScan where
  negative : Bool
  digits : List UInt8
  rest : List UInt8
  deriving DecidableEq, Repr

namespace NumberScan

/-- Passes over blanks, then takes an optional minus sign, then a run of digits. -/
def ofInput (input : List UInt8) : NumberScan :=
  let trimmed := input.dropWhile Byte.isBlank
  let negative := trimmed.head? = some Byte.minus
  let body := if negative then trimmed.tail else trimmed
  ⟨negative, body.takeWhile Byte.isDigit, body.dropWhile Byte.isDigit⟩

/-- The text of the number, sign included. -/
def text (s : NumberScan) : String := (if s.negative then "-" else "") ++ Byte.text s.digits

/-- The number that was found: none if there were no digits. -/
def value (s : NumberScan) : Except NumberFault (Option Int) :=
  let decimals := s.digits.takeWhile Byte.isDecimal
  if s.digits.isEmpty then .ok none
  else if decimals.length > Text.digitLimit then .error (.tooManyDigits decimals.length)
  else if decimals.length < s.digits.length then .error (.notDecimal s.text)
  else
    let n : Int := Text.ofDigits (decimals.map fun b ↦ b.toNat - 0x30)
    .ok (some (if s.negative then -n else n))

end NumberScan

end BrainPiet
