import BrainPiet.Text.Decimal
import BrainPiet.Text.Quoted

/-!
# Numerals

An integer is read from blanks, an optional sign, decimal digits of any script and blanks again.
A single low line may stand between two digits.
-/

namespace BrainPiet.Text

/-- The zeros of the decimal digits of each script; the nine digits above follow each zero. -/
def zeros : List Nat :=
  [0x30, 0x660, 0x6F0, 0x7C0, 0x966, 0x9E6, 0xA66, 0xAE6, 0xB66, 0xBE6, 0xC66, 0xCE6, 0xD66,
    0xDE6, 0xE50, 0xED0, 0xF20, 0x1040, 0x1090, 0x17E0, 0x1810, 0x1946, 0x19D0, 0x1A80, 0x1A90,
    0x1B50, 0x1BB0, 0x1C40, 0x1C50, 0xA620, 0xA8D0, 0xA900, 0xA9D0, 0xA9F0, 0xAA50, 0xABF0,
    0xFF10, 0x104A0, 0x10D30, 0x11066, 0x110F0, 0x11136, 0x111D0, 0x112F0, 0x11450, 0x114D0,
    0x11650, 0x116C0, 0x11730, 0x118E0, 0x11950, 0x11C50, 0x11D50, 0x11DA0, 0x16A60, 0x16AC0,
    0x16B50, 0x1D7CE, 0x1D7D8, 0x1D7E2, 0x1D7EC, 0x1D7F6, 0x1E140, 0x1E2F0, 0x1E950, 0x1FBF0]

/-- The value of a decimal digit of any script. -/
def digit? (c : Char) : Option Nat :=
  (zeros.find? fun first ↦ first ≤ c.toNat && c.toNat < first + 10).map (c.toNat - ·)

/-- The blanks that may surround a numeral. -/
def isBlank (c : Char) : Bool :=
  let n := c.toNat
  (0x09 ≤ n && n ≤ 0x0D) || (0x2000 ≤ n && n ≤ 0x200A) ||
    [0x20, 0x85, 0xA0, 0x1680, 0x2028, 0x2029, 0x202F, 0x205F, 0x3000].contains n

/-- The digits at the head of a text and what follows them. -/
def takeDigits : List Char → List Nat × List Char
  | '_' :: c :: rest =>
    match digit? c with
    | some d => let (ds, after) := takeDigits rest; (d :: ds, after)
    | none => ([], '_' :: c :: rest)
  | c :: rest =>
    match digit? c with
    | some d => let (ds, after) := takeDigits rest; (d :: ds, after)
    | none => ([], c :: rest)
  | [] => ([], [])

/-- The number that digits spell, the most significant first. -/
def ofDigits (digits : List Nat) : Nat := digits.foldl (fun n d ↦ 10 * n + d) 0

/-- The number of an unsigned numeral, with blanks allowed after it. -/
def unsigned? (text : List Char) : Option Nat :=
  match takeDigits text with
  | ([], _) => none
  | (digits, after) =>
    if text.head? = some '_' ∨ digits.length > digitLimit ∨ !after.all isBlank then none
    else some (ofDigits digits)

/-- The integer of a numeral. -/
def integer? (text : List Char) : Option Int :=
  match text.dropWhile isBlank with
  | '-' :: rest => (unsigned? rest).map fun n ↦ -(n : Int)
  | '+' :: rest => (unsigned? rest).map fun n ↦ (n : Int)
  | rest => (unsigned? rest).map fun n ↦ (n : Int)

/-- Why a text is no positive integer. -/
inductive NotPositive
  | invalid (text : Phrase)
  | tooSmall (value : Int)
  deriving DecidableEq, Repr

/-- The wording of each reason. -/
def NotPositive.message : NotPositive → String
  | invalid text => "invalid integer: " ++ quotedPhrase text
  | tooSmall value => "must be a positive integer, got " ++ toString value

/-- The positive integer of a numeral. -/
def positive (text : Phrase) : Except NotPositive Nat :=
  match (text.mapM Letter.char?).bind integer? with
  | none => .error (.invalid text)
  | some n => if 0 < n then .ok n.toNat else .error (.tooSmall n)

end BrainPiet.Text
