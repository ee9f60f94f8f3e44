import BrainPiet.Text.Numeral

/-!
# Numbers with a binary point

A number of 64 bits is a mantissa of at most 53 bits times a power of two. A decimal is read as the
nearest such number, and a number is written with the fewest digits that are read as the same number.
All arithmetic is exact.
-/

namespace BrainPiet

/-- A number of 64 bits with a binary point. -/
inductive Binary64
  | nan
  | infinite (negative : Bool)
  /-- The number `mantissa * 2 ^ exponent`. -/
  | finite (negative : Bool) (mantissa : Nat) (exponent : Int)
  deriving DecidableEq, Repr, Inhabited

namespace Binary64

/-- The bits of a mantissa. -/
def precision : Nat := 53

/-- The least exponent. -/
def leastExponent : Int := -1074

/-- The greatest exponent. -/
def greatestExponent : Int := 971

/-- A quotient of natural numbers, as a numerator and a denominator. -/
structure Ratio where
  num : Nat
  den : Nat
  deriving DecidableEq, Repr

namespace Ratio

/-- The ratio times a power of a base. -/
def scale (r : Ratio) (base : Nat) (exponent : Int) : Ratio :=
  ⟨r.num * base.pow exponent.toNat, r.den * base.pow (-exponent).toNat⟩

/-- The whole part. -/
def floor (r : Ratio) : Nat := r.num / r.den

/-- The first of two whole numbers, one apart, if the ratio is nearer to it; halfway the even one. -/
def nearer (r : Ratio) (low : Nat) : Nat :=
  match compare (2 * r.num) ((2 * low + 1) * r.den) with
  | .lt => low
  | .gt => low + 1
  | .eq => if low % 2 = 0 then low else low + 1

/-- The nearest whole number; halfway the even one. -/
def round (r : Ratio) : Nat := r.nearer r.floor

/-- Compares two ratios. -/
def order (r s : Ratio) : Ordering := compare (r.num * s.den) (s.num * r.den)

end Ratio

/-- The exponent of the number nearest to a positive ratio: the mantissa gets all its bits, unless
the exponent would be too small. -/
def exponentOf (r : Ratio) : Int :=
  let size : Int := (r.num.log2 : Int) - r.den.log2
  let size := if r.order (Ratio.scale ⟨1, 1⟩ 2 size) = .lt then size - 1 else size
  max leastExponent (size - (precision - 1 : Nat))

/-- The number nearest to a positive ratio. -/
def ofRatio (negative : Bool) (r : Ratio) : Binary64 :=
  let exponent := exponentOf r
  let mantissa := (r.scale 2 (-exponent)).round
  let (mantissa, exponent) :=
    if mantissa = Nat.pow 2 precision then (Nat.pow 2 (precision - 1), exponent + 1)
    else (mantissa, exponent)
  if greatestExponent < exponent then .infinite negative else .finite negative mantissa exponent

/-- The number zero. -/
def zero (negative : Bool) : Binary64 := .finite negative 0 leastExponent

/-- The number nearest to the decimal `digits * 10 ^ exponent`. Decimals far out of range are not
worked out. -/
def ofDecimal (negative : Bool) (digits : List Nat) (exponent : Int) : Binary64 :=
  let digits := digits.dropWhile (· = 0)
  let size := exponent + digits.length
  if digits.isEmpty ∨ size < -400 then zero negative
  else if 400 < size then .infinite negative
  else ofRatio negative (Ratio.scale ⟨Text.ofDigits digits, 1⟩ 10 exponent)

/-! ## Reading -/

private def plainDigit? (c : Char) : Option Nat := if c.isDigit then some (c.toNat - 48) else none

/-- The sign in front of a text: whether it is a minus sign, and what follows. -/
def takeSign : List Char → Bool × List Char
  | '-' :: rest => (true, rest)
  | '+' :: rest => (false, rest)
  | rest => (false, rest)

/-- The exponent at the end of a decimal. -/
def exponent? : List Char → Option Int
  | [] => some 0
  | mark :: rest =>
    let (negative, digits) := takeSign rest
    if (mark = 'e' ∨ mark = 'E') ∧ !digits.isEmpty ∧ digits.all Char.isDigit then
      let n : Int := Text.ofDigits (digits.filterMap plainDigit?)
      some (if negative then -n else n)
    else none

/-- The number of a decimal text. -/
def ofText? (text : String) : Option Binary64 :=
  let (negative, body) := takeSign text.toList
  match (String.ofList body).toLower with
  | "nan" => some .nan
  | "inf" | "infinity" => some (.infinite negative)
  | _ =>
    let whole := body.takeWhile Char.isDigit
    let (fraction, rest) := match body.dropWhile Char.isDigit with
      | '.' :: rest => (rest.takeWhile Char.isDigit, rest.dropWhile Char.isDigit)
      | rest => ([], rest)
    let digits := (whole ++ fraction).filterMap plainDigit?
    if digits.isEmpty then none
    else (exponent? rest).map fun exponent ↦
      ofDecimal negative digits (exponent - fraction.length)

/-! ## Writing -/

/-- A decimal is read as the given number: it lies between the points halfway to the neighbours, and
these points belong to numbers with an even mantissa. Below a power of two, the numbers are twice as
close. -/
def readsBack (mantissa : Nat) (exponent : Int) (decimal : Ratio) : Bool :=
  let narrow := mantissa = Nat.pow 2 (precision - 1) ∧ leastExponent < exponent
  let low := Ratio.scale ⟨4 * mantissa - (if narrow then 1 else 2), 1⟩ 2 (exponent - 2)
  let high := Ratio.scale ⟨4 * mantissa + 2, 1⟩ 2 (exponent - 2)
  let even := mantissa % 2 = 0
  (low.order decimal = .lt ∨ even ∧ low.order decimal = .eq) ∧
    (decimal.order high = .lt ∨ even ∧ decimal.order high = .eq)

/-- The least power of ten above a positive number. -/
def decimalSize (mantissa : Nat) (exponent : Int) : Int :=
  let value := Ratio.scale ⟨mantissa, 1⟩ 2 exponent
  let guess := ((mantissa.log2 + exponent) * 30103).fdiv 100000
  (([0, 1, 2, 3].map (guess + ·)).find? fun k ↦
    value.order (Ratio.scale ⟨1, 1⟩ 10 k) = .lt).getD guess

/-- The decimal that is read as the given number and is a multiple of `10 ^ exponent10`; of two the
nearer. -/
def onGrid? (mantissa : Nat) (exponent exponent10 : Int) : Option Nat :=
  let value := (Ratio.scale ⟨mantissa, 1⟩ 2 exponent).scale 10 (-exponent10)
  let hits (n : Nat) : Bool := readsBack mantissa exponent (Ratio.scale ⟨n, 1⟩ 10 exponent10)
  let low := value.floor
  match hits low, hits (low + 1) with
  | true, true => some (value.nearer low)
  | true, false => some low
  | false, true => some (low + 1)
  | false, false => none

/-- The most digits that are ever needed. -/
def mostDigits : Nat := 17

/-- The number itself as a decimal. -/
def exactly (mantissa : Nat) (exponent : Int) : Nat × Int :=
  (mantissa * Nat.pow 2 exponent.toNat * Nat.pow 5 (-exponent).toNat, min exponent 0)

/-- The fewest digits that are read as a positive number, and the exponent of the first of them. -/
def shortest (mantissa : Nat) (exponent : Int) : List Char × Int :=
  let size := decimalSize mantissa exponent
  let onGrid (n : Nat) : Option (Nat × Int) :=
    (onGrid? mantissa exponent (size - n)).map fun digits ↦ (digits, size - n)
  let (digits, exponent10) := (((List.range mostDigits).map (· + 1)).findSome? onGrid).getD
    (exactly mantissa exponent)
  let written := Nat.toDigits 10 digits
  ((written.reverse.dropWhile (· = '0')).reverse, exponent10 + written.length - 1)

/-- Digits with a point behind the first or in front of it; the first has the given exponent. -/
def positional (digits : List Char) (exponent : Int) : String :=
  if exponent < 0 then
    "0." ++ String.ofList (List.replicate (-exponent - 1).toNat '0' ++ digits)
  else
    let places := exponent.toNat + 1
    let whole := digits.take places ++ List.replicate (places - digits.length) '0'
    let fraction := digits.drop places
    String.ofList whole ++ "." ++ if fraction.isEmpty then "0" else String.ofList fraction

/-- Digits with a point behind the first, and a power of ten of at least two digits. -/
def scientific (digits : List Char) (exponent : Int) : String :=
  let power := toString exponent.natAbs
  String.ofList (digits.take 1) ++
    (if digits.length = 1 then "" else "." ++ String.ofList (digits.drop 1)) ++
    "e" ++ (if exponent < 0 then "-" else "+") ++ (if power.length = 1 then "0" else "") ++ power

/-- The number in writing. The point stands among the digits when the first digit is at most four
places behind it and at most sixteen places before it. -/
def display : Binary64 → String
  | .nan => "nan"
  | .infinite negative => if negative then "-inf" else "inf"
  | .finite negative mantissa exponent =>
    let magnitude :=
      if mantissa = 0 then "0.0"
      else
        let (digits, first) := shortest mantissa exponent
        if -4 ≤ first ∧ first < 16 then positional digits first else scientific digits first
    (if negative then "-" else "") ++ magnitude

end Binary64

end BrainPiet
