import ChainScript.Number.Shortest

/-!
Numerals: how a number is written and which texts are read as one. A number is written with the
fewest digits that read back as it, always positionally, never with an exponent.
-/
namespace ChainScript

namespace Decimal

/-- Positional notation, without a point for whole numbers. -/
def write (d : Decimal) : String :=
  let digits := Nat.toDigits 10 d.digits
  let whole : Int := digits.length + d.exponent
  if 0 ≤ d.exponent then
    String.ofList (digits ++ List.replicate d.exponent.toNat '0')
  else if 0 < whole then
    String.ofList (digits.take whole.toNat ++ '.' :: digits.drop whole.toNat)
  else
    String.ofList ('0' :: '.' :: List.replicate (-whole).toNat '0' ++ digits)

/--
The double nearest to the decimal. Beyond four hundred places the outcome is settled, so the
power of ten is never formed.
-/
def toFloat (d : Decimal) : Float :=
  if d.digits = 0 then 0
  else if 400 < d.exponent then 1 / 0
  else if d.exponent < -400 - (d.digits.log2 : Int) then 0
  else Float.ofScientific d.digits (d.exponent < 0) d.exponent.natAbs

/-- Splits off the leading ASCII digits. -/
def spanDigits (text : List Char) : List Char × List Char :=
  text.span Char.isDigit

def digitsToNat (digits : List Char) : Nat :=
  digits.foldl (fun n c => 10 * n + (c.toNat - 48)) 0

/-- The value of the exponent part, which must reach to the end of the text. -/
def readExponent? : List Char → Option Int
  | [] => some 0
  | c :: rest =>
    if c = 'e' ∨ c = 'E' then
      let (negative, digits) :=
        match rest with
        | '+' :: more => (false, more)
        | '-' :: more => (true, more)
        | more => (false, more)
      if digits.isEmpty || digits.any (!Char.isDigit ·) then none
      else
        let n : Int := digitsToNat digits
        some (if negative then -n else n)
    else none

/-- Reads digits with at most one point among or beside them and an optional exponent. -/
def read? (text : List Char) : Option Decimal :=
  let (whole, rest) := spanDigits text
  let (fraction, rest) :=
    match rest with
    | '.' :: more => spanDigits more
    | more => ([], more)
  if whole.isEmpty && fraction.isEmpty then none
  else (readExponent? rest).map fun e =>
    ⟨digitsToNat (whole ++ fraction), e - fraction.length⟩

end Decimal

namespace Number

/-- The text of a number. -/
def write (x : Float) : String :=
  match Binary.ofFloat x with
  | .nan => "NaN"
  | .infinite negative => if negative then "-inf" else "inf"
  | .finite negative mantissa exponent =>
    let magnitude := if mantissa = 0 then "0" else (Binary.shortest mantissa exponent).write
    if negative then "-" ++ magnitude else magnitude

/-- The number that an unsigned numeral or one of the words for the special values stands for. -/
def readMagnitude? (text : List Char) : Option Float :=
  let word := String.ofList (text.map Char.toLower)
  if word = "inf" ∨ word = "infinity" then some (1 / 0)
  else if word = "nan" then some (0 / 0)
  else (Decimal.read? text).map Decimal.toFloat

/-- The number that a text stands for, with an optional sign in front. -/
def read? : List Char → Option Float
  | '-' :: text => (readMagnitude? text).map (- ·)
  | '+' :: text => readMagnitude? text
  | text => readMagnitude? text

end Number

end ChainScript
