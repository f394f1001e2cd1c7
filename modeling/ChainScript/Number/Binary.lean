/-! Doubles as binary fractions: the exact value behind the sixty-four bits. -/
namespace ChainScript

/-- The value of a double: `mantissa * 2 ^ exponent`, negated when `negative`. -/
inductive Binary where
  | nan
  | infinite (negative : Bool)
  | finite (negative : Bool) (mantissa : Nat) (exponent : Int)
  deriving Repr, DecidableEq

/-- Powers of two. -/
def pow2 (k : Nat) : Nat := Nat.pow 2 k

/-- Powers of ten. -/
def pow10 (k : Nat) : Nat := Nat.pow 10 k

namespace Binary

/-- The value that a double stands for. -/
def ofFloat (x : Float) : Binary :=
  let bits : Nat := x.toBits.toNat
  let negative := bits / pow2 63 = 1
  let biased : Nat := bits / pow2 52 % pow2 11
  let fraction : Nat := bits % pow2 52
  if biased = pow2 11 - 1 then
    if fraction = 0 then infinite negative else nan
  else if biased = 0 then finite negative fraction (-1074)
  else finite negative (pow2 52 + fraction) ((biased : Int) - 1075)

/-- The double with the given sign and binary fraction, for a fraction that a double can hold. -/
def pack (negative : Bool) (mantissa : Nat) (exponent : Int) : Float :=
  let sign := if negative then pow2 63 else 0
  let width := if mantissa = 0 then 0 else mantissa.log2 + 1
  let lowest := max (-1074) (exponent + width - 53)
  let shifted :=
    if exponent ≤ lowest then mantissa / pow2 (lowest - exponent).toNat
    else mantissa * pow2 (exponent - lowest).toNat
  let biased := if shifted < pow2 52 then 0 else (lowest + 1075).toNat
  Float.ofBits (UInt64.ofNat (sign + biased * pow2 52 + shifted % pow2 52))

end Binary

end ChainScript
