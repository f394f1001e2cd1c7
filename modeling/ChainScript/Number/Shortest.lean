import ChainScript.Number.Binary

/-!
The fewest decimal digits that read back as a given double. The double `mantissa * 2 ^ exponent`
owns an interval of reals, and the answer is a multiple of the largest power of ten that has a
multiple in that interval.
-/
namespace ChainScript

/-- The decimal fraction `digits * 10 ^ exponent`. -/
structure Decimal where
  digits : Nat
  exponent : Int
  deriving Repr, DecidableEq

namespace Binary

/-- The quarter units by which reals below a double may fall short of it. -/
def roomBelow (mantissa : Nat) (exponent : Int) : Nat :=
  if mantissa = pow2 52 ∧ -1074 < exponent then 1 else 2

/--
The multiple of `10 ^ place` nearest to the double among those that read back as it, the upper one
when two are equally near.
-/
def nearestAt? (mantissa : Nat) (exponent place : Int) : Option Nat :=
  let scale := pow2 (exponent - 2).toNat * pow10 (-place).toNat
  let unit := pow2 (2 - exponent).toNat * pow10 place.toNat
  let value := 4 * mantissa * scale
  let low := (4 * mantissa - roomBelow mantissa exponent) * scale
  let high := (4 * mantissa + 2) * scale
  let inside (x : Nat) : Bool :=
    if mantissa % 2 = 0 then low ≤ x ∧ x ≤ high else low < x ∧ x < high
  let below := value / unit
  let above := below + 1
  let tooFar := 2 * (value % unit) ≥ unit
  if inside (below * unit) then
    if inside (above * unit) && tooFar then some above else some below
  else if inside (above * unit) then some above
  else none

/-- Tries ever smaller powers of ten, from `10 ^ place` on. -/
def searchFrom (mantissa : Nat) (exponent : Int) : Nat → Int → Decimal
  | 0, place => ⟨0, place⟩
  | tries + 1, place =>
    match nearestAt? mantissa exponent place with
    | some digits => ⟨digits, place⟩
    | none => searchFrom mantissa exponent tries (place - 1)

/-- The shortest decimal that reads back as `mantissa * 2 ^ exponent`. -/
def shortest (mantissa : Nat) (exponent : Int) : Decimal :=
  let top := ((mantissa.log2 + 1 : Nat) + exponent) * 30103 / 100000 + 1
  searchFrom mantissa exponent 40 top

end Binary

end ChainScript
