import ChainScript.Number.Binary

/-! Exact remainders, indices and a form of equality under which every number equals itself. -/
namespace ChainScript.Number

/-- The exact remainder of truncated division, with the sign of the dividend. -/
def remainder (x y : Float) : Float :=
  match Binary.ofFloat x, Binary.ofFloat y with
  | .finite negative m e, .finite _ m' e' =>
    let lowest := min e e'
    let dividend := m * pow2 (e - lowest).toNat
    let divisor := m' * pow2 (e' - lowest).toNat
    if divisor = 0 then 0 / 0 else Binary.pack negative (dividend % divisor) lowest
  | .finite .., .infinite _ => x
  | _, _ => 0 / 0

/-- The largest whole number below which every whole number is a double of its own. -/
def maxIndex : Nat := pow2 53 - 1

/-- The index that a number denotes: it must be whole, not negative and at most `maxIndex`. -/
def toIndex? (x : Float) : Option Nat :=
  match Binary.ofFloat x with
  | .finite negative m e =>
    if negative && m ≠ 0 then none
    else if e < 0 && m % pow2 (-e).toNat ≠ 0 then none
    else
      let n := if e < 0 then m / pow2 (-e).toNat else m * pow2 e.toNat
      if n ≤ maxIndex then some n else none
  | _ => none

/-- The bits of a number after the two zeros are merged, so that equal bits mean equal numbers. -/
def keyBits (x : Float) : UInt64 :=
  if x == 0 then (0 : Float).toBits else x.toBits

end ChainScript.Number
