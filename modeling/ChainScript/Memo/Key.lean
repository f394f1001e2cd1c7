import ChainScript.Number.Arithmetic
import ChainScript.Value

/-!
Cache keys. Plain values are keyed by content and all others by identity. Keys are equal exactly
when they are the same, so the two zeros share a key and so does every NaN.
-/
namespace ChainScript.Memo

inductive Key where
  | number (bits : UInt64)
  | string (value : String)
  | boolean (value : Bool)
  | array (items : List Key)
  | identity (id : Option Nat)

namespace Key

mutual
def decEq : (a b : Key) → Decidable (a = b)
  | number x, number y =>
    if h : x = y then isTrue (h ▸ rfl) else isFalse fun e => h (Key.number.inj e)
  | string x, string y =>
    if h : x = y then isTrue (h ▸ rfl) else isFalse fun e => h (Key.string.inj e)
  | boolean x, boolean y =>
    if h : x = y then isTrue (h ▸ rfl) else isFalse fun e => h (Key.boolean.inj e)
  | identity x, identity y =>
    if h : x = y then isTrue (h ▸ rfl) else isFalse fun e => h (Key.identity.inj e)
  | array xs, array ys =>
    match decEqAll xs ys with
    | isTrue h => isTrue (h ▸ rfl)
    | isFalse h => isFalse fun e => h (Key.array.inj e)
  | number _, string _ | number _, boolean _ | number _, array _ | number _, identity _
  | string _, number _ | string _, boolean _ | string _, array _ | string _, identity _
  | boolean _, number _ | boolean _, string _ | boolean _, array _ | boolean _, identity _
  | array _, number _ | array _, string _ | array _, boolean _ | array _, identity _
  | identity _, number _ | identity _, string _ | identity _, boolean _ | identity _, array _ =>
    isFalse nofun
def decEqAll : (as bs : List Key) → Decidable (as = bs)
  | [], [] => isTrue rfl
  | [], _ :: _ => isFalse nofun
  | _ :: _, [] => isFalse nofun
  | a :: as, b :: bs =>
    match decEq a b, decEqAll as bs with
    | isTrue h, isTrue t => isTrue (by rw [h, t])
    | isFalse h, _ => isFalse fun e => h (List.cons.inj e).1
    | _, isFalse t => isFalse fun e => t (List.cons.inj e).2
end

instance : DecidableEq Key := decEq

mutual
def ofValue : Value → Key
  | .number x => number (Number.keyBits x)
  | .string s => string s
  | .boolean b => boolean b
  | .array items => array (ofValues items)
  | v => identity v.identity?
def ofValues : List Value → List Key
  | [] => []
  | v :: rest => ofValue v :: ofValues rest
end

end Key

end ChainScript.Memo
