import ChainScript.Proc

/-!
Reading arguments. Native functions get their arguments unevaluated and force those they need; the
first error ends the call with that error as its result.
-/
namespace ChainScript

/-- A procedure that may end early with an error value. -/
abbrev Attempt (σ : Type) := ExceptT Value (Proc σ)

/-- A type of argument: what it is called, and which values belong to it. -/
structure Reader (α : Type) where
  expected : String
  read? : Value → Option α

namespace Reader

def number : Reader Float where
  expected := "number"
  read?
    | .number x => some x
    | _ => none

def boolean : Reader Bool where
  expected := "boolean"
  read?
    | .boolean b => some b
    | _ => none

def string : Reader String where
  expected := "string"
  read?
    | .string s => some s
    | _ => none

def array : Reader (List Value) where
  expected := "array"
  read?
    | .array items => some items
    | _ => none

/-- Any value at all. -/
def value : Reader Value where
  expected := "value"
  read? := some

end Reader

namespace Attempt

variable {σ α : Type}

/-- Ends with a new error. -/
def fail (frame : Frame) (cause : Cause) : Attempt σ α := ExceptT.mk do
  return .error (← Proc.fail frame cause)

/-- Calls a value with no arguments. -/
def force (frame : Frame) (v : Value) : Attempt σ Value := ExceptT.mk do
  let result ← Proc.invoke v frame []
  return if result.isError then .error result else .ok result

/-- Forces all values in order. -/
def forceAll (frame : Frame) : List Value → Attempt σ (List Value)
  | [] => return []
  | v :: rest => return (← force frame v) :: (← forceAll frame rest)

/-- Forces a value that has to be of the type of the reader. -/
def forceAs (reader : Reader α) (frame : Frame) (v : Value) : Attempt σ α := do
  let result ← force frame v
  match reader.read? result with
  | some a => return a
  | none => fail frame (.typeMismatch reader.expected result.typeName)

/-- Forces the argument at an index. -/
def argument (reader : Reader α) (frame : Frame) (args : List Value) (index : Nat) :
    Attempt σ α :=
  match args[index]? with
  | some v => forceAs reader frame v
  | none => fail frame (.typeMismatch reader.expected "nothing")

/-- The result, be it a value or the error that ended the attempt. -/
def result (attempt : Attempt σ Value) : Proc σ Value := do
  match ← attempt.run with
  | .ok v => return v
  | .error e => return e

end Attempt

end ChainScript
