import ChainScript.Eval.Argument
import ChainScript.Number.Arithmetic
import ChainScript.Value.Text

/-! The functions of the prelude. -/
namespace ChainScript.Builtin

variable {σ : Type}

open Attempt

def name : Builtin → String
  | add => "+"
  | sub => "-"
  | mul => "*"
  | div => "/"
  | rem => "%"
  | equal => "=="
  | less => "<"
  | greater => ">"
  | lessEqual => "<="
  | greaterEqual => ">="
  | not => "!"
  | and => "&&"
  | or => "||"
  | element => "at"
  | length => "len"
  | error => "error"
  | print => "print"

def arity : Builtin → Arity
  | add => .atLeast 2
  | mul => .atLeast 2
  | and => .atLeast 2
  | or => .atLeast 2
  | print => .atLeast 1
  | not => .exact 1
  | length => .exact 1
  | error => .exact 1
  | _ => .exact 2

/-- All of them, in the order of the prelude. -/
def all : List Builtin :=
  [add, sub, mul, div, rem, equal, less, greater, lessEqual, greaterEqual, not, and, or, element,
    length, error, print]

/-- Adds up numbers, forcing each of them. -/
def sum (frame : Frame) (total : Float) : List Value → Attempt σ Value
  | [] => return .number total
  | v :: rest => do sum frame (total + (← forceAs .number frame v)) rest

/-- Concatenates texts if the first value is a string, and adds up numbers otherwise. -/
def runAdd (frame : Frame) (args : List Value) : Attempt σ Value := do
  match ← forceAll frame args with
  | .string s :: rest => return .string (String.join ((Value.string s :: rest).map Value.text))
  | values => sum frame 0 values

/-- Multiplies numbers, forcing each of them. -/
def product (frame : Frame) (total : Float) : List Value → Attempt σ Value
  | [] => return .number total
  | v :: rest => do product frame (total * (← forceAs .number frame v)) rest

/-- Two numbers, the second of them not zero. -/
def dividendAndDivisor (frame : Frame) (args : List Value) : Attempt σ (Float × Float) := do
  let x ← argument .number frame args 0
  let y ← argument .number frame args 1
  if y == 0 then fail frame .divisionByZero
  return (x, y)

/-- How two values compare. A NaN compares with nothing. -/
inductive Comparison where
  | less
  | equal
  | greater
  | unordered
  deriving Repr, DecidableEq

namespace Comparison

def ofNumbers (x y : Float) : Comparison :=
  if x < y then less else if x == y then equal else if y < x then greater else unordered

def ofStrings (s t : String) : Comparison :=
  if s < t then less else if s = t then equal else greater

end Comparison

/-- Compares two numbers or two strings. -/
def compare (frame : Frame) (args : List Value) : Attempt σ Comparison := do
  let a ← argument .value frame args 0
  let b ← argument .value frame args 1
  match a, b with
  | .number x, .number y => return .ofNumbers x y
  | .string s, .string t => return .ofStrings s t
  | .number _, v => fail frame (.typeMismatch "number or string" v.typeName)
  | .string _, v => fail frame (.typeMismatch "number or string" v.typeName)
  | v, _ => fail frame (.typeMismatch "number or string" v.typeName)

/-- Whether the comparison of the arguments comes out as one of the given outcomes. -/
def compares (outcomes : List Comparison) (frame : Frame) (args : List Value) :
    Attempt σ Value := do
  return .boolean (outcomes.contains (← compare frame args))

/-- Forces booleans until one of them is `stopper`, and says which way it ended. -/
def search (stopper : Bool) (frame : Frame) : List Value → Attempt σ Value
  | [] => return .boolean !stopper
  | v :: rest => do
    if (← forceAs .boolean frame v) = stopper then return .boolean stopper
    search stopper frame rest

/-- The index and the collection among two values, which may come in either order. -/
def indexAndCollection (first second : Value) : Except Cause (Float × Value) :=
  match first, second with
  | v, .number x => .ok (x, v)
  | .number x, v => .ok (x, v)
  | _, v => .error (.typeMismatch "number" v.typeName)

/-- The elements of an array, or the characters of a string. -/
def elements : Value → Except Cause (List Value)
  | .array items => .ok items
  | .string s => .ok (s.toList.map fun c => .string (String.singleton c))
  | v => .error (.typeMismatch "array or string" v.typeName)

/-- The element of a collection at an index. -/
def elementAt (first second : Value) : Except Cause Value := do
  let (x, collection) ← indexAndCollection first second
  let some index := Number.toIndex? x | throw (.invalidIndex x)
  let items ← elements collection
  let some item := items[index]? | throw (.indexOutOfRange index items.length)
  return item

/-- An outcome in which a cause becomes an error of the frame. -/
def settle {α : Type} (frame : Frame) : Except Cause α → Attempt σ α
  | .ok a => return a
  | .error cause => fail frame cause

/-- What each function does with its unevaluated arguments. -/
def attempt : Builtin → Frame → List Value → Attempt σ Value
  | add, frame, args => runAdd frame args
  | sub, frame, args => do
    let x ← argument .number frame args 0
    let y ← argument .number frame args 1
    return .number (x - y)
  | mul, frame, args => product frame 1 args
  | div, frame, args => do
    let (x, y) ← dividendAndDivisor frame args
    return .number (x / y)
  | rem, frame, args => do
    let (x, y) ← dividendAndDivisor frame args
    return .number (Number.remainder x y)
  | equal, frame, args => do
    let a ← argument .value frame args 0
    let b ← argument .value frame args 1
    return .boolean (a.equals b)
  | less, frame, args => compares [.less] frame args
  | greater, frame, args => compares [.greater] frame args
  | lessEqual, frame, args => compares [.less, .equal] frame args
  | greaterEqual, frame, args => compares [.greater, .equal] frame args
  | not, frame, args => do return .boolean !(← argument .boolean frame args 0)
  | and, frame, args => search false frame args
  | or, frame, args => search true frame args
  | element, frame, args => do
    let first ← argument .value frame args 0
    let second ← argument .value frame args 1
    settle frame (elementAt first second)
  | length, frame, args => do
    let items ← settle frame (elements (← argument .value frame args 0))
    return .number (Float.ofNat items.length)
  | error, frame, args => do
    fail frame (.custom (← argument .value frame args 0).text)
  | print, frame, args => do
    let values ← forceAll frame args
    ExceptT.lift <| Proc.modify (·.printLine (" ".intercalate (values.map Value.text)))
    return values.getLastD (.array [])

/-- The result of a built-in function, which may be an error. -/
def run (op : Builtin) (frame : Frame) (args : List Value) : Proc σ Value :=
  (attempt op frame args).result

/-- The native function of a built-in, told apart by `id`. -/
def native (op : Builtin) (id : Nat) : Native :=
  ⟨id, op.name, op.arity, .savedFirst, .builtin op⟩

/-- The prelude as one level of names, with natives numbered from `next` on. -/
def bindings (next : Nat) : List (String × Value) :=
  all.mapIdx (fun i op => (op.name, .native (op.native (next + i)))) ++
    [("true", .boolean true), ("false", .boolean false), ("default", .boolean true)]

end ChainScript.Builtin
