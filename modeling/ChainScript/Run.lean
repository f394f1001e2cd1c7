import ChainScript.Eval.Call
import ChainScript.Import

/-!
Running scripts and fragments: from source text to a value. A run yields nothing only if calls nest
deeper than any machine could hold.
-/
namespace ChainScript

/-- Why there is no value to show. -/
inductive Error where
  | load (error : LoadError)
  | runtime (failure : Failure)

namespace Error

def message : Error → String
  | load e => e.message
  | runtime f => f.text

/-- The messages of the errors behind an error, nearest first. -/
def causes : Error → List String
  | load e => e.causes
  | runtime f => [f.cause.message]

end Error

namespace Proc

variable {σ α : Type}

/-- A bound on calls inside each other that no run reaches. -/
def deepest : Nat := 1000000000000000

/-- Carries a procedure out. -/
def run (host : Host σ) (p : Proc σ α) (w : World σ) : Option (α × World σ) :=
  p.exec (Call.answer host deepest) w

/-- Does something that uses up numbers. -/
def counting (action : StateM Nat α) : Proc σ α :=
  read fun w =>
    let (a, next) := action.run w.next
    write { w with next := next } (done a)

end Proc

namespace Expr

variable {σ : Type}

/-- Gives each memo of the expression a cache of its own. -/
def install (e : Source) : Proc σ Code :=
  Proc.counting (modifyGet e.allot)

/-- Evaluates a fragment in a frame. -/
def evalSource (source : String) (frame : Frame) : Except LoadError (Proc σ Value) := do
  let e ← ofSource source
  return do (← install e).eval frame []

end Expr

namespace Scope

variable {σ : Type}

/-- The scope with the functions and values that every script may use. -/
def prelude : Proc σ Scope :=
  Proc.counting (modifyGet fun next =>
    (root.addAll (Builtin.bindings next), next + Builtin.all.length))

end Scope

namespace Frame

variable {σ : Type}

/-- A frame for a fresh evaluation, with a signal of its own. -/
def start (scope : Scope) (deadline : Option Nat) : Proc σ Frame := do
  return ofScope scope ⟨← Proc.fresh, deadline⟩

end Frame

namespace Script

variable {σ : Type}

/-- Loads a script whose imports come from a registry. -/
def install (registry : Registry) (source : String) : Proc σ (Except LoadError Module) :=
  Proc.counting (load registry.importer source)

end Script

namespace Value

/-- Tells error values from all others. -/
def toExcept : Value → Except Error Value
  | error _ failure => .error (.runtime failure)
  | v => .ok v

end Value

namespace Script

/-- Runs a function of a script that imports nothing. -/
def result (source entry : String) : Proc Unit (Except Error Value) := do
  match ← install [] source with
  | .error e => return .error (.load e)
  | .ok module =>
    let frame ← Frame.start (← Scope.prelude) none
    return (← module.call frame entry []).toExcept

end Script

end ChainScript
