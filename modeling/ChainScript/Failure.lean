import ChainScript.Number.Decimal

/-! Failures: what went wrong during an evaluation, and which calls were active then. -/
namespace ChainScript

/-- The names of the active calls, innermost first. -/
structure CallPath where
  calls : List String
  deriving Repr, DecidableEq

namespace CallPath

def root : CallPath := ⟨[]⟩

def push (path : CallPath) (name : String) : CallPath := ⟨name :: path.calls⟩

/-- The names, outermost first. -/
def names (path : CallPath) : List String := path.calls.reverse

/-- The innermost `limit` names, with a mark in front when outer ones were left out. -/
def tailText (path : CallPath) (limit : Nat) : String :=
  let skipped := path.calls.length - limit
  let shown := path.names.drop skipped
  " -> ".intercalate (if skipped = 0 then shown else "…" :: shown)

def text (path : CallPath) : String := " -> ".intercalate path.names

end CallPath

/-- Why an evaluation failed. -/
inductive Cause where
  | unknownIdentifier (name : String)
  | unknownMember (name : String)
  | notAModule (name found : String)
  | typeMismatch (expected found : String)
  | indexOutOfRange (index length : Nat)
  | invalidIndex (index : Float)
  | divisionByZero
  | cancelled
  | deadlineExceeded
  | recursionLimit (limit : Nat)
  | custom (message : String)

namespace Cause

def message : Cause → String
  | unknownIdentifier name => "unknown identifier '" ++ name ++ "'"
  | unknownMember name => "module has no member '" ++ name ++ "'"
  | notAModule name found => "cannot access member '" ++ name ++ "' of " ++ found
  | typeMismatch expected found => "expected " ++ expected ++ ", but got " ++ found
  | indexOutOfRange index length =>
    "index " ++ toString index ++ " is out of range for length " ++ toString length
  | invalidIndex index => Number.write index ++ " is not a valid index"
  | divisionByZero => "division by zero"
  | cancelled => "evaluation cancelled"
  | deadlineExceeded => "deadline exceeded"
  | recursionLimit limit => "recursion limit of " ++ toString limit ++ " exceeded"
  | custom message => message

end Cause

/-- A cause together with the calls that were active when it arose. -/
structure Failure where
  cause : Cause
  path : CallPath

namespace Failure

/-- How many of the innermost calls a failure shows. -/
def shownCalls : Nat := 8

def text (f : Failure) : String :=
  if f.path.calls.isEmpty then f.cause.message
  else f.path.tailText shownCalls ++ ": " ++ f.cause.message

end Failure

end ChainScript
