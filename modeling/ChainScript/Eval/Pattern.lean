import ChainScript.Proc

/-! Matching values against patterns. -/
namespace ChainScript.Pattern

variable {σ : Type}

/-- The names a pattern binds when it meets a value, or why it does not fit. -/
def bindings (value : Value) : Pattern → Except Cause (List (String × Value))
  | name x => .ok [(x, value)]
  | array names =>
    match value with
    | .array items =>
      if items.length < names.length then .error (.indexOutOfRange items.length items.length)
      else .ok (names.zip items)
    | v => .error (.typeMismatch "array" v.typeName)

/-- The names a pattern binds, or the error that stands in their way: the value, or a bad fit. -/
def bind (pattern : Pattern) (value : Value) (frame : Frame) :
    Proc σ (Except Value (List (String × Value))) := do
  if value.isError then return .error value
  match pattern.bindings value with
  | .ok names => return .ok names
  | .error cause => return .error (← Proc.fail frame cause)

/--
Binds the output of a segment to its slot: the output, or the error of a failed match, and the scope
for the segments that follow. An error is bound by a plain name only.
-/
def bindSlot (slot : Option Pattern) (output : Value) (frame : Frame) (scope : Scope) :
    Proc σ (Value × Scope) :=
  match slot with
  | none => return (output, scope)
  | some (name x) => return (output, scope.addAll [(x, output)])
  | some (array names) => do
    match ← bind (array names) output frame with
    | .ok bound => return (output, scope.addAll bound)
    | .error e => return (e, scope)

end ChainScript.Pattern
