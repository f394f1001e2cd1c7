import ChainScript.Eval.Pattern

/-!
Evaluation of expressions. An expression is evaluated in a frame and given arguments, which are
applied to what it yields; the expressions inside it are evaluated along with it, and only values
are called.
-/
namespace ChainScript

/-- Whether a segment runs on the running value: a recovering one on errors, others on the rest. -/
def Link.applies (link : Link) (running : Value) : Bool :=
  match link with
  | recover => running.isError
  | _ => !running.isError

/-- The running value after a segment. An ignored output counts only if it is an error. -/
def Link.carry (link : Link) (running output : Value) : Value :=
  if link = ignored && !output.isError then running else output

namespace Expr

variable {σ : Type}

open Proc

/-- Calls the value of one side of a switch with the subject. -/
def withSubject (side subject : Value) (frame : Frame) : Proc σ Value :=
  if side.isError then return side else invoke side frame [subject]

/-- Whether the test of a case accepts the subject. -/
def accepts (test subject : Value) : Bool :=
  match test with
  | .boolean b => b
  | v => v.isPlain && v.equals subject

/-- Forces the named parameters in order, up to the first error. -/
def forceParams (frame : Frame) : List String → Proc σ (Except Value (List Value))
  | [] => return .ok []
  | x :: rest =>
    match frame.scope.find? x with
    | none => return .error (← fail frame (.unknownIdentifier x))
    | some binding => do
      let v ← invoke (← realize binding) frame []
      if v.isError then return .error v
      match ← forceParams frame rest with
      | .error e => return .error e
      | .ok values => return .ok (v :: values)

/-- The result of a memo for forced parameters: the one remembered, or else that of the body. -/
def storedOr (mark : Nat) (values : List Value) (body : Proc σ Value) : Proc σ Value :=
  let keys := Memo.Key.ofValues values
  read fun w =>
    match w.stored? mark keys with
    | some result => return result
    | none => do
      let result ← body
      if !result.isError then modify (·.store mark keys result)
      return result

mutual
/-- The value of an expression in a frame, applied to the arguments. -/
def eval : Code → Frame → List Value → Proc σ Value
  | number x, _, _ => return .number x
  | string s, _, _ => return .string s
  | empty, _, _ => return .array []
  | var x, frame, args =>
    match frame.scope.find? x with
    | none => fail frame (.unknownIdentifier x)
    | some binding => do invoke (← realize binding) frame args
  | array items, frame, _ => evalArray items [] frame
  | lambda name params body, frame, args => do
    let func := Value.closure (← fresh) ⟨name, params, body⟩ frame.scope
    if args.isEmpty then return func
    invoke func frame args
  | apply func own, frame, args => do
    let func ← eval func frame []
    if func.isError then return func
    let own := own.map (Value.pin frame.scope)
    invoke func frame (if func.isReversedNative then args ++ own else own ++ args)
  | switch subject cases, frame, args => do
    let subject ← eval subject frame []
    if subject.isError then return subject
    applyRest (← evalCases cases subject frame) frame args
  | chain segments, frame, args => do applyRest (← evalChain segments frame) frame args
  | compound items, frame, args => do
    let (last, _) ← evalItems items (.array []) [] frame
    applyRest last frame args
  | collector items, frame, args => do
    let (last, bound) ← evalItems items (.array []) [] frame
    if last.isError then return last
    let decls := (Table.ofList bound).map fun (name, v) => (name, Decl.ofValue v)
    let module : Module := ⟨← fresh, [], decls⟩
    applyRest (.module (module.space frame.scope)) frame args
  | bind pattern value, frame, args => do
    let v ← eval value frame []
    match ← pattern.bind v frame with
    | .error e => return e
    | .ok _ => applyRest v frame args
  | member base name, frame, args => do
    match ← eval base frame [] with
    | .module space =>
      match space.resolve? name with
      | none => fail frame (.unknownMember name)
      | some binding => invoke (← realize binding) frame args
    | .error id failure => return .error id failure
    | v => fail frame (.notAModule name v.typeName)
  | within base body, frame, args => do
    match ← eval base frame [] with
    | .module space => eval body (frame.withScope (.members space frame.scope)) args
    | .error id failure => return .error id failure
    | v => fail frame (.notAModule "(...)" v.typeName)
  | memo mark params body, frame, args => do
    match ← forceParams frame params with
    | .error e => return e
    | .ok values =>
      let scope := frame.scope.addAll (params.zip values)
      applyRest (← storedOr mark values (invoke (.thunk none body scope) frame [])) frame args
/-- The items of an array, after the values already there. -/
def evalArray : List Code → List Value → Frame → Proc σ Value
  | [], values, _ => return .array values
  | e :: rest, values, frame => do
    let v ← eval e frame []
    if v.isError then return v
    evalArray rest (values ++ [v]) frame
/-- The right side of the first case that accepts the subject, or the subject itself. -/
def evalCases : List (Code × Code) → Value → Frame → Proc σ Value
  | [], subject, _ => return subject
  | (lhs, rhs) :: rest, subject, frame => do
    if let some e ← stop? frame then return e
    let test ← withSubject (← eval lhs frame []) subject frame
    if test.isError then return test
    if accepts test subject then withSubject (← eval rhs frame []) subject frame
    else evalCases rest subject frame
/-- The segments of a chain, the first of which is evaluated on its own. -/
def evalChain : List (Segment Code) → Frame → Proc σ Value
  | [], _ => return .array []
  | ⟨e, _, slot⟩ :: rest, frame => do
    if let some e ← stop? frame then return e
    let (running, scope) ← Pattern.bindSlot slot (← eval e frame []) frame frame.scope
    evalSegments rest running scope frame
/-- The segments after the first. Those that do not apply to the running value are skipped. -/
def evalSegments : List (Segment Code) → Value → Scope → Frame → Proc σ Value
  | [], running, _, _ => return running
  | ⟨e, link, slot⟩ :: rest, running, scope, frame => do
    if let some e ← stop? frame then return e
    if link.applies running then
      let inner := frame.withScope scope
      let (output, scope) ← Pattern.bindSlot slot (← eval e inner [running]) inner scope
      evalSegments rest (link.carry running output) scope frame
    else evalSegments rest running scope frame
/--
The items of a compound in order, up to the first error: the last value, and the names bound by
each `let`, which the items after it see.
-/
def evalItems : List Code → Value → List (String × Value) → Frame →
    Proc σ (Value × List (String × Value))
  | [], last, bound, _ => return (last, bound)
  | bind pattern e :: rest, _, bound, frame => do
    if let some e ← stop? frame then return (e, bound)
    let v ← eval e frame []
    match ← pattern.bind v frame with
    | .error e => return (e, bound)
    | .ok names => evalItems rest v (bound ++ names) (frame.withScope (frame.scope.addAll names))
  | e :: rest, _, bound, frame => do
    if let some e ← stop? frame then return (e, bound)
    let v ← eval e frame []
    if v.isError then return (v, bound)
    evalItems rest v bound frame
end

end Expr

end ChainScript
