import ChainScript.Builtin
import ChainScript.Eval.Expr

/-!
The call protocol. A function that gets too few arguments saves them; one that gets more than it
takes has its result called with the rest.
-/
namespace ChainScript

/-- The bodies of the native functions that a host adds. -/
abbrev Host (σ : Type) := Nat → Frame → List Value → Proc σ Value

/-- A host without functions of its own. -/
def Host.none : Host Unit := fun _ _ _ => return .array []

namespace Call

variable {σ : Type}

open Proc

/-- The body of a native function. -/
def nativeBody (host : Host σ) : Operation → Frame → List Value → Proc σ Value
  | .builtin op => op.run
  | .host key => host key

/-- Calls a native function, which shows up in the path of calls while it runs. -/
def runNative (host : Host σ) (n : Native) (frame : Frame) (args : List Value) :
    Proc σ Value := do
  if args.length < n.arity.required then
    return ← curry (.native n) args n.arity.required n.order
  let inner := frame.enter n.name
  if let some e ← Proc.stop? inner then return e
  match n.arity with
  | .exact k =>
    applyRest (← nativeBody host n.operation inner (args.take k)) frame (args.drop k)
  | .atLeast _ => nativeBody host n.operation inner args

/-- Calls a script function: its body sees the scope of its definition, itself and the arguments. -/
def runClosure (self : Value) (lambda : Lambda Code) (scope : Scope) (frame : Frame)
    (args : List Value) : Proc σ Value := do
  let arity := lambda.params.length
  if args.length < arity then return ← curry self args arity .savedFirst
  let inner := frame.descend lambda.name
  if let some e ← Proc.stop? inner then return e
  let scope := (scope.add lambda.name self).addAll (lambda.params.zip args)
  applyRest (← lambda.body.eval (inner.withScope scope) []) frame (args.drop arity)

/-- The saved arguments and later ones in the order of the call. -/
def combine (order : Order) (saved args : List Value) : List Value :=
  match order with
  | .savedFirst => saved ++ args
  | .savedLast => args ++ saved

/-- Calls a function that has some of its arguments already. -/
def runCurried (self func : Value) (saved : List Value) (arity : Nat) (order : Order)
    (frame : Frame) (args : List Value) : Proc σ Value := do
  if args.isEmpty then return self
  let args := combine order saved args
  if args.length < arity then return .curried (← fresh) func args arity order
  invoke func frame args

/-- What a call does, up to the calls it makes in turn. -/
def proc (host : Host σ) (c : Call) : Proc σ Value :=
  match c.callee with
  | .native n => runNative host n c.frame c.args
  | .closure id lambda scope =>
    runClosure (.closure id lambda scope) lambda scope c.frame c.args
  | .curried id func saved arity order =>
    runCurried (.curried id func saved arity order) func saved arity order c.frame c.args
  | .thunk _ code scope => code.eval (c.frame.withScope scope) c.args
  | .code _ code => code.eval c.frame c.args
  | v => return v

/-- Answers a call with at most `fuel` calls inside each other. -/
def answer (host : Host σ) : Nat → Call → World σ → Option (Value × World σ)
  | 0, _, _ => none
  | fuel + 1, c, w => (c.proc host).exec (answer host fuel) w

/-- More fuel keeps an answer. -/
theorem answer_mono {host : Host σ} {m n : Nat} (hmn : m ≤ n) {c : Call} {w : World σ}
    {r : Value × World σ} (hr : answer host m c w = some r) : answer host n c w = some r := by
  induction m generalizing n c w r with
  | zero => simp [answer] at hr
  | succ m ih =>
    obtain ⟨n, rfl⟩ : ∃ k, n = k + 1 := ⟨n - 1, by omega⟩
    exact exec_mono (fun _ _ _ h => ih (by omega) h) _ _ hr

end Call

namespace Module

variable {σ : Type}

/-- Calls a member of the module, with the module as the innermost level of the scope. -/
def call (m : Module) (frame : Frame) (name : String) (args : List Value) : Proc σ Value :=
  let space := m.space frame.scope
  match space.resolve? name with
  | none => Proc.fail frame (.unknownIdentifier name)
  | some binding => do Proc.invoke (← Proc.realize binding) (frame.withScope space.scope) args

end Module

end ChainScript
