import ChainScript.World

/-!
Procedures: what happens between a call and its result. A procedure looks at the world, changes it,
and makes further calls, whose results it waits for. How those calls are answered is left open.
-/
namespace ChainScript

/-- A value to be called, the frame to call it in, and the arguments. -/
structure Call where
  callee : Value
  frame : Frame
  args : List Value

inductive Proc (σ α : Type) where
  | done (result : α)
  | call (request : Call) (next : Value → Proc σ α)
  | read (next : World σ → Proc σ α)
  | write (world : World σ) (next : Proc σ α)

namespace Proc

variable {σ α β : Type}

def bind : Proc σ α → (α → Proc σ β) → Proc σ β
  | done a, f => f a
  | call request next, f => call request fun v => (next v).bind f
  | read next, f => read fun w => (next w).bind f
  | write w next, f => write w (next.bind f)

instance : Monad (Proc σ) where
  pure := done
  bind := bind

/-- Carries a procedure out, with `answer` for the calls it makes. -/
def exec (answer : Call → World σ → Option (Value × World σ)) :
    Proc σ α → World σ → Option (α × World σ)
  | done a, w => some (a, w)
  | call request next, w =>
    match answer request w with
    | none => none
    | some (v, w) => exec answer (next v) w
  | read next, w => exec answer (next w) w
  | write w next, _ => exec answer next w

theorem exec_bind (answer : Call → World σ → Option (Value × World σ)) (p : Proc σ α)
    (f : α → Proc σ β) (w : World σ) :
    (p >>= f).exec answer w = (p.exec answer w).bind fun (a, w) => (f a).exec answer w := by
  show (p.bind f).exec answer w = _
  induction p generalizing w with
  | done a => rfl
  | call request next ih =>
    simp only [bind, exec]
    cases answer request w with
    | none => rfl
    | some r => exact ih _ _
  | read next ih => exact ih _ _
  | write w' next ih => exact ih _

/-- What a procedure does is kept when more of its calls get an answer. -/
theorem exec_mono {f g : Call → World σ → Option (Value × World σ)}
    (h : ∀ c w r, f c w = some r → g c w = some r) (p : Proc σ α) (w : World σ)
    {r : α × World σ} (hr : p.exec f w = some r) : p.exec g w = some r := by
  induction p generalizing w with
  | done a => exact hr
  | call request next ih =>
    simp only [exec] at hr ⊢
    cases hf : f request w with
    | none => simp [hf] at hr
    | some q =>
      rw [hf] at hr
      rw [h _ _ _ hf]
      exact ih _ _ hr
  | read next ih => exact ih _ _ hr
  | write w' next ih => exact ih _ hr

/-- Calls a value and returns its result. -/
def invoke (callee : Value) (frame : Frame) (args : List Value) : Proc σ Value :=
  call ⟨callee, frame, args⟩ done

/-- A number that no value has yet. -/
def fresh : Proc σ Nat :=
  read fun w => write { w with next := w.next + 1 } (done w.next)

def modify (f : World σ → World σ) : Proc σ Unit :=
  read fun w => write (f w) (done ())

/-- A new error value that blames the calls active in the frame. -/
def fail (frame : Frame) (cause : Cause) : Proc σ Value := do
  return .error (← fresh) ⟨cause, frame.path⟩

/-- The error with which the frame has to stop, if it has to. -/
def stop? (frame : Frame) : Proc σ (Option Value) :=
  read fun w =>
    match w.stop? frame with
    | some cause => return some (← fail frame cause)
    | none => return none

/-- The value of a binding. A declared function becomes a new closure each time. -/
def realize : Binding → Proc σ Value
  | .value v => return v
  | .function lambda scope => return .closure (← fresh) lambda scope

/-- Applies arguments that are left over to the result of a call. Errors stay as they are. -/
def applyRest (result : Value) (frame : Frame) (rest : List Value) : Proc σ Value :=
  if rest.isEmpty || result.isError then return result else invoke result frame rest

/-- What a function makes of too few arguments: itself for none, and otherwise a curried one. -/
def curry (func : Value) (args : List Value) (arity : Nat) (order : Order) : Proc σ Value := do
  if args.isEmpty then return func
  return .curried (← fresh) func args arity order

end Proc

end ChainScript
