import ChainScript.Proofs.Proc.Relay
import Mathlib.Logic.Relation

/-!
Evaluation in single steps. At each moment of an evaluation something is carried out, and calls that
are not yet finished wait for its result, among them the calls of functions whose bodies have been
entered: those are active. An evaluation comes to its last moment exactly if it ends, and with the
same result and the same world.
-/
namespace ChainScript

open Proc

variable {σ : Type} {host : Host σ}

/-- A call of a function, be it a script function or a native one. -/
structure Activation where
  name : String
  isScript : Bool
  deriving Repr, DecidableEq

/--
The entry to a function that has all its arguments: the frame inside it, what is carried out there,
and the arguments that are left for its result.
-/
structure Entry (σ : Type) where
  activation : Activation
  frame : Frame
  body : Proc σ Value
  surplus : List Value

/-- The frame is checked before the body. -/
def Entry.proc (e : Entry σ) : Proc σ Value := do
  if let some error ← Proc.stop? e.frame then return error
  e.body

namespace Call

/-- The entry that a call comes to, unless it is not one of a function with all its arguments. -/
def entrance? (host : Host σ) (c : Call) : Option (Entry σ) :=
  match c.callee with
  | .native n =>
    let inner := c.frame.enter n.name
    if c.args.length < n.arity.required then none
    else some <|
      match n.arity with
      | .exact k =>
        ⟨⟨n.name, false⟩, inner, nativeBody host n.operation inner (c.args.take k), c.args.drop k⟩
      | .atLeast _ => ⟨⟨n.name, false⟩, inner, nativeBody host n.operation inner c.args, []⟩
  | .closure id l scope =>
    let inner := c.frame.descend l.name
    let scope := (scope.add l.name (.closure id l scope)).addAll (l.params.zip c.args)
    if c.args.length < l.params.length then none
    else some
      ⟨⟨l.name, true⟩, inner, l.body.eval (inner.withScope scope) [], c.args.drop l.params.length⟩
  | _ => none

/-- The code that a call is there to evaluate, if it is there to evaluate any. -/
def code? (c : Call) : Option Code :=
  match c.callee with
  | .closure _ l _ => some l.body
  | .thunk _ code _ => some code
  | .code _ code => some code
  | _ => none

theorem stop?_bind_congr {α : Type} {frame : Frame} {f g : Option Value → Proc σ α}
    (hnone : f none = g none)
    (hsome : ∀ id failure, f (some (.error id failure)) = g (some (.error id failure))) :
    stop? frame >>= f = stop? frame >>= g := by
  change read _ = read _
  congr 1
  funext w
  dsimp only
  cases w.stop? frame with
  | none => exact hnone
  | some cause =>
    change read _ = read _
    congr 1
    funext w
    change write _ (f _) = write _ (g _)
    rw [hsome]

/-- A call that comes to an entry goes on with it, and then has its result called with the rest. -/
theorem proc_of_entry {c : Call} {e : Entry σ} (h : c.entrance? host = some e) :
    c.proc host = e.proc >>= fun v => applyRest v c.frame e.surplus := by
  obtain ⟨callee, frame, args⟩ := c
  cases callee with
  | native n =>
    simp only [entrance?] at h
    split at h
    · cases h
    next hargs =>
      obtain rfl := Option.some.inj h
      simp only [proc, runNative, if_neg hargs]
      cases n.arity with
      | exact k =>
        refine Eq.trans ?_ (bind_bind _ _ _).symm
        exact stop?_bind_congr rfl fun _ _ => (applyRest_of_isError rfl _).symm
      | atLeast k =>
        refine Eq.trans ?_ (bind_bind _ _ _).symm
        refine stop?_bind_congr ?_ fun _ _ => rfl
        exact (bind_done _).symm
  | closure id l scope =>
    simp only [entrance?] at h
    split at h
    · cases h
    next hargs =>
      obtain rfl := Option.some.inj h
      simp only [proc, runClosure, if_neg hargs]
      refine Eq.trans ?_ (bind_bind _ _ _).symm
      exact stop?_bind_congr rfl fun _ _ => (applyRest_of_isError rfl _).symm
  | _ => cases h

end Call

/-- What goes on once a call that is not yet finished has its result, and in which code. -/
structure Suspended (σ : Type) where
  activation : Option Activation
  code : Option Code
  next : Value → Proc σ Value

/-- A moment of an evaluation. What waits for what is waited for first. -/
structure Moment (σ : Type) where
  current : Proc σ Value
  code : Option Code
  waiting : List (Suspended σ)
  world : World σ

/-- The active calls among those that wait, outermost first. -/
def Suspended.activeIn (waiting : List (Suspended σ)) : List Activation :=
  (waiting.filterMap Suspended.activation).reverse

namespace Moment

/-- The calls that are active, outermost first. -/
def active (m : Moment σ) : List Activation := Suspended.activeIn m.waiting

/--
The next moment, unless the evaluation has ended. A function that is entered is active until its
body is done; its result is called with the arguments left over when it is active no more.
-/
def step (host : Host σ) (m : Moment σ) : Option (Moment σ) :=
  match m.current with
  | .done v =>
    match m.waiting with
    | [] => none
    | s :: rest => some ⟨s.next v, s.code, rest, m.world⟩
  | .call c next =>
    let waiting := ⟨none, m.code, next⟩ :: m.waiting
    match c.entrance? host with
    | none => some ⟨c.proc host, c.code?, waiting, m.world⟩
    | some e =>
      let after := fun v => applyRest v c.frame e.surplus
      some ⟨e.proc, c.code?, ⟨some e.activation, none, after⟩ :: waiting, m.world⟩
  | .read next => some ⟨next m.world, m.code, m.waiting, m.world⟩
  | .write w next => some ⟨next, m.code, m.waiting, w⟩

/-- The second moment comes after the first, or is the same. -/
def Steps (host : Host σ) : Moment σ → Moment σ → Prop :=
  Relation.ReflTransGen fun m m' => m.step host = some m'

variable {p : Proc σ Value} {code : Option Code} {waiting : List (Suspended σ)} {u v : Value}
  {w w' : World σ} {m m' : Moment σ}

theorem Steps.head {m₁ : Moment σ} (h : m.step host = some m₁) (h' : Steps host m₁ m') :
    Steps host m m' :=
  Relation.ReflTransGen.head h h'

/-- What is carried out within some fuel is carried out step by step, whatever waits for it. -/
theorem steps_of_exec {fuel : Nat} (h : p.exec (Call.answer host fuel) w = some (v, w'))
    (code : Option Code) (waiting : List (Suspended σ)) :
    Steps host ⟨p, code, waiting, w⟩ ⟨done v, code, waiting, w'⟩ := by
  induction fuel generalizing p w v w' code waiting with
  | zero =>
    induction p generalizing w with
    | done a =>
      obtain ⟨rfl, rfl⟩ : a = v ∧ w = w' := by simpa [exec] using h
      exact .refl
    | call c next _ => simp [exec, Call.answer] at h
    | read next ih => exact .head rfl (ih w h)
    | write w₁ next ih => exact .head rfl (ih h)
  | succ fuel ihfuel =>
    induction p generalizing w with
    | done a =>
      obtain ⟨rfl, rfl⟩ : a = v ∧ w = w' := by simpa [exec] using h
      exact .refl
    | call c next ih =>
      rw [exec] at h
      cases hc : Call.answer host (fuel + 1) c w with
      | none => simp [hc] at h
      | some r =>
        obtain ⟨u, w₁⟩ := r
        rw [hc] at h
        rw [Call.answer] at hc
        let asked : List (Suspended σ) := ⟨none, code, next⟩ :: waiting
        have hrest : Steps host ⟨done u, c.code?, asked, w₁⟩ ⟨done v, code, waiting, w'⟩ :=
          .head rfl (ih u h)
        cases hentry : c.entrance? host with
        | none =>
          have hstep : step host ⟨call c next, code, waiting, w⟩ =
              some ⟨c.proc host, c.code?, asked, w⟩ := by
            simp only [step, hentry, asked]
          exact .head hstep ((ihfuel hc _ _).trans hrest)
        | some e =>
          let opened : List (Suspended σ) :=
            ⟨some e.activation, none, fun v => applyRest v c.frame e.surplus⟩ :: asked
          have hstep : step host ⟨call c next, code, waiting, w⟩ =
              some ⟨e.proc, c.code?, opened, w⟩ := by
            simp only [step, hentry, opened, asked]
          rw [Call.proc_of_entry hentry, exec_bind] at hc
          obtain ⟨⟨x, w₂⟩, hbody, hafter⟩ := Option.bind_eq_some_iff.mp hc
          have hreturn : Steps host ⟨done x, c.code?, opened, w₂⟩ ⟨done u, none, asked, w₁⟩ :=
            .head rfl (ihfuel hafter _ _)
          have hanswer : Steps host ⟨done u, none, asked, w₁⟩ ⟨done v, code, waiting, w'⟩ :=
            .head rfl (ih u h)
          exact .head hstep ((ihfuel hbody _ _).trans (hreturn.trans hanswer))
    | read next ih => exact .head rfl (ih w h)
    | write w₁ next ih => exact .head rfl (ih h)

/-- Those that wait take up the result one after the other, up to the last result of all. -/
def Unwinds (host : Host σ) (last : Value) (w' : World σ) :
    List (Suspended σ) → Value → World σ → Prop
  | [], v, w => v = last ∧ w = w'
  | s :: rest, v, w => ∃ u w₁, (s.next v).Runs host w u w₁ ∧ Unwinds host last w' rest u w₁

theorem unwinds_of_steps (h : Steps host m ⟨done v, code, [], w'⟩) :
    ∃ u w₁, m.current.Runs host m.world u w₁ ∧ Unwinds host v w' m.waiting u w₁ := by
  induction h using Relation.ReflTransGen.head_induction_on with
  | refl => exact ⟨v, w', runs_done, rfl, rfl⟩
  | @head m m₁ hstep _ ih =>
    obtain ⟨p, code', waiting, w⟩ := m
    obtain ⟨u, w₁, hrun, hunwinds⟩ := ih
    cases p with
    | done a =>
      cases waiting with
      | nil => cases hstep
      | cons s rest =>
        obtain rfl := Option.some.inj hstep
        exact ⟨a, w, runs_done, u, w₁, hrun, hunwinds⟩
    | call c next =>
      simp only [step] at hstep
      split at hstep
      next hentry =>
        obtain rfl := Option.some.inj hstep
        obtain ⟨x, w₂, hnext, hunwinds⟩ := hunwinds
        exact ⟨x, w₂, runs_call (Call.answers_iff_runs.mpr hrun) hnext, hunwinds⟩
      next e hentry =>
        obtain rfl := Option.some.inj hstep
        obtain ⟨y, w₃, hafter, x, w₂, hnext, hunwinds⟩ := hunwinds
        have hproc : (c.proc host).Runs host w y w₃ := by
          rw [Call.proc_of_entry hentry]
          exact runs_bind hrun hafter
        exact ⟨x, w₂, runs_call (Call.answers_iff_runs.mpr hproc) hnext, hunwinds⟩
    | read next =>
      obtain rfl := Option.some.inj hstep
      exact ⟨u, w₁, hrun, hunwinds⟩
    | write w₂ next =>
      obtain rfl := Option.some.inj hstep
      exact ⟨u, w₁, hrun, hunwinds⟩

theorem runs_of_steps {last : Option Code}
    (h : Steps host ⟨p, code, [], w⟩ ⟨done v, last, [], w'⟩) : p.Runs host w v w' := by
  obtain ⟨u, w₁, hrun, rfl, rfl⟩ := unwinds_of_steps h
  exact hrun

/-- The last moment has the result of the evaluation and the world that it leaves. -/
theorem steps_iff_runs :
    Steps host ⟨p, code, [], w⟩ ⟨done v, code, [], w'⟩ ↔ p.Runs host w v w' := by
  refine ⟨runs_of_steps, ?_⟩
  rintro ⟨fuel, h⟩
  exact steps_of_exec h code []

end Moment

end ChainScript
