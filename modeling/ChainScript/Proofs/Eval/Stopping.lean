import ChainScript.Proofs.Eval.Data
import ChainScript.Proofs.Eval.Entry
import ChainScript.Proofs.Tree.Reading

/-!
Evaluation after the signal has fired. Any way to a body leads through a check, and what can be done
without one is little: names are looked up, the thunks they stand for are run down, and functions
are given arguments that they save. So evaluation comes to an end, and all that it leaves behind is
numbers that it has taken.
-/
namespace ChainScript

open Proc

variable {σ α β : Type} {host : Host σ}

/-- The causes of the errors that still arise. -/
def Cause.isStopping : Cause → Bool
  | cancelled => true
  | deadlineExceeded => true
  | recursionLimit _ => true
  | unknownIdentifier _ => true
  | unknownMember _ => true
  | notAModule _ _ => true
  | _ => false

namespace Proc

/--
The procedure comes to an end without entering a body, and with a result as stated. It takes
numbers, but leaves the world as it is otherwise.
-/
def Idles (host : Host σ) (post : α → Prop) (p : Proc σ α) (w : World σ) : Prop :=
  ∃ a n, w.next ≤ n ∧ p.Runs host w a { w with next := n } ∧
    (∀ f w', ¬ Enters host p w f w') ∧ post a

variable {p : Proc σ α} {k : α → Proc σ β} {post : α → Prop} {post' : β → Prop} {w : World σ}

theorem idles_done {a : α} (h : post a) : Idles host post (done a) w :=
  ⟨a, w.next, Nat.le_refl _, runs_done, fun _ _ => not_enters_done, h⟩

theorem idles_bind (hp : Idles host post p w)
    (hk : ∀ a n, post a → Idles host post' (k a) { w with next := n }) :
    Idles host post' (p >>= k) w := by
  obtain ⟨a, n, hn, hrun, hquiet, ha⟩ := hp
  obtain ⟨b, m, hm, hrun', hquiet', hb⟩ := hk a n ha
  refine ⟨b, m, Nat.le_trans hn hm, runs_bind hrun hrun', ?_, hb⟩
  intro f w' h
  rcases enters_bind_inv h with h | ⟨a', w₁, hrun'', h⟩
  · exact hquiet f w' h
  · obtain ⟨rfl, rfl⟩ := runs_unique hrun'' hrun
    exact hquiet' f w' h

theorem idles_imp {post' : α → Prop} (hp : Idles host post p w) (h : ∀ a, post a → post' a) :
    Idles host post' p w := by
  obtain ⟨a, n, hn, hrun, hquiet, ha⟩ := hp
  exact ⟨a, n, hn, hrun, hquiet, h a ha⟩

theorem idles_read {next : World σ → Proc σ α} (h : Idles host post (next w) w) :
    Idles host post (read next) w := by
  obtain ⟨a, n, hn, hrun, hquiet, ha⟩ := h
  refine ⟨a, n, hn, hrun, ?_, ha⟩
  intro f w' h
  cases h with
  | read h => exact hquiet f w' h

theorem idles_fresh : Idles host (fun _ => True) fresh w := by
  refine ⟨w.next, w.next + 1, Nat.le_succ _, ⟨0, rfl⟩, ?_, trivial⟩
  intro f w' h
  cases h with
  | read h =>
    cases h with
    | write h => exact not_enters_done h

/-- Where the signal has fired, a call does no more than what it does before a body. -/
theorem idles_invoke {v : Value} {frame : Frame} {args : List Value} {post : Value → Prop}
    (hfired : w.hasFired frame.signal = true)
    (h : Idles host post (Call.proc host ⟨v, frame, args⟩) w) :
    Idles host post (invoke v frame args) w := by
  obtain ⟨u, n, hn, hrun, hquiet, hu⟩ := h
  refine ⟨u, n, hn, runs_invoke (Call.answers_iff_runs.mpr hrun), ?_, hu⟩
  exact fun f w' h => hquiet f w' (enters_proc_of_invoke hfired h)

end Proc

namespace Expr

/--
Code whose evaluation meets a check, or makes a call, before it does anything but look names up: a
compound or a chain has a first part, and neither a `let` nor a memo stands alone.
-/
inductive Stoppable : Code → Prop
  | number (x : Float) : Stoppable (.number x)
  | string (s : String) : Stoppable (.string s)
  | empty : Stoppable .empty
  | var (x : String) : Stoppable (.var x)
  | array {items : List Code} (h : ∀ e ∈ items, Stoppable e) : Stoppable (.array items)
  | lambda (name : String) (params : List String) (body : Code) :
      Stoppable (.lambda name params body)
  | apply {func : Code} (hf : Stoppable func) (own : List Code) : Stoppable (.apply func own)
  | switch {subject : Code} (hs : Stoppable subject) (cases : List (Code × Code)) :
      Stoppable (.switch subject cases)
  | chain (first : Segment Code) (rest : List (Segment Code)) : Stoppable (.chain (first :: rest))
  | compound (first : Code) (rest : List Code) : Stoppable (.compound (first :: rest))
  | collector (first : Code) (rest : List Code) : Stoppable (.collector (first :: rest))
  | member {base : Code} (hb : Stoppable base) (name : String) : Stoppable (.member base name)
  | within {base body : Code} (hb : Stoppable base) (h : Stoppable body) :
      Stoppable (.within base body)

end Expr

mutual
/--
What may stand in the scope of an evaluation that has to stop: evaluated values and thunks of
stoppable code. A function that waits for arguments is an evaluated one, and so is what a module
declares besides functions.
-/
inductive Value.Calm : Value → Prop
  | number (x : Float) : Value.Calm (.number x)
  | string (s : String) : Value.Calm (.string s)
  | boolean (b : Bool) : Value.Calm (.boolean b)
  | error (id : Nat) (failure : Failure) : Value.Calm (.error id failure)
  | array (items : List Value) : Value.Calm (.array items)
  | module {space : Namespace} (h : Module.Calm space.module) : Value.Calm (.module space)
  | native (n : Native) : Value.Calm (.native n)
  | closure (id : Nat) (l : Lambda Code) (scope : Scope) : Value.Calm (.closure id l scope)
  | curried (id : Nat) {func : Value} (saved : List Value) (arity : Nat) (order : Order)
      (hf : Value.Calm func) (he : func.isEvaluated = true) :
      Value.Calm (.curried id func saved arity order)
  | thunk (id : Option Nat) {code : Code} {scope : Scope} (hc : code.Stoppable)
      (hs : Scope.Calm scope) : Value.Calm (.thunk id code scope)
inductive Scope.Calm : Scope → Prop
  | root : Scope.Calm .root
  | bound {names : List (String × Value)} {outer : Scope} (hn : ∀ e ∈ names, Value.Calm e.2)
      (ho : Scope.Calm outer) : Scope.Calm (.bound names outer)
  | module {m : Module} {outer : Scope} (hm : Module.Calm m) (ho : Scope.Calm outer) :
      Scope.Calm (.module m outer)
  | members {space : Namespace} {outer : Scope} (hs : Module.Calm space.module)
      (ho : Scope.Calm outer) : Scope.Calm (.members space outer)
inductive Module.Calm : Module → Prop
  | mk {id : Nat} {imports : List (String × Module)} {decls : List (String × Decl)}
      (hi : ∀ e ∈ imports, Module.Calm e.2) (hd : ∀ x v, (x, Decl.value v) ∈ decls → Value.Calm v)
      (he : ∀ x v, (x, Decl.value v) ∈ decls → v.isEvaluated = true) :
      Module.Calm ⟨id, imports, decls⟩
end

/-- The only errors inside the value are among those given. -/
def Value.HasErrors (given : Value → Prop) (v : Value) : Prop :=
  ∀ id failure, Value.Inside (.error id failure) v → given (.error id failure)

def Scope.HasErrors (given : Value → Prop) (s : Scope) : Prop :=
  ∀ id failure, Value.InScope (.error id failure) s → given (.error id failure)

/-- What an evaluation that has to stop ends with. -/
structure Value.Settled (given : Value → Prop) (v : Value) : Prop where
  calm : v.Calm
  evaluated : v.isEvaluated = true
  errors : v.HasErrors given

variable {given : Value → Prop} {w : World σ} {frame : Frame} {args : List Value} {v : Value}

theorem Value.settled_error {id : Nat} {failure : Failure} (h : given (.error id failure)) :
    Settled given (.error id failure) := by
  refine ⟨.error id failure, rfl, ?_⟩
  intro id' failure' hinside
  cases hinside
  exact h

theorem Value.settled_closure {id : Nat} {l : Lambda ChainScript.Code} {scope : Scope}
    (h : scope.HasErrors given) : Settled given (.closure id l scope) := by
  refine ⟨.closure id l scope, rfl, ?_⟩
  intro id' failure' hinside
  cases hinside with
  | captured hscope => exact h id' failure' hscope

theorem Value.settled_curried {id arity : Nat} {func : Value} {saved : List Value} {order : Order}
    (hf : func.Settled given) (hs : ∀ u ∈ saved, u.HasErrors given) :
    Settled given (.curried id func saved arity order) := by
  refine ⟨.curried id saved arity order hf.calm hf.evaluated, rfl, ?_⟩
  intro id' failure' hinside
  cases hinside with
  | func h => exact hf.errors id' failure' h
  | saved hmem h => exact hs _ hmem id' failure' h

theorem Call.mem_combine {order : Order} {saved : List Value}
    (h : v ∈ Call.combine order saved args) : v ∈ saved ∨ v ∈ args := by
  cases order with
  | savedFirst => exact List.mem_append.mp h
  | savedLast => exact (List.mem_append.mp h).symm

/-- Errors with the causes that still arise are among those given. -/
def AdmitsStopping (given : Value → Prop) : Prop :=
  ∀ id failure, failure.cause.isStopping = true → given (.error id failure)

section Idle

variable (hgiven : AdmitsStopping given) (hfired : w.hasFired frame.signal = true)

include hgiven

namespace Proc

theorem idles_fail {cause : Cause} (hcause : cause.isStopping = true) :
    Idles host (fun e => e.isError = true ∧ e.Settled given) (fail frame cause) w :=
  idles_bind idles_fresh fun id _ _ =>
    idles_done ⟨rfl, Value.settled_error (hgiven id ⟨cause, frame.path⟩ hcause)⟩

include hfired

/-- The check stops everything that comes after it. -/
theorem idles_stop? {post : α → Prop} {k : Option Value → Proc σ α}
    (hk : ∀ e n, e.isError = true → e.Settled given →
      Idles host post (k (some e)) { w with next := n }) :
    Idles host post (stop? frame >>= k) w := by
  obtain ⟨cause, hstop, hcause⟩ := World.stop?_of_hasFired hfired
  have hstopping : cause.isStopping = true := by
    rcases hcause with rfl | rfl | rfl <;> rfl
  have hcheck : Idles host (fun r => ∃ e : Value, r = some e ∧ e.isError = true ∧ e.Settled given)
      (stop? frame) w := by
    refine idles_read ?_
    rw [hstop]
    exact idles_bind (idles_fail hgiven hstopping) fun e _ he => idles_done ⟨e, rfl, he⟩
  refine idles_bind hcheck ?_
  rintro _ n ⟨e, rfl, herror, he⟩
  exact hk e n herror he

end Proc

end Idle

/-- What gets too few arguments saves them. -/
theorem Proc.idles_curry {arity : Nat} {order : Order} (hv : v.Settled given)
    (hargs : ∀ a ∈ args, a.HasErrors given) :
    Idles host (Value.Settled given) (curry v args arity order) w := by
  unfold curry
  split
  · exact idles_done hv
  · exact idles_bind idles_fresh fun id _ _ => idles_done (Value.settled_curried hv hargs)

theorem Value.settled_func {id arity : Nat} {func : Value} {saved : List Value} {order : Order}
    (h : Settled given (.curried id func saved arity order)) :
    func.Settled given ∧ ∀ u ∈ saved, u.HasErrors given := by
  obtain ⟨hcalm, -, herrors⟩ := h
  cases hcalm with
  | curried _ _ _ _ hf he =>
    refine ⟨⟨hf, he, ?_⟩, ?_⟩
    · exact fun id' failure' hinside => herrors id' failure' (.func hinside)
    · exact fun u hu id' failure' hinside => herrors id' failure' (.saved hu hinside)

/-- A settled value that is called answers at once. -/
theorem Proc.idles_settled (hgiven : AdmitsStopping given) :
    ∀ (v : Value) {args : List Value} {w : World σ}, v.Settled given →
      w.hasFired frame.signal = true → (∀ a ∈ args, a.HasErrors given) →
      Idles host (Value.Settled given) (invoke v frame args) w
  | .native n, args, w, hv, hfired, hargs => by
    refine idles_invoke hfired ?_
    change Idles host _ (Call.runNative host n frame args) w
    have hinner : w.hasFired (frame.enter n.name).signal = true := hfired
    unfold Call.runNative
    split
    · exact idles_curry hv hargs
    · exact idles_stop? hgiven hinner fun _ _ _ he => idles_done he
  | .closure id l scope, args, w, hv, hfired, hargs => by
    refine idles_invoke hfired ?_
    change Idles host _ (Call.runClosure (.closure id l scope) l scope frame args) w
    have hinner : w.hasFired (frame.descend l.name).signal = true := hfired
    unfold Call.runClosure
    dsimp only
    split
    · exact idles_curry hv hargs
    · exact idles_stop? hgiven hinner fun _ _ _ he => idles_done he
  | .curried id func saved arity order, args, w, hv, hfired, hargs => by
    obtain ⟨hfunc, hsaved⟩ := Value.settled_func hv
    have hall : ∀ a ∈ Call.combine order saved args, a.HasErrors given := by
      intro a ha
      rcases Call.mem_combine ha with ha | ha
      · exact hsaved a ha
      · exact hargs a ha
    refine idles_invoke hfired ?_
    change Idles host _
      (Call.runCurried (.curried id func saved arity order) func saved arity order frame args) w
    unfold Call.runCurried
    split
    · exact idles_done hv
    · dsimp only
      split
      · exact idles_bind idles_fresh fun id _ _ => idles_done (Value.settled_curried hfunc hall)
      · exact idles_settled hgiven func hfunc hfired hall
  | .thunk id code scope, _, _, hv, _, _ => by cases hv.evaluated
  | .code id code, _, _, hv, _, _ => by cases hv.evaluated
  | .number x, _, _, hv, hfired, _ | .string s, _, _, hv, hfired, _
  | .boolean b, _, _, hv, hfired, _ | .array items, _, _, hv, hfired, _
  | .error id failure, _, _, hv, hfired, _ | .module space, _, _, hv, hfired, _ =>
    idles_invoke hfired (by rw [Call.proc_of_isPlain rfl]; exact idles_done hv)

theorem Proc.idles_applyRest (hgiven : AdmitsStopping given) (hv : v.Settled given)
    (hfired : w.hasFired frame.signal = true) (hargs : ∀ a ∈ args, a.HasErrors given) :
    Idles host (Value.Settled given) (applyRest v frame args) w := by
  unfold applyRest
  split
  · exact idles_done hv
  · exact idles_settled hgiven v hv hfired hargs

section Find

variable {id : Nat} {failure : Failure} {m : Module} {s : Scope} {b : Binding} {x : String}

/-- The value is found inside what a name stands for. -/
def Value.InBinding (u : Value) : Binding → Prop
  | .value v => u.Inside v
  | .function _ scope => u.InScope scope

theorem Module.error_of_resolve? (h : m.resolve? x s = some b)
    (he : Value.InBinding (.error id failure) b) :
    Value.InModule (.error id failure) m ∨ Value.InScope (.error id failure) s := by
  obtain ⟨number, imports, decls⟩ := m
  rw [resolve?] at h
  split at h
  next l hl =>
    obtain rfl := Option.some.inj h
    exact .inr he
  next v hv =>
    obtain rfl := Option.some.inj h
    exact .inl (.declared (Table.mem_of_get? hv) he)
  next =>
    obtain ⟨imported, himported, rfl⟩ := Option.map_eq_some_iff.mp h
    have himport {u : Value} (hu : u.InModule imported) : u.InModule ⟨number, imports, decls⟩ :=
      .imported (Table.mem_of_get? himported) hu
    cases he with
    | member he =>
      cases he with
      | module he => exact .inl (himport he)
      | scope he =>
        cases he with
        | module he => exact .inl (himport he)
        | outer he => exact .inr (.outer he)

theorem Namespace.error_of_resolve? {space : Namespace} (h : space.resolve? x = some b)
    (he : Value.InBinding (.error id failure) b) : Value.InNamespace (.error id failure) space := by
  obtain ⟨m, s⟩ := space
  rcases Module.error_of_resolve? h he with he | he
  · exact .module he
  · exact .scope he

/-- What a module gives besides functions is evaluated. -/
theorem Module.calm_of_resolve? (hm : m.Calm) (h : m.resolve? x s = some (.value v)) :
    v.Calm ∧ v.isEvaluated = true := by
  obtain ⟨hi, hd, he⟩ := hm
  rw [resolve?] at h
  split at h
  next l hl => cases h
  next u hu =>
    obtain rfl := Binding.value.inj (Option.some.inj h)
    exact ⟨hd _ _ (Table.mem_of_get? hu), he _ _ (Table.mem_of_get? hu)⟩
  next =>
    obtain ⟨imported, himported, hv⟩ := Option.map_eq_some_iff.mp h
    obtain rfl := Binding.value.inj hv
    exact ⟨.module (hi _ (Table.mem_of_get? himported)), rfl⟩

end Find

/-- What a name stands for ends at once when it is called after the signal has fired. -/
def Binding.Ready (host : Host σ) (given : Value → Prop) : Binding → Prop
  | .value v => ∀ (frame : Frame) (args : List Value) (w : World σ),
    w.hasFired frame.signal = true → (∀ a ∈ args, a.HasErrors given) →
      Idles host (Value.Settled given) (invoke v frame args) w
  | .function _ scope => scope.HasErrors given

structure Scope.Ready (host : Host σ) (given : Value → Prop) (s : Scope) : Prop where
  errors : s.HasErrors given
  found : ∀ x b, s.find? x = some b → b.Ready host given

theorem Namespace.ready_of_resolve? (hgiven : AdmitsStopping given) {space : Namespace}
    (hspace : Value.Settled given (.module space)) {x : String} {b : Binding}
    (h : space.resolve? x = some b) : b.Ready host given := by
  have herrors : ∀ id failure, Value.InBinding (.error id failure) b →
      given (.error id failure) := fun id failure he =>
    hspace.errors id failure (.member (Namespace.error_of_resolve? h he))
  cases b with
  | function l scope => exact herrors
  | value v =>
    cases hspace.calm with
    | module hm =>
      obtain ⟨hcalm, hevaluated⟩ := Module.calm_of_resolve? hm h
      exact fun frame args w => idles_settled hgiven v ⟨hcalm, hevaluated, herrors⟩

theorem Proc.idles_realized (hgiven : AdmitsStopping given) {b : Binding}
    (hb : b.Ready host given) (hfired : w.hasFired frame.signal = true)
    (hargs : ∀ a ∈ args, a.HasErrors given) :
    Idles host (Value.Settled given) (do invoke (← realize b) frame args) w := by
  cases b with
  | value v => exact hb frame args w hfired hargs
  | function l scope =>
    refine idles_bind (idles_bind idles_fresh fun id _ _ => idles_done ?_)
      fun v _ hv => idles_settled hgiven v hv hfired hargs
    exact Value.settled_closure hb

theorem Scope.ready_members (hgiven : AdmitsStopping given) {s : Scope} {space : Namespace}
    (hspace : Value.Settled given (.module space)) (hs : s.Ready host given) :
    Scope.Ready host given (.members space s) := by
  constructor
  · intro id failure he
    cases he with
    | members he => exact hspace.errors id failure (.member he)
    | outer he => exact hs.errors id failure he
  · intro x b h
    rcases Option.or_eq_some_iff.mp h with h | ⟨_, h⟩
    · exact Namespace.ready_of_resolve? hgiven hspace h
    · exact hs.found x b h

theorem Scope.ready_bound {names : List (String × Value)} {s : Scope}
    (he : HasErrors given (.bound names s))
    (hnames : ∀ e ∈ names, (Binding.value e.2).Ready host given) (hs : s.Ready host given) :
    Ready host given (.bound names s) := by
  refine ⟨he, fun x b h => ?_⟩
  rcases Option.or_eq_some_iff.mp h with h | ⟨_, h⟩
  · obtain ⟨v, hv, rfl⟩ := Option.map_eq_some_iff.mp h
    exact hnames _ (Table.mem_of_get? hv)
  · exact hs.found x b h

theorem Scope.ready_module (hgiven : AdmitsStopping given) {m : Module} {s : Scope}
    (he : HasErrors given (.module m s)) (hm : m.Calm) (hs : s.Ready host given) :
    Ready host given (.module m s) := by
  refine ⟨he, fun x b h => ?_⟩
  rcases Option.or_eq_some_iff.mp h with h | ⟨_, h⟩
  · have hspace : Value.Settled given (.module ⟨m, .module m s⟩) := by
      refine ⟨.module hm, rfl, fun id failure hi => ?_⟩
      cases hi with
      | member hi =>
        cases hi with
        | module hi => exact he id failure (.module hi)
        | scope hi => exact he id failure hi
    exact Namespace.ready_of_resolve? hgiven hspace h
  · exact hs.found x b h

theorem Value.hasErrors_pin {s : Scope} (hs : s.HasErrors given) (e : ChainScript.Code) :
    (pin s e).HasErrors given := by
  intro id failure he
  rw [pin] at he
  cases hl : ofLiteral? e with
  | none =>
    rw [hl] at he
    cases he with
    | pinned he => exact hs id failure he
  | some v =>
    rw [hl] at he
    cases e with
    | number x => cases Option.some.inj hl; cases he
    | string t => cases Option.some.inj hl; cases he
    | empty =>
      cases Option.some.inj hl
      cases he with
      | item hmem _ => cases hmem
    | _ => cases hl

namespace Expr

/-- The code ends at once in a frame whose signal has fired. -/
def Quick (host : Host σ) (given : Value → Prop) (code : Code) : Prop :=
  ∀ (frame : Frame) (args : List Value) (w : World σ), w.hasFired frame.signal = true →
    frame.scope.Ready host given → (∀ a ∈ args, a.HasErrors given) →
      Idles host (Value.Settled given) (code.eval frame args) w

variable (hgiven : AdmitsStopping given) (hfired : w.hasFired frame.signal = true)
  (hscope : frame.scope.Ready host given)

include hfired hscope

theorem idles_evalArray {items : List Code} (hitems : ∀ e ∈ items, e.Quick host given)
    {values : List Value} (hvalues : ∀ v ∈ values, v.HasErrors given) :
    Idles host (Value.Settled given) (evalArray items values frame) w := by
  induction items generalizing values w with
  | nil =>
    refine idles_done ⟨.array values, rfl, ?_⟩
    intro id failure he
    cases he with
    | item hmem he => exact hvalues _ hmem id failure he
  | cons e rest ih =>
    have hfirst := hitems e List.mem_cons_self frame [] w hfired hscope (List.forall_mem_nil _)
    refine idles_bind hfirst ?_
    intro v n hv
    split
    · exact idles_done hv
    · have hstill : World.hasFired { w with next := n } frame.signal = true := hfired
      refine ih hstill (fun e he => hitems e (List.mem_cons_of_mem _ he)) ?_
      intro u hu
      rcases List.mem_append.mp hu with hu | hu
      · exact hvalues u hu
      · obtain rfl := List.mem_singleton.mp hu
        exact hv.errors

omit hscope
include hgiven

theorem idles_evalCases {subject : Value} (hsubject : subject.Settled given)
    (cases : List (Code × Code)) :
    Idles host (Value.Settled given) (evalCases cases subject frame) w := by
  cases cases with
  | nil => exact idles_done hsubject
  | cons first rest => exact idles_stop? hgiven hfired fun _ _ _ he => idles_done he

theorem idles_evalChain (first : Segment Code) (rest : List (Segment Code)) :
    Idles host (Value.Settled given) (evalChain (first :: rest) frame) w :=
  idles_stop? hgiven hfired fun _ _ _ he => idles_done he

/-- The first item of a compound, whatever it is, is not evaluated. -/
theorem idles_evalItems (first : Code) (rest : List Code) (last : Value)
    (bound : List (String × Value)) :
    Idles host (fun r => r.1.isError = true ∧ r.1.Settled given)
      (evalItems (first :: rest) last bound frame) w := by
  cases first <;>
    exact idles_stop? hgiven hfired fun e _ herror he => idles_done ⟨herror, he⟩

omit hfired

/-- Stoppable code ends at once. -/
theorem quick_of_stoppable {code : Code} (h : code.Stoppable) : code.Quick host given := by
  induction h with
  | number x =>
    intro frame args w _ _ _
    exact idles_done ⟨.number x, rfl, fun _ _ he => by cases he⟩
  | string s =>
    intro frame args w _ _ _
    exact idles_done ⟨.string s, rfl, fun _ _ he => by cases he⟩
  | empty =>
    intro frame args w _ _ _
    refine idles_done ⟨.array [], rfl, ?_⟩
    intro id failure he
    cases he with
    | item hmem _ => cases hmem
  | var x =>
    intro frame args w hfired hscope hargs
    unfold eval
    split
    · exact idles_imp (idles_fail hgiven rfl) fun _ he => he.2
    next b hb => exact idles_realized hgiven (hscope.found x b hb) hfired hargs
  | array _ ih =>
    intro frame args w hfired hscope _
    exact idles_evalArray hfired hscope ih (List.forall_mem_nil _)
  | lambda name params body =>
    intro frame args w hfired hscope hargs
    unfold eval
    refine idles_bind idles_fresh fun id _ _ => ?_
    have hfunc : Value.Settled given (.closure id ⟨name, params, body⟩ frame.scope) :=
      Value.settled_closure hscope.errors
    dsimp only
    split
    · exact idles_done hfunc
    · exact idles_settled hgiven _ hfunc hfired hargs
  | apply _ own ih =>
    intro frame args w hfired hscope hargs
    unfold eval
    refine idles_bind (ih frame [] w hfired hscope (List.forall_mem_nil _)) fun func _ hfunc => ?_
    dsimp only
    split
    · exact idles_done hfunc
    · refine idles_settled hgiven func hfunc hfired ?_
      intro a ha
      have hown : a ∈ own.map (Value.pin frame.scope) ∨ a ∈ args := by
        split at ha
        · exact (List.mem_append.mp ha).symm
        · exact List.mem_append.mp ha
      rcases hown with ha | ha
      · obtain ⟨e, -, rfl⟩ := List.mem_map.mp ha
        exact Value.hasErrors_pin hscope.errors e
      · exact hargs a ha
  | switch _ cases ih =>
    intro frame args w hfired hscope hargs
    unfold eval
    refine idles_bind (ih frame [] w hfired hscope (List.forall_mem_nil _)) fun subject n hs => ?_
    split
    · exact idles_done hs
    · have hstill : World.hasFired { w with next := n } frame.signal = true := hfired
      exact idles_bind (idles_evalCases hgiven hstill hs cases) fun v _ hv =>
        idles_applyRest hgiven hv hfired hargs
  | chain first rest =>
    intro frame args w hfired hscope hargs
    unfold eval
    exact idles_bind (idles_evalChain hgiven hfired first rest) fun v _ hv =>
      idles_applyRest hgiven hv hfired hargs
  | compound first rest =>
    intro frame args w hfired hscope hargs
    unfold eval
    refine idles_bind (idles_evalItems hgiven hfired first rest _ _) ?_
    rintro ⟨last, bound⟩ _ ⟨-, hlast⟩
    exact idles_applyRest hgiven hlast hfired hargs
  | collector first rest =>
    intro frame args w hfired hscope hargs
    unfold eval
    refine idles_bind (idles_evalItems hgiven hfired first rest _ _) ?_
    rintro ⟨last, bound⟩ _ ⟨herror, hlast⟩
    dsimp only at herror ⊢
    rw [if_pos herror]
    exact idles_done hlast
  | member _ name ih =>
    intro frame args w hfired hscope hargs
    unfold eval
    refine idles_bind (ih frame [] w hfired hscope (List.forall_mem_nil _)) fun v _ hv => ?_
    split
    next space =>
      split
      · exact idles_imp (idles_fail hgiven rfl) fun _ he => he.2
      next b hb =>
        exact idles_realized hgiven (Namespace.ready_of_resolve? hgiven hv hb) hfired hargs
    · exact idles_done hv
    · exact idles_imp (idles_fail hgiven rfl) fun _ he => he.2
  | within _ _ ih ihbody =>
    intro frame args w hfired hscope hargs
    unfold eval
    refine idles_bind (ih frame [] w hfired hscope (List.forall_mem_nil _)) fun v _ hv => ?_
    split
    next space => exact ihbody _ args _ hfired (Scope.ready_members hgiven hv hscope) hargs
    · exact idles_done hv
    · exact idles_imp (idles_fail hgiven rfl) fun _ he => he.2

end Expr

theorem Value.settled_of_hasErrors_members {space : Namespace} {s : Scope}
    (he : Scope.HasErrors given (.members space s)) (hm : space.module.Calm) :
    Settled given (.module space) := by
  refine ⟨.module hm, rfl, fun id failure hi => ?_⟩
  cases hi with
  | member hi => exact he id failure (.members hi)

theorem Scope.hasErrors_outer {s : Scope} (he : s.HasErrors given) : s.outer.HasErrors given :=
  fun id failure hi => he id failure (.outer hi)

-- The recursion is on how a value is calm: the scope of a thunk comes before the thunk.
mutual
theorem Value.ready_of_calm (hgiven : AdmitsStopping given) {v : Value} (hv : v.Calm)
    (he : v.HasErrors given) : (Binding.value v).Ready host given := by
  cases hevaluated : v.isEvaluated with
  | true => exact fun _ _ _ => idles_settled hgiven v ⟨hv, hevaluated, he⟩
  | false =>
    match hv, hevaluated with
    | .thunk id hc hs, _ =>
      have hscope := Scope.ready_of_calm hgiven hs fun id failure h => he id failure (.pinned h)
      intro frame args w hfired hargs
      exact idles_invoke hfired
        (Expr.quick_of_stoppable hgiven hc (frame.withScope _) args w hfired hscope hargs)
theorem Scope.ready_of_calm (hgiven : AdmitsStopping given) {s : Scope} (hs : s.Calm)
    (he : s.HasErrors given) : s.Ready host given :=
  match hs with
  | .root => ⟨he, fun _ _ h => by cases h⟩
  | .bound hn ho =>
    Scope.ready_bound he
      (fun e hmem => Value.ready_of_calm hgiven (hn e hmem) fun id failure hi =>
        he id failure (.bound hmem hi))
      (Scope.ready_of_calm hgiven ho (Scope.hasErrors_outer he))
  | .module hm ho =>
    Scope.ready_module hgiven he hm (Scope.ready_of_calm hgiven ho (Scope.hasErrors_outer he))
  | .members hm ho =>
    Scope.ready_members hgiven (Value.settled_of_hasErrors_members he hm)
      (Scope.ready_of_calm hgiven ho (Scope.hasErrors_outer he))
end

namespace Expr

theorem stoppable_allotAll {items : List Source}
    (h : ∀ e ∈ items, ∀ next, (e.allot next).1.Stoppable) (next : Nat) :
    ∀ d ∈ (allotAll items next).1, d.Stoppable := by
  induction items generalizing next with
  | nil => exact List.forall_mem_nil _
  | cons e rest ih =>
    intro d hd
    rcases List.mem_cons.mp hd with rfl | hd
    · exact h e List.mem_cons_self next
    · exact ih (fun e he => h e (List.mem_cons_of_mem _ he)) _ d hd

theorem stoppable_compound {items : List Source} (h : items ≠ []) (next : Nat) :
    ((compound items).allot next).1.Stoppable ∧ ((collector items).allot next).1.Stoppable := by
  cases items with
  | nil => exact (h rfl).elim
  | cons e rest => exact ⟨.compound _ _, .collector _ _⟩

/-- Code in normal form is stoppable. -/
theorem stoppable_of_isNormal {e : Source} (h : e.IsNormal) (next : Nat) :
    (e.allot next).1.Stoppable := by
  cases h with
  | number x => exact .number x
  | string s => exact .string s
  | var x => exact .var x
  | array h =>
    exact .array (stoppable_allotAll (fun e he next => stoppable_of_isNormal (h e he) next) next)
  | lambda name params _ => exact .lambda name params _
  | memoLambda name params _ => exact .lambda name params _
  | apply hf _ _ => exact .apply (stoppable_of_isNormal hf next) _
  | switch hs _ _ => exact .switch (stoppable_of_isNormal hs next) _
  | chain _ _ _ _ => exact .chain _ _
  | compound _ hmore =>
    refine (stoppable_compound ?_ next).1
    rintro rfl
    simp at hmore
  | collector _ hne => exact (stoppable_compound hne next).2
  | member hb name => exact .member (stoppable_of_isNormal hb next) name
  | within hb hbody =>
    exact .within (stoppable_of_isNormal hb next) (stoppable_of_isNormal hbody _)

/-- What a source text is translated to: code in normal form, or nothing. -/
def IsTranslated (e : Source) : Prop := e = .empty ∨ e.IsNormal

theorem isTranslated_of_ofSource {source : String} {e : Source} (h : ofSource source = .ok e) :
    e.IsTranslated := by
  unfold ofSource at h
  cases ht : Tree.parseFragment source with
  | error failure =>
    rw [ht] at h
    cases h
  | ok t =>
    obtain ⟨e', he', htranslated⟩ := exists_ofFragment (Tree.derives_of_parse ht)
    rw [ht] at h
    change (ofFragment t).mapError _ = .ok e at h
    rw [he'] at h
    cases h
    exact htranslated

theorem stoppable_of_isTranslated {e : Source} (h : e.IsTranslated) (next : Nat) :
    (e.allot next).1.Stoppable := by
  rcases h with rfl | h
  · exact .empty
  · exact stoppable_of_isNormal h next

end Expr

theorem Scope.calm_addAll {s : Scope} {names : List (String × Value)} (hs : s.Calm)
    (hn : ∀ e ∈ names, e.2.Calm) : (s.addAll names).Calm := by
  rw [addAll]
  split
  · exact hs
  · exact .bound (fun e he => hn e (Table.mem_ofList he)) hs

/-- The values of the prelude are calm. -/
theorem Frame.calm_of_overPrelude (h : frame.OverPrelude) : frame.scope.Calm := by
  obtain ⟨base, h⟩ := h
  rw [h]
  refine Scope.calm_addAll .root ?_
  intro e he
  rcases List.mem_append.mp he with he | he
  · obtain ⟨i, op, rfl⟩ := List.mem_mapIdx.mp he
    exact .native _
  · simp only [List.mem_cons, List.not_mem_nil, or_false] at he
    rcases he with rfl | rfl | rfl <;> exact .boolean _

/-- A module that comes from a script is calm. -/
theorem Module.calm_of_loaded {given : Memos} {m : Module} (h : m.Loaded given) : m.Calm := by
  induction h with
  | @mk id imports decls _ hd ih =>
    have hfunctions : ∀ x v, (x, Decl.value v) ∉ decls := by
      intro x v hv
      obtain ⟨l, hl, -⟩ := hd _ hv
      cases hl
    exact .mk ih (fun x v hv => (hfunctions x v hv).elim) fun x v hv => (hfunctions x v hv).elim

/--
A signal that has fired stops all work. Functions with all their arguments enter their bodies where
the check lets them, but no run of a program enters a body in a frame whose signal has fired by
then. Where it has fired before a translated expression is evaluated, the evaluation comes to an end
without entering any body, and leaves the world as it is but for the numbers it takes; an error
inside its result was there before, or has the cause of a stop or of a name that is not found.
-/
theorem Program.fired_signal_stops (host : Host σ) :
    (∀ (c : Call) (f : Frame) (w : World σ), c.bodyFrame? = some f → w.stop? f = none →
      Enters host (call c done) w f w) ∧
    (∀ (program : Program) (frame f : Frame) (w w' : World σ),
      Enters host (program.start frame) w f w' → w'.hasFired f.signal = false) ∧
    ∀ (e : Source) (next : Nat) (frame : Frame) (args : List Value) (w : World σ),
      e.IsTranslated → frame.scope.Calm → w.hasFired frame.signal = true →
      Idles host (fun v => v.isEvaluated = true ∧
        ∀ id failure, Value.Inside (.error id failure) v → failure.cause.isStopping = true ∨
          Value.InScope (.error id failure) frame.scope ∨
          ∃ a ∈ args, Value.Inside (.error id failure) a)
        ((e.allot next).1.eval frame args) w := by
  refine ⟨fun c f w => enters_call, fun program frame f w w' => hasFired_of_enters, ?_⟩
  intro e next frame args w he hscope hfired
  let given : Value → Prop := fun u => (∃ id failure, u = .error id failure ∧
      failure.cause.isStopping = true) ∨ u.InScope frame.scope ∨ ∃ a ∈ args, u.Inside a
  have hgiven : AdmitsStopping given := fun id failure h => .inl ⟨id, failure, rfl, h⟩
  have hready : frame.scope.Ready host given :=
    Scope.ready_of_calm hgiven hscope fun id failure h => .inr (.inl h)
  have hquick : (e.allot next).1.Quick host given :=
    Expr.quick_of_stoppable hgiven (Expr.stoppable_of_isTranslated he next)
  have hidles := hquick frame args w hfired hready fun a ha id failure h => .inr (.inr ⟨a, ha, h⟩)
  refine idles_imp hidles fun v hv => ⟨hv.evaluated, fun id failure h => ?_⟩
  rcases hv.errors id failure h with ⟨_, _, heq, hcause⟩ | h
  · cases heq
    exact .inl hcause
  · exact .inr h

namespace Late

/-- A script with one function, which prints its argument. -/
def module : Module :=
  ⟨0, [], [("f", .lambda ⟨"f", ["a"], .apply (.var "print") [.var "a"]⟩)]⟩

/-- The module over the prelude, and a thunk that calls the function. -/
def scope : Scope :=
  let level := Scope.module module Program.firstFrame.scope
  level.add "x" (.thunk none (.apply (.var "f") [.string "a"]) level)

/-- The deadline has passed before the clock starts. -/
def scene : Frame := .ofScope scope ⟨18, some 0⟩

theorem loaded_module : module.Loaded fun _ _ _ => True := by
  refine .mk (List.forall_mem_nil _) ?_
  intro e he
  obtain rfl := List.mem_singleton.mp he
  exact ⟨_, rfl, fun _ _ _ _ => trivial⟩

theorem calm_scope : scope.Calm := by
  have hlevel : (Scope.module module Program.firstFrame.scope).Calm :=
    .module (Module.calm_of_loaded loaded_module)
      (Frame.calm_of_overPrelude Program.overPrelude_firstFrame)
  refine .bound ?_ hlevel
  intro e he
  obtain rfl := List.mem_singleton.mp he
  exact .thunk none (.apply (.var "f") _) hlevel

def isArray : Except LoadError Source → Bool
  | .ok (.array [.var "x"]) => true
  | _ => false

theorem ofSource_array : Expr.ofSource "[x]" = .ok (.array [.var "x"]) := by
  have h : isArray (Expr.ofSource "[x]") = true := by decide +kernel
  unfold isArray at h
  split at h
  · assumption
  · cases h

/--
The function of the module enters its body where the signal has not fired; where it has, a thunk
that calls it comes to the check, and no body is entered.
-/
theorem fired_signal_stops_thunk :
    let program : Program := .entry module "f" [.string "a"]
    let e : Source := .array [.var "x"]
    (∃ f w', Enters Host.none (program.start Program.firstFrame) Program.firstWorld f w' ∧
      w'.hasFired f.signal = false) ∧
    Expr.ofSource "[x]" = .ok e ∧ scene.scope.Calm ∧
      Program.firstWorld.hasFired scene.signal = true ∧
      ((e.allot 0).1.eval scene []).Runs Host.none Program.firstWorld
        (.error 20 ⟨.deadlineExceeded, ⟨["f"]⟩⟩) { Program.firstWorld with next := 21 } ∧
      ∀ f w', ¬ Enters Host.none ((e.allot 0).1.eval scene []) Program.firstWorld f w' := by
  intro program e
  obtain ⟨hbody, hfired, hstops⟩ := Program.fired_signal_stops Host.none
  have henters : Enters Host.none (program.start Program.firstFrame) Program.firstWorld _ _ :=
    .read (.write (hbody _ _ _ rfl rfl))
  have hrun : ((e.allot 0).1.eval scene []).Runs Host.none Program.firstWorld
      (.error 20 ⟨.deadlineExceeded, ⟨["f"]⟩⟩) { Program.firstWorld with next := 21 } := ⟨3, rfl⟩
  obtain ⟨_, _, -, -, hquiet, -⟩ := hstops e 0 scene [] Program.firstWorld
    (Expr.isTranslated_of_ofSource ofSource_array) calm_scope rfl
  exact ⟨⟨_, _, henters, hfired _ _ _ _ _ henters⟩, ofSource_array, calm_scope, rfl, hrun, hquiet⟩

end Late

end ChainScript
