import ChainScript.Proofs.Builtin.Mirrors
import ChainScript.Proofs.Proc.Run

/-!
Evaluation under a renaming. Nothing that evaluation does depends on the numbers that tell values
apart, so a renaming carries every run to a run.
-/
namespace ChainScript

variable {σ : Type} {ρ : Renaming σ} {f : Nat → Nat}

namespace Pattern

open Proc

theorem bindings_rename (pattern : Pattern) (v : Value) :
    pattern.bindings (v.rename f) = (pattern.bindings v).map (Table.mapValues (.rename f)) := by
  cases pattern with
  | name x => rfl
  | array names =>
    cases v with
    | array items =>
      simp only [Value.rename, bindings, Value.renameAll_eq_map, List.length_map]
      split
      · rfl
      · exact congrArg Except.ok List.zip_map_right
    | _ => rfl

theorem mirrors_bind (pattern : Pattern) (v : Value) (frame : Frame) :
    Mirrors ρ (Attempt.renameOutcome ρ.number (Table.mapValues (.rename ρ.number)))
      (pattern.bind v frame) (pattern.bind (v.rename ρ.number) (frame.rename ρ.number)) := by
  unfold bind
  rw [Value.isError_rename, bindings_rename]
  split
  · exact mirrors_pure (Except.error v)
  · cases pattern.bindings v with
    | ok names => exact mirrors_pure (Except.ok names)
    | error cause =>
      exact Proc.mirrors_bind (mirrors_fail frame cause) fun e => mirrors_pure (Except.error e)

theorem mirrors_bindSlot (slot : Option Pattern) (v : Value) (frame : Frame) (scope : Scope) :
    Mirrors ρ (Prod.map (Value.rename ρ.number) (Scope.rename ρ.number))
      (bindSlot slot v frame scope)
      (bindSlot slot (v.rename ρ.number) (frame.rename ρ.number) (scope.rename ρ.number)) := by
  unfold bindSlot
  split
  · exact mirrors_pure (v, scope)
  · exact mirrors_pure (v, _)
  · refine Proc.mirrors_bind (mirrors_bind _ v frame) ?_
    rintro (e | names)
    · exact mirrors_pure (e, scope)
    · dsimp only [Attempt.renameOutcome]
      rw [← Scope.addAll_rename]
      exact mirrors_pure (v, _)

end Pattern

namespace Link

@[simp] theorem applies_rename (link : Link) (running : Value) :
    link.applies (running.rename f) = link.applies running := by
  cases link <;> simp [applies]

@[simp] theorem carry_rename (link : Link) (running output : Value) :
    link.carry (running.rename f) (output.rename f) = (link.carry running output).rename f := by
  unfold carry
  rw [Value.isError_rename]
  split <;> rfl

end Link

namespace Expr

open Proc

theorem mirrors_withSubject (side subject : Value) (frame : Frame) :
    Mirrors ρ (Value.rename ρ.number) (withSubject side subject frame)
      (withSubject (side.rename ρ.number) (subject.rename ρ.number) (frame.rename ρ.number)) := by
  unfold withSubject
  rw [Value.isError_rename]
  split
  · exact mirrors_pure side
  · exact mirrors_invoke side frame [subject]

theorem accepts_rename (hf : f.Injective) (test subject : Value) :
    accepts (test.rename f) (subject.rename f) = accepts test subject := by
  have hequals := Value.equals_rename hf test subject
  cases test with
  | boolean b => rfl
  | _ =>
    simp only [Value.rename] at hequals ⊢
    simp only [accepts, Value.isPlain, hequals]

theorem mirrors_forceParams (params : List String) (frame : Frame) :
    Mirrors ρ (Attempt.renameOutcome ρ.number (List.map (Value.rename ρ.number)))
      (forceParams frame params) (forceParams (frame.rename ρ.number) params) := by
  induction params with
  | nil => exact mirrors_pure (Except.ok [])
  | cons x rest ih =>
    unfold forceParams
    simp only [Frame.rename, Frame.withScope, Scope.find?_rename]
    cases frame.scope.find? x with
    | none => exact mirrors_bind (mirrors_fail frame _) fun e => mirrors_pure (Except.error e)
    | some b =>
      refine mirrors_bind (mirrors_realize b) fun v => ?_
      refine mirrors_bind (mirrors_invoke v frame []) fun u => ?_
      rw [Value.isError_rename]
      split
      · exact mirrors_pure (Except.error u)
      · refine mirrors_bind ih ?_
        rintro (e | values)
        · exact mirrors_pure (Except.error e)
        · exact mirrors_pure (Except.ok (u :: values))

theorem mirrors_storedOr {body body' : Proc σ Value} (mark : Nat) (values : List Value)
    (h : Mirrors ρ (Value.rename ρ.number) body body') :
    Mirrors ρ (Value.rename ρ.number) (storedOr mark values body)
      (storedOr mark (values.map (.rename ρ.number)) body') := by
  intro w hw
  simp only [Memo.Key.ofValues_map_rename, World.stored?_rename]
  cases w.stored? mark (Memo.Key.ofValues values) with
  | some result => exact mirrors_pure result
  | none =>
    refine mirrors_bind h fun result => ?_
    rw [Value.isError_rename]
    split
    · refine mirrors_bind (g := id) ?_ fun _ => mirrors_pure result
      intro w hw
      exact ⟨World.store_rename ρ w mark _ result, hw, rfl⟩
    · exact mirrors_pure result

mutual
theorem mirrors_eval : (code : Code) → (frame : Frame) → (args : List Value) →
    Mirrors ρ (Value.rename ρ.number) (code.eval frame args)
      (code.eval (frame.rename ρ.number) (args.map (.rename ρ.number)))
  | .number x, _, _ => by
    simp only [eval]
    exact mirrors_pure (Value.number x)
  | .string s, _, _ => by
    simp only [eval]
    exact mirrors_pure (Value.string s)
  | .empty, _, _ => by
    simp only [eval]
    exact mirrors_pure (Value.array [])
  | .var x, frame, args => by
    simp only [eval, Frame.scope_rename, Scope.find?_rename]
    cases frame.scope.find? x with
    | none => exact mirrors_fail frame _
    | some b => exact mirrors_bind (mirrors_realize b) fun v => mirrors_invoke v frame args
  | .array items, frame, _ => by
    simp only [eval]
    exact mirrors_evalArray items [] frame
  | .lambda name params body, frame, args => by
    simp only [eval, List.isEmpty_map]
    refine mirrors_bind mirrors_fresh fun id => ?_
    split
    · exact mirrors_pure (Value.closure id ⟨name, params, body⟩ frame.scope)
    · exact mirrors_invoke (.closure id ⟨name, params, body⟩ frame.scope) frame args
  | .apply func own, frame, args => by
    simp only [eval]
    refine mirrors_bind (mirrors_eval func frame []) fun v => ?_
    have hown : own.map (Value.pin (frame.rename ρ.number).scope) =
        (own.map (Value.pin frame.scope)).map (.rename ρ.number) := by
      simp only [List.map_map, Function.comp_def, Value.pin_rename, Frame.scope_rename]
    rw [Value.isError_rename, Value.isReversedNative_rename, hown]
    split
    · exact mirrors_pure v
    · split
      · rw [← List.map_append]
        exact mirrors_invoke v frame _
      · rw [← List.map_append]
        exact mirrors_invoke v frame _
  | .switch subject cases, frame, args => by
    simp only [eval]
    refine mirrors_bind (mirrors_eval subject frame []) fun v => ?_
    rw [Value.isError_rename]
    split
    · exact mirrors_pure v
    · exact mirrors_bind (mirrors_evalCases cases v frame) fun u => mirrors_applyRest u frame args
  | .chain segments, frame, args => by
    simp only [eval]
    exact mirrors_bind (mirrors_evalChain segments frame) fun v => mirrors_applyRest v frame args
  | .compound items, frame, args => by
    simp only [eval]
    exact mirrors_bind (mirrors_evalItems items (.array []) [] frame) fun r =>
      mirrors_applyRest r.1 frame args
  | .collector items, frame, args => by
    simp only [eval]
    refine mirrors_bind (mirrors_evalItems items (.array []) [] frame) ?_
    rintro ⟨last, bound⟩
    simp only [Prod.map, Value.isError_rename, Table.ofList_mapValues]
    split
    · exact mirrors_pure last
    · refine mirrors_bind mirrors_fresh fun id => ?_
      rw [Frame.scope_rename, ← Module.space_rename]
      exact mirrors_applyRest (.module _) frame args
  | .bind pattern value, frame, args => by
    simp only [eval]
    refine mirrors_bind (mirrors_eval value frame []) fun v => ?_
    refine mirrors_bind (pattern.mirrors_bind v frame) ?_
    rintro (e | names)
    · exact mirrors_pure e
    · exact mirrors_applyRest v frame args
  | .member base name, frame, args => by
    simp only [eval]
    refine mirrors_bind (mirrors_eval base frame []) fun v => ?_
    cases v with
    | module space =>
      simp only [Value.rename, Namespace.resolve?_rename]
      cases space.resolve? name with
      | none => exact mirrors_fail frame _
      | some b => exact mirrors_bind (mirrors_realize b) fun v => mirrors_invoke v frame args
    | error id failure => exact mirrors_pure (Value.error id failure)
    | _ => exact mirrors_fail frame _
  | .within base body, frame, args => by
    simp only [eval]
    refine mirrors_bind (mirrors_eval base frame []) fun v => ?_
    cases v with
    | module space => exact mirrors_eval body (frame.withScope (.members space frame.scope)) args
    | error id failure => exact mirrors_pure (Value.error id failure)
    | _ => exact mirrors_fail frame _
  | .memo mark params body, frame, args => by
    simp only [eval]
    refine mirrors_bind (mirrors_forceParams params frame) ?_
    rintro (e | values)
    · exact mirrors_pure e
    · dsimp only [Attempt.renameOutcome]
      rw [Frame.scope_rename, ← Scope.addAll_zip_rename]
      have hbody := mirrors_invoke (ρ := ρ)
        (.thunk none body (frame.scope.addAll (params.zip values))) frame []
      exact mirrors_bind (mirrors_storedOr mark values hbody) fun v =>
        mirrors_applyRest v frame args
termination_by code => sizeOf code
decreasing_by
  all_goals
    simp only [array.sizeOf_spec, apply.sizeOf_spec, switch.sizeOf_spec, chain.sizeOf_spec,
      compound.sizeOf_spec, collector.sizeOf_spec, bind.sizeOf_spec, member.sizeOf_spec,
      within.sizeOf_spec]
    omega
theorem mirrors_evalArray : (items : List Code) → (values : List Value) → (frame : Frame) →
    Mirrors ρ (Value.rename ρ.number) (evalArray items values frame)
      (evalArray items (values.map (.rename ρ.number)) (frame.rename ρ.number))
  | [], values, frame => by
    simp only [evalArray, ← Value.renameAll_eq_map]
    exact mirrors_pure (Value.array values)
  | e :: rest, values, frame => by
    simp only [evalArray]
    refine mirrors_bind (mirrors_eval e frame []) fun v => ?_
    rw [Value.isError_rename]
    split
    · exact mirrors_pure v
    · have hvalues := mirrors_evalArray rest (values ++ [v]) frame
      rwa [List.map_append] at hvalues
termination_by items => sizeOf items
decreasing_by all_goals (simp only [List.cons.sizeOf_spec]; omega)
theorem mirrors_evalCases : (cases : List (Code × Code)) → (subject : Value) → (frame : Frame) →
    Mirrors ρ (Value.rename ρ.number) (evalCases cases subject frame)
      (evalCases cases (subject.rename ρ.number) (frame.rename ρ.number))
  | [], subject, frame => by
    simp only [evalCases]
    exact mirrors_pure subject
  | (lhs, rhs) :: rest, subject, frame => by
    simp only [evalCases]
    refine mirrors_bind (mirrors_stop? frame) ?_
    rintro (_ | e)
    · refine mirrors_bind (mirrors_eval lhs frame []) fun side => ?_
      refine mirrors_bind (mirrors_withSubject side subject frame) fun test => ?_
      rw [Value.isError_rename, accepts_rename ρ.injective]
      split
      · exact mirrors_pure test
      · split
        · exact mirrors_bind (mirrors_eval rhs frame []) fun side =>
            mirrors_withSubject side subject frame
        · exact mirrors_evalCases rest subject frame
    · exact mirrors_pure e
termination_by cases => sizeOf cases
decreasing_by all_goals (simp only [List.cons.sizeOf_spec, Prod.mk.sizeOf_spec]; omega)
theorem mirrors_evalChain : (segments : List (Segment Code)) → (frame : Frame) →
    Mirrors ρ (Value.rename ρ.number) (evalChain segments frame)
      (evalChain segments (frame.rename ρ.number))
  | [], frame => by
    simp only [evalChain]
    exact mirrors_pure (Value.array [])
  | ⟨e, _, slot⟩ :: rest, frame => by
    simp only [evalChain]
    refine mirrors_bind (mirrors_stop? frame) ?_
    rintro (_ | e')
    · refine mirrors_bind (mirrors_eval e frame []) fun v => ?_
      exact mirrors_bind (Pattern.mirrors_bindSlot slot v frame frame.scope) fun r =>
        mirrors_evalSegments rest r.1 r.2 frame
    · exact mirrors_pure e'
termination_by segments => sizeOf segments
decreasing_by all_goals (simp only [List.cons.sizeOf_spec, Segment.mk.sizeOf_spec]; omega)
theorem mirrors_evalSegments : (segments : List (Segment Code)) → (running : Value) →
    (scope : Scope) → (frame : Frame) →
    Mirrors ρ (Value.rename ρ.number) (evalSegments segments running scope frame)
      (evalSegments segments (running.rename ρ.number) (scope.rename ρ.number)
        (frame.rename ρ.number))
  | [], running, scope, frame => by
    simp only [evalSegments]
    exact mirrors_pure running
  | ⟨e, link, slot⟩ :: rest, running, scope, frame => by
    simp only [evalSegments]
    refine mirrors_bind (mirrors_stop? frame) ?_
    rintro (_ | e')
    · dsimp only [Option.map]
      rw [Link.applies_rename]
      split
      · refine mirrors_bind (mirrors_eval e (frame.withScope scope) [running]) fun v => ?_
        refine mirrors_bind (Pattern.mirrors_bindSlot slot v (frame.withScope scope) scope) ?_
        rintro ⟨output, scope'⟩
        dsimp only [Prod.map]
        rw [Link.carry_rename]
        exact mirrors_evalSegments rest (link.carry running output) scope' frame
      · exact mirrors_evalSegments rest running scope frame
    · exact mirrors_pure e'
termination_by segments => sizeOf segments
decreasing_by all_goals (simp only [List.cons.sizeOf_spec, Segment.mk.sizeOf_spec]; omega)
theorem mirrors_evalItems : (items : List Code) → (last : Value) →
    (bound : List (String × Value)) → (frame : Frame) →
    Mirrors ρ (Prod.map (Value.rename ρ.number) (Table.mapValues (Value.rename ρ.number)))
      (evalItems items last bound frame)
      (evalItems items (last.rename ρ.number) (Table.mapValues (Value.rename ρ.number) bound)
        (frame.rename ρ.number))
  | items, last, bound, frame => by
    unfold evalItems
    -- Both sides look at the same items and so split together.
    split
    · exact mirrors_pure (last, bound)
    next pattern e rest =>
      refine mirrors_bind (mirrors_stop? frame) ?_
      rintro (_ | e')
      · refine mirrors_bind (mirrors_eval e frame []) fun v => ?_
        refine mirrors_bind (pattern.mirrors_bind v frame) ?_
        rintro (e' | names)
        · exact mirrors_pure (e', bound)
        · have hitems := mirrors_evalItems rest v (bound ++ names)
            (frame.withScope (frame.scope.addAll names))
          rw [Table.mapValues, List.map_append, Frame.rename, Frame.withScope,
            Scope.addAll_rename] at hitems
          exact hitems
      · exact mirrors_pure (e', bound)
    next e rest _ =>
      refine mirrors_bind (mirrors_stop? frame) ?_
      rintro (_ | e')
      · refine mirrors_bind (mirrors_eval e frame []) fun v => ?_
        rw [Value.isError_rename]
        split
        · exact mirrors_pure (v, bound)
        · exact mirrors_evalItems rest v bound frame
      · exact mirrors_pure (e', bound)
termination_by items => sizeOf items
decreasing_by all_goals (subst_vars; simp only [List.cons.sizeOf_spec, bind.sizeOf_spec]; omega)
end

end Expr

/-- The functions of the host do with renamed arguments what they do with the arguments, renamed. -/
def Host.Respects (ρ : Renaming σ) (host : Host σ) : Prop :=
  ∀ key frame args, Proc.Mirrors ρ (Value.rename ρ.number) (host key frame args)
    (host key (frame.rename ρ.number) (args.map (.rename ρ.number)))

namespace Call

open Proc

theorem combine_rename (order : Order) (saved args : List Value) :
    combine order (saved.map (.rename f)) (args.map (.rename f)) =
      (combine order saved args).map (.rename f) := by
  cases order <;> simp [combine]

theorem mirrors_runCurried (self func : Value) (saved : List Value) (arity : Nat) (order : Order)
    (frame : Frame) (args : List Value) :
    Mirrors ρ (Value.rename ρ.number) (runCurried self func saved arity order frame args)
      (runCurried (self.rename ρ.number) (func.rename ρ.number) (saved.map (.rename ρ.number)) arity
        order (frame.rename ρ.number) (args.map (.rename ρ.number))) := by
  unfold runCurried
  rw [List.isEmpty_map, combine_rename]
  split
  · exact mirrors_pure self
  · dsimp only
    rw [List.length_map]
    split
    · refine mirrors_bind mirrors_fresh fun id => ?_
      rw [← Value.renameAll_eq_map]
      exact mirrors_pure _
    · exact mirrors_invoke func frame _

theorem mirrors_runClosure (self : Value) (lambda : Lambda Code) (scope : Scope) (frame : Frame)
    (args : List Value) :
    Mirrors ρ (Value.rename ρ.number) (runClosure self lambda scope frame args)
      (runClosure (self.rename ρ.number) lambda (scope.rename ρ.number) (frame.rename ρ.number)
        (args.map (.rename ρ.number))) := by
  have hscope : ((scope.add lambda.name self).addAll (lambda.params.zip args)).rename ρ.number =
      ((scope.rename ρ.number).add lambda.name (self.rename ρ.number)).addAll
        (lambda.params.zip (args.map (.rename ρ.number))) :=
    Scope.addAll_zip_rename _ _ _
  unfold runClosure
  dsimp only
  rw [List.length_map, ← hscope, ← List.map_drop]
  split
  · exact mirrors_curry self args _ _
  · refine mirrors_bind (mirrors_stop? (frame.descend lambda.name)) ?_
    rintro (_ | e)
    · let inner := frame.descend lambda.name
      exact mirrors_bind (Expr.mirrors_eval lambda.body (inner.withScope _) []) fun v =>
        mirrors_applyRest v frame _
    · exact mirrors_pure e

theorem mirrors_runNative {host : Host σ} (hhost : host.Respects ρ) (n : Native) (frame : Frame)
    (args : List Value) :
    Mirrors ρ (Value.rename ρ.number) (runNative host n frame args)
      (runNative host { n with id := ρ.number n.id } (frame.rename ρ.number)
        (args.map (.rename ρ.number))) := by
  have hbody (frame : Frame) (args : List Value) :
      Mirrors ρ (Value.rename ρ.number) (nativeBody host n.operation frame args)
        (nativeBody host n.operation (frame.rename ρ.number) (args.map (.rename ρ.number))) := by
    cases n.operation with
    | builtin op => exact op.mirrors_run frame args
    | host key => exact hhost key frame args
  unfold runNative
  rw [List.length_map]
  split
  · exact mirrors_curry (.native n) args _ _
  · refine mirrors_bind (mirrors_stop? (frame.enter n.name)) ?_
    rintro (_ | e)
    · dsimp only [Option.map]
      split
      next k _ =>
        rw [← List.map_take, ← List.map_drop]
        exact mirrors_bind (hbody (frame.enter n.name) _) fun v => mirrors_applyRest v frame _
      next => exact hbody (frame.enter n.name) args
    · exact mirrors_pure e

theorem mirrors_proc {host : Host σ} (hhost : host.Respects ρ) (c : Call) :
    Mirrors ρ (Value.rename ρ.number) (c.proc host) ((c.rename ρ.number).proc host) := by
  obtain ⟨callee, frame, args⟩ := c
  cases callee with
  | native n => exact mirrors_runNative hhost n frame args
  | closure id lambda scope => exact mirrors_runClosure _ lambda scope frame args
  | curried id func saved arity order =>
    have hcurried := mirrors_runCurried (ρ := ρ) (.curried id func saved arity order) func saved
      arity order frame args
    rwa [← Value.renameAll_eq_map] at hcurried
  | thunk id code scope => exact Expr.mirrors_eval code (frame.withScope scope) args
  | code id code => exact Expr.mirrors_eval code frame args
  | _ => exact mirrors_pure _

theorem carries_answer {host : Host σ} (hhost : host.Respects ρ) (fuel : Nat) :
    ρ.Carries (answer host fuel) := by
  induction fuel with
  | zero => exact fun c w hw => ⟨rfl, by simp [answer]⟩
  | succ fuel ih => exact fun c w hw => exec_of_mirrors ih (mirrors_proc hhost c) hw

/-- A renamed call ends with the renamed result in the renamed world, and in no other way. -/
theorem answers_rename_iff {host : Host σ} {c : Call} {w w₁ : World σ} {u : Value}
    (hhost : host.Respects ρ) (hw : ρ.cut ≤ w.next) :
    (c.rename ρ.number).Answers host (w.rename ρ) u w₁ ↔
      ∃ v w', c.Answers host w v w' ∧ u = v.rename ρ.number ∧ w₁ = w'.rename ρ := by
  constructor
  · rintro ⟨fuel, h⟩
    rw [(carries_answer hhost fuel c w hw).1] at h
    obtain ⟨⟨v, w'⟩, hv, hr⟩ := Option.map_eq_some_iff.mp h
    obtain ⟨rfl, rfl⟩ := Prod.mk.inj hr
    exact ⟨v, w', ⟨fuel, hv⟩, rfl, rfl⟩
  · rintro ⟨v, w', ⟨fuel, h⟩, rfl, rfl⟩
    refine ⟨fuel, ?_⟩
    rw [(carries_answer hhost fuel c w hw).1, h]
    rfl

end Call

theorem Host.respects_none (ρ : Renaming Unit) : Host.none.Respects ρ :=
  fun _ _ _ => Proc.mirrors_pure (Value.array [])

end ChainScript
