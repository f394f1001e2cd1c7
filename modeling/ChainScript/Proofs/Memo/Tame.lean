import ChainScript.Proofs.Proc.Run

/-!
Look-ups in caches. Whatever is evaluated, the caches are changed by the look-ups of memos alone:
everything else leaves them as they are, up to the calls that it makes.
-/
namespace ChainScript

/-- A memo whose parameters have been forced, in the frame of its call. -/
structure Memo.Lookup where
  mark : Nat
  params : List String
  body : Code
  frame : Frame
  values : List Value

namespace Memo.Lookup

variable {σ : Type}

def keys (l : Lookup) : List Key := Key.ofValues l.values

/-- The evaluation of the body, with the parameters bound to their values. -/
def request (l : Lookup) : Call :=
  ⟨.thunk none l.body (l.frame.scope.addAll (l.params.zip l.values)), l.frame, []⟩

def proc (l : Lookup) : Proc σ Value :=
  Expr.storedOr l.mark l.values (.call l.request .done)

end Memo.Lookup

open Memo (Lookup)

variable {σ α β : Type}

open Proc in
/-- The evaluation of a memo: its parameters, the look-up, and the arguments left over. -/
theorem Expr.eval_memo (mark : Nat) (params : List String) (body : Code) (frame : Frame)
    (args : List Value) :
    (eval (.memo mark params body) frame args : Proc σ Value) =
      forceParams frame params >>= fun forced =>
        match forced with
        | .error e => pure e
        | .ok values =>
          (⟨mark, params, body, frame, values⟩ : Lookup).proc >>= fun result =>
            applyRest result frame args := by
  rw [eval]
  rfl

open Proc in
/-- What is left of a look-up once the body has yielded `v`. -/
def Memo.Lookup.settle (l : Lookup) (k : Value → Proc σ α) (v : Value) : Proc σ α :=
  if v.isError then k v else read fun w => write (w.store l.mark l.keys v) (k v)

open Proc in
theorem Memo.Lookup.proc_bind (l : Lookup) (k : Value → Proc σ α) :
    l.proc >>= k =
      read fun w =>
        match w.stored? l.mark l.keys with
        | some result => k result
        | none => call l.request (l.settle k) := by
  change read _ = read _
  congr 1
  funext w
  change Proc.bind (match w.stored? l.mark l.keys with | some _ => _ | none => _) k = _
  cases w.stored? l.mark l.keys with
  | some result => rfl
  | none =>
    change call l.request _ = call l.request _
    congr 1
    funext v
    simp only [Proc.bind, settle]
    cases v.isError <;> rfl

namespace Proc

/-- From the world on, the procedure leaves the caches alone, but for the look-ups of memos. -/
inductive TameAt : Proc σ α → World σ → Prop
  | done {a : α} {w : World σ} : TameAt (done a) w
  | call {c : Call} {next : Value → Proc σ α} {w : World σ} (h : ∀ v w', TameAt (next v) w') :
      TameAt (call c next) w
  | read {next : World σ → Proc σ α} {w : World σ} (h : TameAt (next w) w) : TameAt (read next) w
  | write {next : Proc σ α} {w w' : World σ} (hc : w'.caches = w.caches) (h : TameAt next w') :
      TameAt (write w' next) w
  | lookup {l : Lookup} {k : Value → Proc σ α} {w : World σ} (h : ∀ v w', TameAt (k v) w') :
      TameAt (l.proc >>= k) w

def Tame (p : Proc σ α) : Prop := ∀ w, TameAt p w

variable {p : Proc σ α} {f : α → Proc σ β} {frame : Frame}

theorem tame_pure (a : α) : Tame (pure a : Proc σ α) := fun _ => .done

theorem tame_bind (hp : Tame p) (hf : ∀ a, Tame (f a)) : Tame (p >>= f) := by
  intro w
  have hat := hp w
  clear hp
  induction hat with
  | done => exact hf _ _
  | call _ ih => exact .call ih
  | read _ ih => exact .read ih
  | write hc _ ih => exact .write hc ih
  | lookup _ ih =>
    rw [bind_bind]
    exact .lookup ih

theorem tame_invoke (v : Value) (frame : Frame) (args : List Value) :
    Tame (invoke v frame args : Proc σ Value) :=
  fun _ => .call fun _ _ => .done

theorem tame_modify {f : World σ → World σ} (h : ∀ w, (f w).caches = w.caches) :
    Tame (modify f) :=
  fun w => .read (.write (h w) .done)

theorem tame_fresh : Tame (fresh : Proc σ Nat) := fun _ => .read (.write rfl .done)

theorem tame_fail (frame : Frame) (cause : Cause) : Tame (fail frame cause : Proc σ Value) :=
  tame_bind tame_fresh fun _ => tame_pure _

theorem tame_stop? (frame : Frame) : Tame (stop? frame : Proc σ (Option Value)) := by
  refine fun w => .read ?_
  cases w.stop? frame with
  | none => exact .done
  | some cause => exact tame_bind (tame_fail frame cause) (fun _ => tame_pure _) w

/-- A procedure that the signal may stop before it begins. -/
theorem tame_unless_stop {next : Option Value → Proc σ α} (hgo : Tame (next none))
    (hstop : ∀ e, Tame (next (some e))) : Tame (stop? frame >>= next) :=
  tame_bind (tame_stop? frame) fun stopped =>
    match stopped with
    | none => hgo
    | some e => hstop e

theorem tame_realize (b : Binding) : Tame (realize b : Proc σ Value) := by
  cases b with
  | value v => exact tame_pure v
  | function l scope => exact tame_bind tame_fresh fun _ => tame_pure _

theorem tame_realized (b : Binding) (frame : Frame) (args : List Value) :
    Tame (do invoke (← realize b) frame args : Proc σ Value) :=
  tame_bind (tame_realize b) fun v => tame_invoke v frame args

theorem tame_applyRest (v : Value) (frame : Frame) (args : List Value) :
    Tame (applyRest v frame args : Proc σ Value) := by
  unfold applyRest
  split
  · exact tame_pure v
  · exact tame_invoke v frame args

theorem tame_curry (func : Value) (args : List Value) (arity : Nat) (order : Order) :
    Tame (curry func args arity order : Proc σ Value) := by
  unfold curry
  split
  · exact tame_pure func
  · exact tame_bind tame_fresh fun _ => tame_pure _

end Proc

namespace Attempt

variable {a : Attempt σ α} {f : α → Attempt σ β} {frame : Frame}

def Tame (a : Attempt σ α) : Prop := Proc.Tame a.run

theorem tame_pure (a : α) : Tame (pure a : Attempt σ α) := Proc.tame_pure _

theorem tame_bind (ha : Tame a) (hf : ∀ x, Tame (f x)) : Tame (a >>= f) := by
  refine Proc.tame_bind ha ?_
  rintro (e | x)
  · exact Proc.tame_pure _
  · exact hf x

theorem tame_fail (frame : Frame) (cause : Cause) : Tame (fail frame cause : Attempt σ α) :=
  Proc.tame_bind (Proc.tame_fail frame cause) fun _ => Proc.tame_pure _

theorem tame_lift {p : Proc σ α} (hp : Proc.Tame p) : Tame (ExceptT.lift p : Attempt σ α) :=
  Proc.tame_bind hp fun _ => Proc.tame_pure _

theorem tame_force (frame : Frame) (v : Value) : Tame (force frame v : Attempt σ Value) :=
  Proc.tame_bind (Proc.tame_invoke v frame []) fun _ => Proc.tame_pure _

theorem tame_forceAll (frame : Frame) (vs : List Value) :
    Tame (forceAll frame vs : Attempt σ (List Value)) := by
  induction vs with
  | nil => exact tame_pure []
  | cons v rest ih =>
    exact tame_bind (tame_force frame v) fun _ => tame_bind ih fun _ => tame_pure _

theorem tame_forceAs (reader : Reader α) (frame : Frame) (v : Value) :
    Tame (forceAs reader frame v : Attempt σ α) := by
  refine tame_bind (tame_force frame v) fun result => ?_
  cases reader.read? result with
  | none => exact tame_fail frame _
  | some a => exact tame_pure a

theorem tame_argument (reader : Reader α) (frame : Frame) (args : List Value) (index : Nat) :
    Tame (argument reader frame args index : Attempt σ α) := by
  unfold argument
  cases args[index]? with
  | none => exact tame_fail frame _
  | some v => exact tame_forceAs reader frame v

theorem tame_result {a : Attempt σ Value} (ha : Tame a) : Proc.Tame a.result := by
  refine Proc.tame_bind ha ?_
  rintro (e | v) <;> exact Proc.tame_pure _

end Attempt

namespace Builtin

open Attempt

theorem tame_sum (frame : Frame) (total : Float) (args : List Value) :
    Tame (sum frame total args : Attempt σ Value) := by
  induction args generalizing total with
  | nil => exact tame_pure _
  | cons v rest ih => exact tame_bind (tame_forceAs .number frame v) fun _ => ih _

theorem tame_product (frame : Frame) (total : Float) (args : List Value) :
    Tame (product frame total args : Attempt σ Value) := by
  induction args generalizing total with
  | nil => exact tame_pure _
  | cons v rest ih => exact tame_bind (tame_forceAs .number frame v) fun _ => ih _

theorem tame_runAdd (frame : Frame) (args : List Value) :
    Tame (runAdd frame args : Attempt σ Value) := by
  refine tame_bind (tame_forceAll frame args) fun values => ?_
  split
  · exact tame_pure _
  · exact tame_sum frame 0 values

theorem tame_search (stopper : Bool) (frame : Frame) (args : List Value) :
    Tame (search stopper frame args : Attempt σ Value) := by
  induction args with
  | nil => exact tame_pure _
  | cons v rest ih =>
    refine tame_bind (tame_forceAs .boolean frame v) fun b => ?_
    split
    · exact tame_pure _
    · exact ih

/-- What is done with two arguments. -/
theorem tame_pair {reader : Reader α} {k : α → α → Attempt σ β} {frame : Frame}
    {args : List Value} (h : ∀ a b, Tame (k a b)) :
    Tame (do
      let a ← argument reader frame args 0
      let b ← argument reader frame args 1
      k a b) :=
  tame_bind (tame_argument reader frame args 0) fun a =>
    tame_bind (tame_argument reader frame args 1) fun b => h a b

theorem tame_dividendAndDivisor (frame : Frame) (args : List Value) :
    Tame (dividendAndDivisor frame args : Attempt σ (Float × Float)) := by
  refine tame_pair fun x y => ?_
  split
  · exact tame_bind (tame_fail frame _) fun _ => tame_pure _
  · exact tame_pure _

theorem tame_compares (outcomes : List Comparison) (frame : Frame) (args : List Value) :
    Tame (compares outcomes frame args : Attempt σ Value) := by
  refine tame_bind (tame_pair fun a b => ?_) fun _ => tame_pure _
  split
  · exact tame_pure _
  · exact tame_pure _
  all_goals exact tame_fail frame _

theorem tame_settle (frame : Frame) (r : Except Cause α) : Tame (settle frame r : Attempt σ α) := by
  cases r with
  | ok a => exact tame_pure a
  | error cause => exact tame_fail frame cause

theorem tame_attempt (op : Builtin) (frame : Frame) (args : List Value) :
    Tame (attempt op frame args : Attempt σ Value) := by
  cases op with
  | add => exact tame_runAdd frame args
  | sub => exact tame_pair fun _ _ => tame_pure _
  | mul => exact tame_product frame 1 args
  | div => exact tame_bind (tame_dividendAndDivisor frame args) fun _ => tame_pure _
  | rem => exact tame_bind (tame_dividendAndDivisor frame args) fun _ => tame_pure _
  | equal => exact tame_pair fun _ _ => tame_pure _
  | less => exact tame_compares _ frame args
  | greater => exact tame_compares _ frame args
  | lessEqual => exact tame_compares _ frame args
  | greaterEqual => exact tame_compares _ frame args
  | not => exact tame_bind (tame_argument .boolean frame args 0) fun _ => tame_pure _
  | and => exact tame_search false frame args
  | or => exact tame_search true frame args
  | element => exact tame_pair fun first second => tame_settle frame (elementAt first second)
  | length =>
    refine tame_bind (tame_argument .value frame args 0) fun v => ?_
    exact tame_bind (tame_settle frame (elements v)) fun _ => tame_pure _
  | error => exact tame_bind (tame_argument .value frame args 0) fun _ => tame_fail frame _
  | print =>
    refine tame_bind (tame_forceAll frame args) fun values => ?_
    exact tame_bind (tame_lift (Proc.tame_modify fun _ => rfl)) fun _ => tame_pure _

end Builtin

namespace Pattern

open Proc

theorem tame_bind (pattern : Pattern) (v : Value) (frame : Frame) :
    Tame (pattern.bind v frame : Proc σ _) := by
  unfold Pattern.bind
  split
  · exact tame_pure _
  · split
    · exact tame_pure _
    · exact Proc.tame_bind (tame_fail frame _) fun _ => tame_pure _

theorem tame_bindSlot (slot : Option Pattern) (output : Value) (frame : Frame) (scope : Scope) :
    Tame (bindSlot slot output frame scope : Proc σ _) := by
  unfold bindSlot
  split
  · exact tame_pure _
  · exact tame_pure _
  · refine Proc.tame_bind (tame_bind _ output frame) ?_
    rintro (e | bound) <;> exact tame_pure _

end Pattern

namespace Expr

open Proc

theorem tame_withSubject (side subject : Value) (frame : Frame) :
    Tame (withSubject side subject frame : Proc σ Value) := by
  unfold withSubject
  split
  · exact tame_pure side
  · exact tame_invoke side frame [subject]

theorem tame_forceParams (frame : Frame) (params : List String) :
    Tame (forceParams frame params : Proc σ _) := by
  induction params with
  | nil => exact tame_pure _
  | cons x rest ih =>
    unfold forceParams
    split
    · exact tame_bind (tame_fail frame _) fun _ => tame_pure _
    next b _ =>
      refine tame_bind (tame_realize b) fun v => tame_bind (tame_invoke v frame []) fun u => ?_
      split
      · exact tame_pure _
      · refine tame_bind ih ?_
        rintro (e | values) <;> exact tame_pure _

mutual
theorem tame_eval : (code : Code) → (frame : Frame) → (args : List Value) →
    Tame (code.eval frame args : Proc σ Value)
  | .number x, _, _ => by
    simp only [eval]
    exact tame_pure _
  | .string s, _, _ => by
    simp only [eval]
    exact tame_pure _
  | .empty, _, _ => by
    simp only [eval]
    exact tame_pure _
  | .var x, frame, args => by
    simp only [eval]
    cases frame.scope.find? x with
    | none => exact tame_fail frame _
    | some b => exact tame_realized b frame args
  | .array items, frame, _ => by
    simp only [eval]
    exact tame_evalArray items [] frame
  | .lambda name params body, frame, args => by
    simp only [eval]
    refine tame_bind tame_fresh fun id => ?_
    split
    · exact tame_pure _
    · exact tame_invoke _ frame args
  | .apply func own, frame, args => by
    simp only [eval]
    refine tame_bind (tame_eval func frame []) fun v => ?_
    split
    · exact tame_pure v
    · exact tame_invoke v frame _
  | .switch subject cases, frame, args => by
    simp only [eval]
    refine tame_bind (tame_eval subject frame []) fun v => ?_
    split
    · exact tame_pure v
    · exact tame_bind (tame_evalCases cases v frame) fun u => tame_applyRest u frame args
  | .chain segments, frame, args => by
    simp only [eval]
    exact tame_bind (tame_evalChain segments frame) fun v => tame_applyRest v frame args
  | .compound items, frame, args => by
    simp only [eval]
    exact tame_bind (tame_evalItems items (.array []) [] frame) fun r =>
      tame_applyRest r.1 frame args
  | .collector items, frame, args => by
    simp only [eval]
    refine tame_bind (tame_evalItems items (.array []) [] frame) fun r => ?_
    split
    · exact tame_pure _
    · exact tame_bind tame_fresh fun _ => tame_applyRest _ frame args
  | .bind pattern value, frame, args => by
    simp only [eval]
    refine tame_bind (tame_eval value frame []) fun v => ?_
    refine tame_bind (pattern.tame_bind v frame) ?_
    rintro (e | names)
    · exact tame_pure e
    · exact tame_applyRest v frame args
  | .member base name, frame, args => by
    simp only [eval]
    refine tame_bind (tame_eval base frame []) fun v => ?_
    split
    next space =>
      cases space.resolve? name with
      | none => exact tame_fail frame _
      | some b => exact tame_realized b frame args
    next => exact tame_pure _
    next => exact tame_fail frame _
  | .within base body, frame, args => by
    simp only [eval]
    refine tame_bind (tame_eval base frame []) fun v => ?_
    split
    next space => exact tame_eval body (frame.withScope (.members space frame.scope)) args
    next => exact tame_pure _
    next => exact tame_fail frame _
  | .memo mark params body, frame, args => by
    rw [eval_memo]
    refine tame_bind (tame_forceParams frame params) ?_
    rintro (e | values)
    · exact tame_pure e
    · exact fun w => .lookup fun v w' => tame_applyRest v frame args w'
termination_by code => sizeOf code
decreasing_by
  all_goals
    simp only [array.sizeOf_spec, apply.sizeOf_spec, switch.sizeOf_spec, chain.sizeOf_spec,
      compound.sizeOf_spec, collector.sizeOf_spec, bind.sizeOf_spec, member.sizeOf_spec,
      within.sizeOf_spec]
    omega
theorem tame_evalArray : (items : List Code) → (values : List Value) → (frame : Frame) →
    Tame (evalArray items values frame : Proc σ Value)
  | [], values, frame => by
    simp only [evalArray]
    exact tame_pure _
  | e :: rest, values, frame => by
    simp only [evalArray]
    refine tame_bind (tame_eval e frame []) fun v => ?_
    split
    · exact tame_pure v
    · exact tame_evalArray rest (values ++ [v]) frame
termination_by items => sizeOf items
decreasing_by all_goals (simp only [List.cons.sizeOf_spec]; omega)
theorem tame_evalCases : (cases : List (Code × Code)) → (subject : Value) → (frame : Frame) →
    Tame (evalCases cases subject frame : Proc σ Value)
  | [], subject, frame => by
    simp only [evalCases]
    exact tame_pure subject
  | (lhs, rhs) :: rest, subject, frame => by
    simp only [evalCases]
    refine tame_unless_stop ?_ fun e => tame_pure e
    refine tame_bind (tame_eval lhs frame []) fun side => ?_
    refine tame_bind (tame_withSubject side subject frame) fun test => ?_
    split
    · exact tame_pure test
    · split
      · exact tame_bind (tame_eval rhs frame []) fun side => tame_withSubject side subject frame
      · exact tame_evalCases rest subject frame
termination_by cases => sizeOf cases
decreasing_by all_goals (simp only [List.cons.sizeOf_spec, Prod.mk.sizeOf_spec]; omega)
theorem tame_evalChain : (segments : List (Segment Code)) → (frame : Frame) →
    Tame (evalChain segments frame : Proc σ Value)
  | [], frame => by
    simp only [evalChain]
    exact tame_pure _
  | ⟨e, _, slot⟩ :: rest, frame => by
    simp only [evalChain]
    refine tame_unless_stop ?_ fun e => tame_pure e
    refine tame_bind (tame_eval e frame []) fun v => ?_
    exact tame_bind (Pattern.tame_bindSlot slot v frame frame.scope) fun r =>
      tame_evalSegments rest r.1 r.2 frame
termination_by segments => sizeOf segments
decreasing_by all_goals (simp only [List.cons.sizeOf_spec, Segment.mk.sizeOf_spec]; omega)
theorem tame_evalSegments : (segments : List (Segment Code)) → (running : Value) →
    (scope : Scope) → (frame : Frame) →
    Tame (evalSegments segments running scope frame : Proc σ Value)
  | [], running, scope, frame => by
    simp only [evalSegments]
    exact tame_pure running
  | ⟨e, link, slot⟩ :: rest, running, scope, frame => by
    simp only [evalSegments]
    refine tame_unless_stop ?_ fun e => tame_pure e
    dsimp only
    split
    · refine tame_bind (tame_eval e (frame.withScope scope) [running]) fun v => ?_
      exact tame_bind (Pattern.tame_bindSlot slot v (frame.withScope scope) scope) fun r =>
        tame_evalSegments rest (link.carry running r.1) r.2 frame
    · exact tame_evalSegments rest running scope frame
termination_by segments => sizeOf segments
decreasing_by all_goals (simp only [List.cons.sizeOf_spec, Segment.mk.sizeOf_spec]; omega)
theorem tame_evalItems : (items : List Code) → (last : Value) →
    (bound : List (String × Value)) → (frame : Frame) →
    Tame (evalItems items last bound frame : Proc σ _)
  | items, last, bound, frame => by
    unfold evalItems
    split
    · exact tame_pure _
    next pattern e rest =>
      refine tame_unless_stop ?_ fun e => tame_pure _
      refine tame_bind (tame_eval e frame []) fun v => ?_
      refine tame_bind (pattern.tame_bind v frame) ?_
      rintro (e' | names)
      · exact tame_pure _
      · exact tame_evalItems rest v (bound ++ names) (frame.withScope (frame.scope.addAll names))
    next e rest _ =>
      refine tame_unless_stop ?_ fun e => tame_pure _
      refine tame_bind (tame_eval e frame []) fun v => ?_
      split
      · exact tame_pure _
      · exact tame_evalItems rest v bound frame
termination_by items => sizeOf items
decreasing_by all_goals (subst_vars; simp only [List.cons.sizeOf_spec, bind.sizeOf_spec]; omega)
end

end Expr

/-- The functions of the host leave the caches alone. -/
def Host.Tame (host : Host σ) : Prop := ∀ key frame args, Proc.Tame (host key frame args)

theorem Host.tame_none : Host.none.Tame := fun _ _ _ => Proc.tame_pure _

open Proc in
/-- The procedures of calls change the caches by look-ups alone. -/
theorem Call.tame_proc {host : Host σ} (hhost : host.Tame) (c : Call) : Tame (c.proc host) := by
  obtain ⟨callee, frame, args⟩ := c
  cases callee with
  | native n =>
    have hbody : ∀ frame args, Tame (nativeBody host n.operation frame args) := by
      intro frame args
      cases n.operation with
      | builtin op => exact Attempt.tame_result (op.tame_attempt frame args)
      | host key => exact hhost key frame args
    simp only [proc, runNative]
    split
    · exact tame_curry _ args _ _
    · refine tame_unless_stop ?_ fun e => tame_pure e
      dsimp only
      split
      · exact tame_bind (hbody _ _) fun v => tame_applyRest v frame _
      · exact hbody _ args
  | closure id lambda scope =>
    simp only [proc, runClosure]
    split
    · exact tame_curry _ args _ _
    · refine tame_unless_stop ?_ fun e => tame_pure e
      exact tame_bind (Expr.tame_eval lambda.body _ []) fun v => tame_applyRest v frame _
  | curried id func saved arity order =>
    simp only [proc, runCurried]
    split
    · exact tame_pure _
    · split
      · exact tame_bind tame_fresh fun _ => tame_pure _
      · exact tame_invoke func frame _
  | thunk id code scope => exact Expr.tame_eval code (frame.withScope scope) args
  | code id code => exact Expr.tame_eval code frame args
  | _ => exact tame_pure _

end ChainScript
