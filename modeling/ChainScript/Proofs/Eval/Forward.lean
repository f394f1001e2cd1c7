import ChainScript.Proofs.Builtin.Forward
import ChainScript.Proofs.Eval.Mirrors

/-!
Evaluation takes its numbers from the world. Wherever evaluation gets to, the next number of the
world is one that no value has, be it in a scope, in a result or in what a memo remembers.
-/
namespace ChainScript

open Proc

variable {σ : Type} {n : Nat} {frame : Frame} {args : List Value}

namespace Pattern

/-- The values that names are bound to. -/
abbrev BoundBelow (names : List (String × Value)) (n : Nat) : Prop := ∀ e ∈ names, e.2.Below n

theorem below_bindings {pattern : Pattern} {v : Value} {names : List (String × Value)}
    (hv : v.Below n) (h : pattern.bindings v = .ok names) : BoundBelow names n := by
  unfold bindings at h
  split at h
  · obtain rfl := Except.ok.inj h
    exact List.forall_mem_singleton.mpr hv
  · split at h
    · split at h
      · cases h
      · obtain rfl := Except.ok.inj h
        exact fun e he => Value.below_array_iff.mp hv _ (List.of_mem_zip he).2
    · cases h

theorem keeps_bind (pattern : Pattern) {v : Value} (hv : v.Below n) (frame : Frame) :
    Keeps n (Attempt.GoodOutcome BoundBelow) (pattern.bind v frame : Proc σ _) := by
  unfold bind
  split
  · exact keeps_pure (a := Except.error v) fun _ hn => below_mono hv hn
  · split
    next names hnames =>
      refine keeps_pure (a := Except.ok names) fun _ hn e he => ?_
      exact below_mono (below_bindings hv hnames e he) hn
    next cause _ => exact keeps_failed (g := Except.error) (fun _ _ _ he => he) frame cause

theorem keeps_bindSlot (slot : Option Pattern) {output : Value} {scope : Scope}
    (houtput : output.Below n) (hs : scope.Below n) (frame : Frame) :
    Keeps n (fun r n' => r.1.Below n' ∧ r.2.Below n')
      (bindSlot slot output frame scope : Proc σ _) := by
  have hboth {scope : Scope} (hs : scope.Below n) :
      Keeps n (fun r n' => r.1.Below n' ∧ r.2.Below n')
        (pure (output, scope) : Proc σ (Value × Scope)) :=
    keeps_pure fun _ hn => ⟨below_mono houtput hn, below_mono hs hn⟩
  unfold bindSlot
  split
  · exact hboth hs
  · exact hboth (Scope.below_addAll hs (List.forall_mem_singleton.mpr houtput))
  · refine Proc.keeps_bind (keeps_bind _ houtput frame) ?_
    rintro (e | bound) n₁ hn₁ h
    · exact keeps_pure fun _ hn => ⟨below_mono h hn, below_mono hs (Nat.le_trans hn₁ hn)⟩
    · refine keeps_pure fun n₂ hn₂ => ⟨below_mono houtput (Nat.le_trans hn₁ hn₂), ?_⟩
      exact below_mono (Scope.below_addAll (below_mono hs hn₁) h) hn₂

end Pattern

namespace Expr

theorem keeps_withSubject {side subject : Value} (hside : side.Below n) (hv : subject.Below n)
    (hs : frame.scope.Below n) :
    Keeps n Value.Below (withSubject side subject frame : Proc σ Value) := by
  unfold withSubject
  split
  · exact keeps_of_below hside
  · exact keeps_invoke hside (List.forall_mem_singleton.mpr hv) hs

theorem keeps_forceParams (params : List String) (hs : frame.scope.Below n) :
    Keeps n (Attempt.GoodOutcome fun values n' => ∀ v ∈ values, v.Below n')
      (forceParams frame params : Proc σ _) := by
  induction params generalizing n with
  | nil => exact keeps_pure (a := Except.ok []) fun _ _ => List.forall_mem_nil _
  | cons x rest ih =>
    unfold forceParams
    split
    · exact keeps_failed (g := Except.error) (fun _ _ _ he => he) frame _
    next b hb =>
      refine keeps_bind (keeps_realize (Scope.below_find? hs hb)) fun v n₁ hn₁ hv => ?_
      have hs₁ := below_mono hs hn₁
      refine keeps_bind (keeps_invoke hv (List.forall_mem_nil _) hs₁) fun u n₂ hn₂ hu => ?_
      split
      · exact keeps_pure (a := Except.error u) fun _ hn => below_mono hu hn
      · refine keeps_bind (ih (below_mono hs₁ hn₂)) ?_
        rintro (e | values) n₃ hn₃ h
        · exact keeps_pure (a := Except.error e) fun _ hn => below_mono h hn
        · refine keeps_pure (a := Except.ok (u :: values)) fun n₄ hn₄ => ?_
          exact List.forall_mem_cons.mpr
            ⟨below_mono hu (Nat.le_trans hn₃ hn₄), fun w hw => below_mono (h w hw) hn₄⟩

theorem keeps_storedOr {values : List Value} {body : Proc σ Value} (mark : Nat)
    (hvalues : ∀ v ∈ values, v.Below n) (hbody : Keeps n Value.Below body) :
    Keeps n Value.Below (storedOr mark values body) := by
  intro w hn hw
  have hvalues' : ∀ v ∈ values, v.Below w.next := fun v hv => below_mono (hvalues v hv) hn
  unfold storedOr
  dsimp only [Forward]
  split
  next result hresult => exact World.stored?_of_numbered hw hvalues' hresult
  next =>
    refine forward_bind (hbody w hn hw) hw fun result w₁ hfollows hresult => ?_
    split
    · refine keeps_bind (n := w₁.next) (keeps_modify (n := w₁.next) fun w₂ hn₂ hw₂ => ?_)
        (fun _ _ hn' _ => keeps_of_below (below_mono hresult hn')) w₁ (Nat.le_refl _)
        hfollows.numbered
      refine ⟨⟨rfl, rfl⟩, Nat.le_refl _, World.numbered_store hw₂ ?_ (below_mono hresult hn₂)⟩
      exact fun v hv => below_mono (hvalues' v hv) (Nat.le_trans hfollows.le hn₂)
    · exact hresult

mutual
theorem keeps_eval (code : Code) (frame : Frame) (args : List Value) (n : Nat)
    (hs : frame.scope.Below n) (hargs : ∀ a ∈ args, a.Below n) :
    Keeps n Value.Below (code.eval frame args : Proc σ Value) := by
  have hnone {n : Nat} : ∀ a ∈ ([] : List Value), a.Below n := List.forall_mem_nil _
  have hempty : (Value.array []).Below n := Value.below_array_iff.mpr hnone
  -- The frame and the arguments are as good for whatever numbers are taken in between.
  have hscope {n' : Nat} (hn : n ≤ n') : frame.scope.Below n' := below_mono hs hn
  have hlater {n' : Nat} (hn : n ≤ n') : ∀ a ∈ args, a.Below n' :=
    fun a ha => below_mono (hargs a ha) hn
  have hrest {v : Value} {n' : Nat} (hn : n ≤ n') (hv : v.Below n') :
      Keeps n' Value.Below (applyRest v frame args : Proc σ Value) :=
    keeps_applyRest hv (hlater hn) (hscope hn)
  cases code with
  | number x =>
    unfold eval
    exact keeps_of_below (Value.below_number x)
  | string t =>
    unfold eval
    exact keeps_of_below (Value.below_string t)
  | empty =>
    unfold eval
    exact keeps_of_below hempty
  | var x =>
    unfold eval
    split
    · exact keeps_fail frame _
    next b hb => exact keeps_realized (Scope.below_find? hs hb) hargs hs
  | array items =>
    unfold eval
    exact keeps_evalArray items [] frame n hs hnone
  | lambda name params body =>
    unfold eval
    refine keeps_bind keeps_fresh fun id n' hn hid => ?_
    have hclosure : (Value.closure id ⟨name, params, body⟩ frame.scope).Below n' :=
      Value.below_closure_iff.mpr ⟨hid, hscope hn⟩
    dsimp only
    split
    · exact keeps_of_below hclosure
    · exact keeps_invoke hclosure (hlater hn) (hscope hn)
  | apply func own =>
    unfold eval
    refine keeps_bind (keeps_eval func frame [] n hs hnone) fun v n' hn hv => ?_
    have hown : ∀ a ∈ own.map (Value.pin frame.scope), a.Below n' := by
      intro a ha
      obtain ⟨e, -, rfl⟩ := List.mem_map.mp ha
      exact Value.below_pin (hscope hn)
    dsimp only
    split
    · exact keeps_of_below hv
    · refine keeps_invoke hv ?_ (hscope hn)
      split
      · exact List.forall_mem_append.mpr ⟨hlater hn, hown⟩
      · exact List.forall_mem_append.mpr ⟨hown, hlater hn⟩
  | switch subject cases =>
    unfold eval
    refine keeps_bind (keeps_eval subject frame [] n hs hnone) fun v n₁ hn₁ hv => ?_
    split
    · exact keeps_of_below hv
    · refine keeps_bind (keeps_evalCases cases v frame n₁ (hscope hn₁) hv) fun u n₂ hn₂ hu => ?_
      exact hrest (Nat.le_trans hn₁ hn₂) hu
  | chain segments =>
    unfold eval
    exact keeps_bind (keeps_evalChain segments frame n hs) fun u n' hn hu => hrest hn hu
  | compound items =>
    unfold eval
    refine keeps_bind (keeps_evalItems items (.array []) [] frame n hs hempty
      (List.forall_mem_nil _)) fun r n' hn hr => ?_
    exact hrest hn hr.1
  | collector items =>
    unfold eval
    refine keeps_bind (keeps_evalItems items (.array []) [] frame n hs hempty
      (List.forall_mem_nil _)) fun r n₁ hn₁ hr => ?_
    dsimp only
    split
    · exact keeps_of_below hr.1
    · refine keeps_bind keeps_fresh fun id n₂ hn₂ hid => ?_
      have hn := Nat.le_trans hn₁ hn₂
      refine hrest hn (Value.below_module_iff.mpr (Module.below_space hid ?_ (hscope hn)))
      exact fun e he => below_mono (hr.2 e (Table.mem_ofList he)) hn₂
  | bind pattern value =>
    unfold eval
    refine keeps_bind (keeps_eval value frame [] n hs hnone) fun v n₁ hn₁ hv => ?_
    refine keeps_bind (pattern.keeps_bind hv frame) ?_
    rintro (e | names) n₂ hn₂ h
    · exact keeps_of_below h
    · exact hrest (Nat.le_trans hn₁ hn₂) (below_mono hv hn₂)
  | member base name =>
    unfold eval
    refine keeps_bind (keeps_eval base frame [] n hs hnone) fun v n' hn hv => ?_
    split
    next space =>
      split
      · exact keeps_fail frame _
      next b hb =>
        exact keeps_realized (Namespace.below_resolve? (Value.below_module_iff.mp hv) hb)
          (hlater hn) (hscope hn)
    · exact keeps_of_below hv
    · exact keeps_fail frame _
  | within base body =>
    unfold eval
    refine keeps_bind (keeps_eval base frame [] n hs hnone) fun v n' hn hv => ?_
    split
    next space =>
      exact keeps_eval body (frame.withScope (.members space frame.scope)) args n'
        (Scope.below_members (Value.below_module_iff.mp hv) (hscope hn)) (hlater hn)
    · exact keeps_of_below hv
    · exact keeps_fail frame _
  | memo mark params body =>
    unfold eval
    refine keeps_bind (keeps_forceParams params hs) ?_
    rintro (e | values) n₁ hn₁ h
    · exact keeps_of_below h
    · have hinner : (frame.scope.addAll (params.zip values)).Below n₁ :=
        Scope.below_addAll (hscope hn₁) fun e he => h _ (List.of_mem_zip he).2
      have hbody : Keeps n₁ Value.Below
          (invoke (.thunk none body (frame.scope.addAll (params.zip values))) frame [] :
            Proc σ Value) :=
        keeps_invoke (Value.below_thunk_iff.mpr hinner) hnone (hscope hn₁)
      refine keeps_bind (keeps_storedOr mark h hbody) fun v n₂ hn₂ hv => ?_
      exact hrest (Nat.le_trans hn₁ hn₂) hv
termination_by sizeOf code
decreasing_by
  all_goals
    simp only [array.sizeOf_spec, apply.sizeOf_spec, switch.sizeOf_spec, chain.sizeOf_spec,
      compound.sizeOf_spec, collector.sizeOf_spec, bind.sizeOf_spec, member.sizeOf_spec,
      within.sizeOf_spec]
    omega
theorem keeps_evalArray (items : List Code) (values : List Value) (frame : Frame) (n : Nat)
    (hs : frame.scope.Below n) (hvalues : ∀ v ∈ values, v.Below n) :
    Keeps n Value.Below (evalArray items values frame : Proc σ Value) := by
  cases items with
  | nil =>
    unfold evalArray
    exact keeps_of_below (Value.below_array_iff.mpr hvalues)
  | cons e rest =>
    unfold evalArray
    refine keeps_bind (keeps_eval e frame [] n hs (List.forall_mem_nil _)) fun v n' hn hv => ?_
    split
    · exact keeps_of_below hv
    · refine keeps_evalArray rest (values ++ [v]) frame n' (below_mono hs hn) ?_
      exact List.forall_mem_append.mpr
        ⟨fun u hu => below_mono (hvalues u hu) hn, List.forall_mem_singleton.mpr hv⟩
termination_by sizeOf items
decreasing_by all_goals (simp only [List.cons.sizeOf_spec]; omega)
theorem keeps_evalCases (cases : List (Code × Code)) (subject : Value) (frame : Frame) (n : Nat)
    (hs : frame.scope.Below n) (hv : subject.Below n) :
    Keeps n Value.Below (evalCases cases subject frame : Proc σ Value) := by
  match cases with
  | [] =>
    unfold evalCases
    exact keeps_of_below hv
  | (lhs, rhs) :: rest =>
    unfold evalCases
    refine keeps_unless_stop (fun e _ _ he => keeps_of_below he) ?_
    refine keeps_bind (keeps_eval lhs frame [] n hs (List.forall_mem_nil _)) fun l n₁ hn₁ hl => ?_
    have hs₁ := below_mono hs hn₁
    refine keeps_bind (keeps_withSubject hl (below_mono hv hn₁) hs₁) fun test n₂ hn₂ htest => ?_
    have hs₂ := below_mono hs₁ hn₂
    have hv₂ := below_mono hv (Nat.le_trans hn₁ hn₂)
    split
    · exact keeps_of_below htest
    · split
      · refine keeps_bind (keeps_eval rhs frame [] n₂ hs₂ (List.forall_mem_nil _)) ?_
        intro r n₃ hn₃ hr
        exact keeps_withSubject hr (below_mono hv₂ hn₃) (below_mono hs₂ hn₃)
      · exact keeps_evalCases rest subject frame n₂ hs₂ hv₂
termination_by sizeOf cases
decreasing_by all_goals (simp only [List.cons.sizeOf_spec, Prod.mk.sizeOf_spec]; omega)
theorem keeps_evalChain (segments : List (Segment Code)) (frame : Frame) (n : Nat)
    (hs : frame.scope.Below n) :
    Keeps n Value.Below (evalChain segments frame : Proc σ Value) := by
  match segments with
  | [] =>
    unfold evalChain
    exact keeps_of_below (Value.below_array_iff.mpr (List.forall_mem_nil _))
  | ⟨e, _, slot⟩ :: rest =>
    unfold evalChain
    refine keeps_unless_stop (fun e _ _ he => keeps_of_below he) ?_
    refine keeps_bind (keeps_eval e frame [] n hs (List.forall_mem_nil _)) fun v n₁ hn₁ hv => ?_
    have hs₁ := below_mono hs hn₁
    refine keeps_bind (Pattern.keeps_bindSlot slot hv hs₁ frame) fun r n₂ hn₂ hr => ?_
    exact keeps_evalSegments rest r.1 r.2 frame n₂ (below_mono hs₁ hn₂) hr.1 hr.2
termination_by sizeOf segments
decreasing_by all_goals (simp only [List.cons.sizeOf_spec, Segment.mk.sizeOf_spec]; omega)
theorem keeps_evalSegments (segments : List (Segment Code)) (running : Value) (scope : Scope)
    (frame : Frame) (n : Nat) (hs : frame.scope.Below n) (hv : running.Below n)
    (hscope : scope.Below n) :
    Keeps n Value.Below (evalSegments segments running scope frame : Proc σ Value) := by
  match segments with
  | [] =>
    unfold evalSegments
    exact keeps_of_below hv
  | ⟨e, link, slot⟩ :: rest =>
    unfold evalSegments
    refine keeps_unless_stop (fun e _ _ he => keeps_of_below he) ?_
    dsimp only
    split
    · refine keeps_bind (keeps_eval e (frame.withScope scope) [running] n hscope
        (List.forall_mem_singleton.mpr hv)) fun v n₁ hn₁ hv₁ => ?_
      refine keeps_bind (Pattern.keeps_bindSlot slot hv₁ (below_mono hscope hn₁) _) ?_
      intro r n₂ hn₂ hr
      have hn := Nat.le_trans hn₁ hn₂
      refine keeps_evalSegments rest _ r.2 frame n₂ (below_mono hs hn) ?_ hr.2
      unfold Link.carry
      split
      · exact below_mono hv hn
      · exact hr.1
    · exact keeps_evalSegments rest running scope frame n hs hv hscope
termination_by sizeOf segments
decreasing_by all_goals (simp only [List.cons.sizeOf_spec, Segment.mk.sizeOf_spec]; omega)
theorem keeps_evalItems (items : List Code) (last : Value) (bound : List (String × Value))
    (frame : Frame) (n : Nat) (hs : frame.scope.Below n) (hlast : last.Below n)
    (hbound : Pattern.BoundBelow bound n) :
    Keeps n (fun r n' => r.1.Below n' ∧ Pattern.BoundBelow r.2 n')
      (evalItems items last bound frame : Proc σ _) := by
  have hend {v : Value} {n' : Nat} (hv : v.Below n') (hn : n ≤ n') :
      Keeps n' (fun r n' => r.1.Below n' ∧ Pattern.BoundBelow r.2 n')
        (pure (v, bound) : Proc σ (Value × List (String × Value))) :=
    keeps_pure fun _ hn' => ⟨below_mono hv hn',
      fun e he => below_mono (hbound e he) (Nat.le_trans hn hn')⟩
  unfold evalItems
  split
  · exact hend hlast (Nat.le_refl n)
  next pattern e rest =>
    refine keeps_unless_stop (fun e _ hn he => hend he hn) ?_
    refine keeps_bind (keeps_eval e frame [] n hs (List.forall_mem_nil _)) fun v n₁ hn₁ hv => ?_
    refine keeps_bind (pattern.keeps_bind hv frame) ?_
    rintro (e' | names) n₂ hn₂ h
    · exact hend h (Nat.le_trans hn₁ hn₂)
    · have hn := Nat.le_trans hn₁ hn₂
      refine keeps_evalItems rest v (bound ++ names) _ n₂ (Scope.below_addAll (below_mono hs hn) h)
        (below_mono hv hn₂) ?_
      exact List.forall_mem_append.mpr ⟨fun e he => below_mono (hbound e he) hn, h⟩
  next e rest _ =>
    refine keeps_unless_stop (fun e _ hn he => hend he hn) ?_
    refine keeps_bind (keeps_eval e frame [] n hs (List.forall_mem_nil _)) fun v n₁ hn₁ hv => ?_
    split
    · exact hend hv hn₁
    · exact keeps_evalItems rest v bound frame n₁ (below_mono hs hn₁) hv
        fun e he => below_mono (hbound e he) hn₁
termination_by sizeOf items
decreasing_by all_goals (subst_vars; simp only [List.cons.sizeOf_spec, bind.sizeOf_spec]; omega)
end

end Expr

/-- The functions of the host take their numbers from the world as well. -/
def Host.Keeps (host : Host σ) : Prop :=
  ∀ key frame args n, frame.scope.Below n → (∀ a ∈ args, a.Below n) →
    Proc.Keeps n Value.Below (host key frame args)

namespace Call

variable {host : Host σ} {c : Call} {v : Value} {w w' : World σ}

theorem keeps_runNative (hhost : host.Keeps) {m : Native} (hm : (Value.native m).Below n)
    (hargs : ∀ a ∈ args, a.Below n) (hs : frame.scope.Below n) :
    Keeps n Value.Below (runNative host m frame args) := by
  have hbody (args : List Value) (hargs : ∀ a ∈ args, a.Below n) :
      Keeps n Value.Below (nativeBody host m.operation (frame.enter m.name) args) := by
    cases m.operation with
    | builtin op => exact op.keeps_run hargs hs
    | host key => exact hhost key _ args n hs hargs
  unfold runNative
  split
  · exact keeps_curry hm hargs _ _
  · refine keeps_unless_stop (fun e _ _ he => keeps_of_below he) ?_
    dsimp only
    split
    next k _ =>
      refine keeps_bind (hbody _ fun a ha => hargs a (List.mem_of_mem_take ha)) fun v n' hn hv => ?_
      exact keeps_applyRest hv (fun a ha => below_mono (hargs a (List.mem_of_mem_drop ha)) hn)
        (below_mono hs hn)
    · exact hbody args hargs

theorem keeps_runClosure {id : Nat} {l : Lambda Code} {scope : Scope}
    (hself : (Value.closure id l scope).Below n) (hargs : ∀ a ∈ args, a.Below n)
    (hs : frame.scope.Below n) :
    Keeps n Value.Below (runClosure (.closure id l scope) l scope frame args : Proc σ Value) := by
  unfold runClosure
  dsimp only
  split
  · exact keeps_curry hself hargs _ _
  · refine keeps_unless_stop (fun e _ _ he => keeps_of_below he) ?_
    have hscope :
        ((scope.add l.name (.closure id l scope)).addAll (l.params.zip args)).Below n := by
      refine Scope.below_addAll ?_ fun e he => hargs _ (List.of_mem_zip he).2
      exact Scope.below_add (Value.below_closure_iff.mp hself).2 hself
    refine keeps_bind (Expr.keeps_eval l.body _ [] n hscope (List.forall_mem_nil _)) ?_
    intro v n' hn hv
    exact keeps_applyRest hv (fun a ha => below_mono (hargs a (List.mem_of_mem_drop ha)) hn)
      (below_mono hs hn)

theorem keeps_runCurried {id : Nat} {func : Value} {saved : List Value} {arity : Nat}
    {order : Order} (hself : (Value.curried id func saved arity order).Below n)
    (hargs : ∀ a ∈ args, a.Below n) (hs : frame.scope.Below n) :
    Keeps n Value.Below
      (runCurried (.curried id func saved arity order) func saved arity order frame args :
        Proc σ Value) := by
  obtain ⟨-, hfunc, hsaved⟩ := Value.below_curried_iff.mp hself
  have hall : ∀ a ∈ combine order saved args, a.Below n := by
    cases order with
    | savedFirst => exact List.forall_mem_append.mpr ⟨hsaved, hargs⟩
    | savedLast => exact List.forall_mem_append.mpr ⟨hargs, hsaved⟩
  unfold runCurried
  split
  · exact keeps_of_below hself
  · dsimp only
    split
    · refine keeps_bind keeps_fresh fun k n' hn hk => keeps_of_below ?_
      exact Value.below_curried_iff.mpr
        ⟨hk, below_mono hfunc hn, fun a ha => below_mono (hall a ha) hn⟩
    · exact keeps_invoke hfunc hall hs

theorem keeps_proc (hhost : host.Keeps) (hc : c.NumbersBelow n) :
    Keeps n Value.Below (c.proc host) := by
  obtain ⟨callee, frame, args⟩ := c
  obtain ⟨hcallee, hargs, hs⟩ := hc
  cases callee with
  | native m => exact keeps_runNative hhost hcallee hargs hs
  | closure id l scope => exact keeps_runClosure hcallee hargs hs
  | curried id func saved arity order => exact keeps_runCurried hcallee hargs hs
  | thunk id code scope =>
    exact Expr.keeps_eval code (frame.withScope scope) args n (Value.below_of_thunk hcallee) hargs
  | code id code => exact Expr.keeps_eval code frame args n hs hargs
  | _ => exact keeps_of_below hcallee

/-- What a call leaves behind has no numbers but those taken by then. -/
theorem follows_of_answers (hhost : host.Keeps) (hc : c.NumbersBelow w.next) (hw : w.Numbered)
    (h : c.Answers host w v w') : w.Follows w' ∧ v.Below w'.next := by
  obtain ⟨fuel, h⟩ := h
  induction fuel generalizing c w v w' with
  | zero => simp [answer] at h
  | succ fuel ih =>
    have hforward := keeps_proc hhost hc w (Nat.le_refl _) hw
    exact follows_of_exec (fun c w v w' hc hw h => ih hc hw h) hforward hw h

end Call

end ChainScript
