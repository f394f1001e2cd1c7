import ChainScript.Proofs.Builtin
import ChainScript.Proofs.Eval.Expr

/-!
Calls keep the contract of a policy. What a call does is the same in any scope, since only code that
lacks a scope would look at the one of the caller.
-/
namespace ChainScript

namespace Call

open Proc

variable {σ : Type} {p : Policy σ} {host : Host σ} {site : Call → Prop} {w : World σ}
  {frame : Frame} {args : List Value} {s : Scope}

/-- The calls that a call may make. -/
inductive Site (p : Policy σ) : Call → Call → Prop
  | native {n : Native} {frame : Frame} {args : List Value} {d : Call}
      (hargs : n.arity.required ≤ args.length)
      (hd : d.frame = frame.enter n.name ∨ d.frame = frame) :
      Site p ⟨.native n, frame, args⟩ d
  | body {id : Nat} {l : Lambda Code} {scope : Scope} {frame : Frame} {args : List Value} {d : Call}
      (hargs : l.params.length ≤ args.length) (hdepth : frame.depth < frame.maxDepth)
      (hd : Expr.Site p l.body.memos
        ((frame.descend l.name).withScope
          ((scope.add l.name (.closure id l scope)).addAll (l.params.zip args))) d) :
      Site p ⟨.closure id l scope, frame, args⟩ d
  | rest {id : Nat} {l : Lambda Code} {scope : Scope} {frame : Frame} {args : List Value}
      {v : Value} (hargs : l.params.length < args.length) (hv : p.result v) :
      Site p ⟨.closure id l scope, frame, args⟩ ⟨v, frame, args.drop l.params.length⟩
  | waiting {id : Nat} {func : Value} {saved : List Value} {arity : Nat} {order : Order}
      {frame : Frame} {args : List Value} (hargs : args ≠ [])
      (henough : arity ≤ (combine order saved args).length) :
      Site p ⟨.curried id func saved arity order, frame, args⟩
        ⟨func, frame, combine order saved args⟩
  | thunk {id : Option Nat} {code : Code} {scope : Scope} {frame : Frame} {args : List Value}
      {d : Call}
      (hd : Expr.Site p code.memos (frame.withScope scope) d) :
      Site p ⟨.thunk id code scope, frame, args⟩ d

/-- The contract for the part of a call after its frame has been found not to have to stop. -/
theorem agree_unless_stop {x y : Proc σ Value} (frame : Frame) (hw : w.Obeys p)
    (h : ∀ w, w.Obeys p → frame.depth ≤ frame.maxDepth →
      Agree (p.contract.under site) p.Yields x y w) :
    Agree (p.contract.under site) p.Yields
      (do
        if let some e ← Proc.stop? frame then return e
        x)
      (do
        if let some e ← Proc.stop? frame then return e
        y) w := by
  refine agree_seq (ensures_stop? frame hw) ?_
  rintro (_ | e) w ⟨hw, hdepth, hstop⟩
  · exact h w hw (hdepth rfl)
  · exact agree_pure (hstop e rfl).1

theorem agree_runNative {n : Native} (hn : p.native n) (hw : w.Obeys p)
    (hargs : ∀ a ∈ args, a.Obeys p)
    (hsite : n.arity.required ≤ args.length →
      ∀ d : Call, d.frame = frame.enter n.name ∨ d.frame = frame → site d) :
    Agree (p.contract.under site) p.Yields (runNative host n frame args)
      (runNative host n (frame.withScope s) args) w := by
  unfold runNative
  split
  next hfew =>
    refine ensures_curry hw (.native hn) rfl hargs ?_
    exact fun hne => p.waiting_native hn hne hfew
  next hmany =>
    have hcalls := hsite (Nat.le_of_not_lt hmany)
    refine agree_unless_stop (frame.enter n.name) hw ?_
    intro w hw _
    obtain ⟨op, hop⟩ := p.builtin_of_native hn
    have hbody (vs : List Value) (hvs : ∀ a ∈ vs, a.Obeys p) :
        Agree (p.contract.under site) p.Yields (nativeBody host n.operation (frame.enter n.name) vs)
          (nativeBody host n.operation ((frame.withScope s).enter n.name) vs) w := by
      rw [hop]
      exact Builtin.agree_run (fun v => hcalls _ (.inl rfl)) s op hw hvs
    split
    next k =>
      refine agree_seq (hbody _ fun a ha => hargs a (List.mem_of_mem_take ha)) ?_
      intro v w hv
      exact agree_applyRest hv (fun a ha => hargs a (List.mem_of_mem_drop ha))
        (fun _ => hcalls _ (.inr rfl)) s
    next => exact hbody args hargs

theorem agree_runClosure {id : Nat} {l : Lambda Code} {scope : Scope} (hl : p.Admits l.body)
    (hs : scope.Obeys p) (hw : w.Obeys p) (hargs : ∀ a ∈ args, a.Obeys p)
    (hsite : ∀ d, Site p ⟨.closure id l scope, frame, args⟩ d → site d) :
    Agree (p.contract.under site) p.Yields
      (runClosure (.closure id l scope) l scope frame args)
      (runClosure (.closure id l scope) l scope (frame.withScope s) args) w := by
  have hself : Value.Obeys p (.closure id l scope) := .closure id hl hs
  unfold runClosure
  dsimp only
  split
  next hfew =>
    refine ensures_curry hw hself rfl hargs ?_
    exact fun hne => p.waiting_closure hne hfew
  next hmany =>
    refine agree_unless_stop (frame.descend l.name) hw ?_
    intro w hw hdepth
    have henough := Nat.le_of_not_lt hmany
    have hscope :
        ((scope.add l.name (.closure id l scope)).addAll (l.params.zip args)).Obeys p := by
      refine Scope.obeys_addAll (.bound ?_ hs) fun e he => hargs _ (List.of_mem_zip he).2
      intro e he
      obtain rfl := List.mem_singleton.mp he
      exact hself
    refine agree_seq (Expr.ensures_eval l.body _ [] w (fun m ps b hocc => ⟨hocc, hl m ps b hocc⟩)
      hw hscope (by simp) fun c hc => hsite c (.body henough hdepth hc)) ?_
    intro v w hv
    refine agree_applyRest hv (fun a ha => hargs a (List.mem_of_mem_drop ha)) ?_ s
    intro hne
    have hmore : l.params.length < args.length := by
      rcases Nat.lt_or_ge l.params.length args.length with h | h
      · exact h
      · exact absurd (List.drop_eq_nil_of_le h) hne
    exact hsite _ (.rest hmore hv.2.2)

theorem agree_runCurried {id : Nat} {func : Value} {saved : List Value} {arity : Nat}
    {order : Order} (hself : Value.Obeys p (.curried id func saved arity order))
    (hw : w.Obeys p) (hargs : ∀ a ∈ args, a.Obeys p)
    (hsite : ∀ d, Site p ⟨.curried id func saved arity order, frame, args⟩ d → site d) :
    Agree (p.contract.under site) p.Yields
      (runCurried (.curried id func saved arity order) func saved arity order frame args)
      (runCurried (.curried id func saved arity order) func saved arity order
        (frame.withScope s) args) w := by
  unfold runCurried
  split
  · exact agree_pure (p.yields_of_isEvaluated hw hself rfl)
  next hne =>
    cases hself with
    | curried _ hfunc hsaved hwaiting =>
      have hall : ∀ a ∈ combine order saved args, a.Obeys p := by
        intro a ha
        cases order with
        | savedFirst => exact (List.mem_append.mp ha).elim (hsaved a) (hargs a)
        | savedLast => exact (List.mem_append.mp ha).elim (hargs a) (hsaved a)
      dsimp only
      split
      next hfew =>
        refine agree_seq (ensures_fresh hw) ?_
        intro id w hw
        have hmore := p.waiting_combine hwaiting hfew
        exact agree_pure (p.yields_of_isEvaluated hw (.curried id hfunc hall hmore) rfl)
      next hmany =>
        refine agree_invoke hw (hsite _ (.waiting ?_ (Nat.le_of_not_lt hmany))) hfunc hall s
        rintro rfl
        simp at hne

/-- A call keeps the contract, and does the same in any scope. -/
theorem agree_proc {c : Call} (hc : c.Obeys p) (hw : w.Obeys p) (s : Scope) :
    Agree (p.contract.under (Site p c)) p.Yields (c.proc host)
      (proc host { c with frame := c.frame.withScope s }) w := by
  obtain ⟨callee, frame, args⟩ := c
  obtain ⟨hcallee, hargs⟩ := hc
  cases hcallee with
  | native hn => exact agree_runNative hn hw hargs fun henough d hd => .native henough hd
  | closure id hl hs => exact agree_runClosure hl hs hw hargs fun d hd => hd
  | curried id hf hs hwaiting =>
    exact agree_runCurried (.curried id hf hs hwaiting) hw hargs fun d hd => hd
  | thunk id hcode hs =>
    exact Expr.ensures_eval _ _ _ w (fun m ps b hocc => ⟨hocc, hcode m ps b hocc⟩) hw hs hargs
      fun d hd => .thunk hd
  | number x => exact agree_pure (p.yields_of_isEvaluated hw (.number x) rfl)
  | string t => exact agree_pure (p.yields_of_isEvaluated hw (.string t) rfl)
  | boolean b => exact agree_pure (p.yields_of_isEvaluated hw (.boolean b) rfl)
  | error id failure => exact agree_pure (p.yields_of_isEvaluated hw (.error id failure) rfl)
  | array hobeys hitem => exact agree_pure (p.yields_of_isEvaluated hw (.array hobeys hitem) rfl)
  | module hspace => exact agree_pure (p.yields_of_isEvaluated hw (.module hspace) rfl)

theorem ensures_proc (c : Call) (w : World σ) (h : p.contract.ask c w) :
    Ensures (p.contract.under (Site p c)) p.Yields (c.proc host) w :=
  agree_proc h.1 h.2 c.frame.scope

/-- A call is made at the depth of the call that makes it, or one deeper if there is depth left. -/
theorem depth_of_site {c d : Call} (h : Site p c d) :
    d.frame.maxDepth = c.frame.maxDepth ∧
      (d.frame.depth = c.frame.depth ∨
        d.frame.depth = c.frame.depth + 1 ∧ c.frame.depth < c.frame.maxDepth) := by
  cases h with
  | native _ hd => rcases hd with hd | hd <;> simp [hd, Frame.enter]
  | body _ hdepth hd => cases hd <;> exact ⟨rfl, .inr ⟨rfl, hdepth⟩⟩
  | rest _ _ => exact ⟨rfl, .inl rfl⟩
  | waiting _ _ => exact ⟨rfl, .inl rfl⟩
  | thunk hd => cases hd <;> exact ⟨rfl, .inl rfl⟩

section Run

-- What follows holds under a policy that asks to know nothing about calls that have ended.
variable {α : Type} {start : Proc σ α} {w₀ w' : World σ} {post : α → World σ → Prop} {c d : Call}
  {cs : List Call} {v : Value} {a : α} (hknown : ∀ c w v w', p.known c w v w')

include hknown

theorem yields_of_answers (hc : c.Obeys p) (hw : w.Obeys p) (h : c.Answers host w v w') :
    p.Yields v w' := by
  have hmade : Reaches host (invoke c.callee c.frame c.args) w c w := ⟨[], .made ⟨done, .refl⟩⟩
  exact grant_of_answers ensures_proc (fun c w v w' _ _ => hknown c w v w') hmade ⟨hc, hw⟩ h

variable (hstart : Ensures (p.contract.under site) post start w₀)

include hstart

theorem obeys_of_stack (hstack : Stack host start w₀ (c :: cs) w) : c.Obeys p ∧ w.Obeys p :=
  ask_of_stack (k := p.contract) ensures_proc (fun c w v w' _ _ => hknown c w v w') hstart hstack

theorem site_of_stack (hstack : Stack host start w₀ (d :: c :: cs) w) : Site p c d :=
  around_of_stack ensures_proc (fun c w v w' _ _ => hknown c w v w') hstart hstack

theorem site_of_makes (hmade : Makes host start w₀ c w) : site c :=
  (ask_of_makes ensures_proc (fun c w v w' _ _ => hknown c w v w') hstart
    (fun _ _ hd => ⟨[], .made hd⟩) hmade).1

theorem post_of_runs (hrun : start.Runs host w₀ a w) : post a w :=
  Proc.post_of_runs ensures_proc (fun c w v w' _ _ => hknown c w v w') hstart hrun

end Run

end Call

end ChainScript
