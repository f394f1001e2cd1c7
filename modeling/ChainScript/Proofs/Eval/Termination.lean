import ChainScript.Proofs.Eval.Scoping

/-!
Termination. The recursion limit bounds how deep the bodies of script functions nest, and between
two of them evaluation can only run down the thunks in scope and the arguments at hand. What it does
not bound are native functions and functions without parameters that are given arguments: they call
on in the frame of their caller.
-/
namespace ChainScript

open Proc

variable {σ : Type} {host : Host σ} {c d : Call} {cs : List Call} {v : Value} {w : World σ}

/--
Results are evaluated, items are no errors, and functions wait for as many arguments as they take.
-/
def Policy.strict (σ : Type) : Policy σ :=
  { Policy.sealed σ with
    result := fun v => v.isEvaluated = true
    item := fun v => v.isEvaluated = true ∧ v.isError = false
    waiting := fun func saved arity order => 0 < saved.length ∧ saved.length < arity ∧
      ((∃ n, func = .native n ∧ arity = n.arity.required ∧ order = n.order) ∨
        ∃ id l scope, func = .closure id l scope ∧ arity = l.params.length ∧ order = .savedFirst)
    result_of_isEvaluated := fun h => h
    item_of_result := fun h h' => ⟨h, h'⟩
    result_of_item := fun h => h.1
    waiting_native := fun _ hne hfew =>
      ⟨List.length_pos_iff.mpr hne, hfew, .inl ⟨_, rfl, rfl, rfl⟩⟩
    waiting_closure := fun hne hfew =>
      ⟨List.length_pos_iff.mpr hne, hfew, .inr ⟨_, _, _, rfl, rfl, rfl⟩⟩
    waiting_combine := by
      rintro func saved arity order args ⟨hpos, -, hfunc⟩ hfew
      refine ⟨?_, hfew, hfunc⟩
      cases order <;> simp only [Call.combine, List.length_append] <;> omega }

mutual
/-- How many thunks can be found inside each other, starting from a value. -/
def Value.rank : Value → Nat
  | .thunk _ _ scope => scope.rank + 1
  | _ => 0
def Scope.rank : Scope → Nat
  | .root => 0
  | .bound names outer => max (rankAll names) outer.rank
  | .module _ outer => outer.rank
  | .members _ outer => outer.rank
def rankAll : List (String × Value) → Nat
  | [] => 0
  | (_, v) :: rest => max v.rank (rankAll rest)
end

theorem Value.rank_eq_zero (h : v.isEvaluated = true) : v.rank = 0 := by
  cases v <;> simp_all [isEvaluated, rank]

theorem rank_le_rankAll {names : List (String × Value)} {e : String × Value} (h : e ∈ names) :
    e.2.rank ≤ rankAll names := by
  induction names with
  | nil => cases h
  | cons entry rest ih =>
    simp only [rankAll]
    rcases List.mem_cons.mp h with rfl | h
    · omega
    · have := ih h
      omega

theorem rankAll_eq_zero {names : List (String × Value)}
    (h : ∀ e ∈ names, e.2.isEvaluated = true) : rankAll names = 0 := by
  induction names with
  | nil => rfl
  | cons entry rest ih =>
    have hhead := Value.rank_eq_zero (h entry List.mem_cons_self)
    have hrest := ih fun e he => h e (List.mem_cons_of_mem _ he)
    simp only [rankAll, hhead, hrest]
    omega

namespace Scope

variable {s t : Scope} {x : String}

/-- A scope that grows by results gets no more thunks. -/
theorem rank_eq_of_grows (h : Grows (Policy.strict σ) s t) : t.rank = s.rank := by
  induction h with
  | refl => rfl
  | @addAll t names _ hn ih =>
    rw [addAll]
    split
    · exact ih
    · rw [rank, rankAll_eq_zero fun e he => (hn e (Table.mem_ofList he)).2, ih]
      omega
  | members _ _ ih => exact ih

/-- What is found in a scope is of no higher rank. -/
theorem rank_le_of_find? (hs : s.Obeys (Policy.strict σ)) (h : s.find? x = some (.value v)) :
    v.rank ≤ s.rank := by
  fun_induction Scope.find? x s with
  | case1 => cases h
  | case2 names outer ih =>
    simp only [rank]
    rcases Option.or_eq_some_iff.mp h with h | ⟨_, h⟩
    · obtain ⟨u, hu, hvalue⟩ := Option.map_eq_some_iff.mp h
      obtain rfl := Binding.value.inj hvalue
      have hle : u.rank ≤ rankAll names := rank_le_rankAll (Table.mem_of_get? hu)
      omega
    · cases hs with
      | bound _ ho =>
        have := ih ho h
        omega
  | case3 m outer ih =>
    cases hs with
    | module hm ho =>
      rcases Option.or_eq_some_iff.mp h with h | ⟨_, h⟩
      · have hspace : Namespace.Obeys (Policy.strict σ) ⟨m, .module m outer⟩ :=
          .mk hm (.module hm ho)
        rw [Value.rank_eq_zero (Namespace.fits_resolve? hspace h).2]
        exact Nat.zero_le _
      · exact ih ho h
  | case4 space outer ih =>
    cases hs with
    | members hspace ho =>
      rcases Option.or_eq_some_iff.mp h with h | ⟨_, h⟩
      · rw [Value.rank_eq_zero (Namespace.fits_resolve? hspace h).2]
        exact Nat.zero_le _
      · exact ih ho h

end Scope

namespace Call

/--
Whether the call goes on in the frame of its caller without the recursion limit seeing it: a native
function with all its arguments, or a function without parameters whose result is given arguments.
-/
def isUncounted (c : Call) : Bool :=
  match c.callee with
  | .native n => n.arity.required ≤ c.args.length
  | .closure _ l _ => l.params.isEmpty && !c.args.isEmpty
  | _ => false

/-- What is left to do for the callee itself: the code of a thunk, the surplus of arguments. -/
noncomputable def weight (c : Call) : Nat :=
  match c.callee with
  | .thunk _ code _ => sizeOf code
  | .closure _ l _ => if l.params.isEmpty then 0 else 2 * (c.args.length - l.params.length)
  | .curried _ _ saved arity _ => 2 * (saved.length + c.args.length - arity) + 1
  | _ => 0

/-- The depth that is left, the thunks that can be found, and the weight. -/
noncomputable def measure (c : Call) : Nat × Nat × Nat :=
  (c.frame.maxDepth + 1 - c.frame.depth, c.callee.rank, c.weight)

/-- The order in which the measure goes down. -/
abbrev Below : Nat × Nat × Nat → Nat × Nat × Nat → Prop :=
  Prod.Lex (· < ·) (Prod.Lex (· < ·) (· < ·))

/-- The result that is given the rest of the arguments has less of a surplus. -/
theorem weight_lt_of_rest {args : List Value} (frame : Frame)
    (hv : v.Obeys (Policy.strict σ)) (he : v.isEvaluated = true) (hargs : 0 < args.length) :
    weight ⟨v, frame, args⟩ < 2 * args.length := by
  cases hv with
  | closure id hl hs =>
    simp only [weight]
    split
    · omega
    next hparams =>
      have := List.length_pos_iff.mpr (mt List.isEmpty_iff.mpr hparams)
      omega
  | curried id hf hs hw =>
    obtain ⟨-, hfew, -⟩ := hw
    simp only [weight]
    omega
  | thunk id hc hs => cases he
  | _ => simp only [weight]; omega

theorem below_of_exprSite {frame : Frame} {code : Code} {scope : Scope}
    {id : Option Nat} {args : List Value} (hs : scope.Obeys (Policy.strict σ))
    (hd : Expr.Site (Policy.strict σ) code.memos (frame.withScope scope) d) :
    Below d.measure (measure ⟨.thunk id code scope, frame, args⟩) := by
  cases hd with
  | result hresult =>
    refine .right _ (.left _ _ ?_)
    rw [Value.rank_eq_zero hresult, Value.rank]
    omega
  | found hgrows hfind =>
    refine .right _ (.left _ _ ?_)
    have hle := Scope.rank_le_of_find? (Scope.obeys_of_grows hs hgrows) hfind
    rw [Scope.rank_eq_of_grows hgrows] at hle
    rw [Value.rank]
    exact Nat.lt_succ_of_le hle
  | @body mark params body s values hmemo hgrows hvalues =>
    have hgrows' : Scope.Grows (Policy.strict σ) scope (s.addAll (params.zip values)) :=
      .addAll hgrows fun e he => hvalues _ (List.of_mem_zip he).2
    have hsize := Expr.sizeOf_le_of_occurs hmemo
    simp only [Expr.memo.sizeOf_spec] at hsize
    simp only [measure, Value.rank, Scope.rank_eq_of_grows hgrows', weight]
    refine .right _ (.right _ ?_)
    omega

/-- Each call that is not uncounted makes smaller ones only. -/
theorem below_of_site (hc : c.Obeys (Policy.strict σ)) (hd : d.Obeys (Policy.strict σ))
    (hsite : Site (Policy.strict σ) c d) (hcounted : c.isUncounted = false) :
    Below d.measure c.measure := by
  cases hsite with
  | native hargs hframe => simp [isUncounted, hargs] at hcounted
  | @body id l scope frame args _ hargs hdepth hd =>
    refine .left _ _ ?_
    have hframe : d.frame.maxDepth = frame.maxDepth ∧ d.frame.depth = frame.depth + 1 := by
      cases hd <;> exact ⟨rfl, rfl⟩
    change d.frame.maxDepth + 1 - d.frame.depth < frame.maxDepth + 1 - frame.depth
    omega
  | @rest id l scope frame args v hargs hv =>
    have hparams : l.params.isEmpty = false := by
      cases hempty : l.params.isEmpty with
      | false => rfl
      | true =>
        have : args ≠ [] := List.length_pos_iff.mp (by omega)
        simp [isUncounted, hempty, this] at hcounted
    have hmore : 0 < (args.drop l.params.length).length := by
      rw [List.length_drop]
      omega
    have hlt := weight_lt_of_rest frame hd.callee hv hmore
    rw [List.length_drop] at hlt
    simp only [measure, Value.rank_eq_zero hv]
    refine .right _ (.right _ ?_)
    simpa [weight, hparams] using hlt
  | @waiting id func saved arity order frame args hargs henough =>
    have hlength : (combine order saved args).length = saved.length + args.length := by
      cases order <;> simp [combine, Nat.add_comm]
    cases hc.callee with
    | curried _ hfunc hsaved hwaiting =>
      obtain ⟨hpos, hfew, ⟨n, rfl, -⟩ | ⟨id', l, scope, rfl, rfl, -⟩⟩ := hwaiting
      · refine .right _ (.right _ ?_)
        simp only [weight]
        omega
      · refine .right _ (.right _ ?_)
        simp only [weight, hlength]
        split <;> omega
  | @thunk id code scope frame args _ hd =>
    cases hc.callee with
    | thunk _ _ hs => exact below_of_exprSite hs hd

end Call

section Run

variable {start : Proc σ Value} {w₀ : World σ} {site : Call → Prop} {N : Nat}
  (hstart : Ensures ((Policy.strict σ).contract.under site) (Policy.strict σ).Yields start w₀)

include hstart

/-- Where no more than `N` uncounted calls are open at once, every call is answered. -/
theorem answers_of_stack
    (hN : ∀ cs w, Stack host start w₀ cs w → cs.countP Call.isUncounted ≤ N) (c : Call)
    (cs : List Call) (w : World σ) (hstack : Stack host start w₀ (c :: cs) w) :
    ∃ v w', c.Answers host w v w' := by
  obtain ⟨v, w', hrun⟩ : ∃ v w', (c.proc host).Runs host w v w' := by
    apply runs_of_answers
    intro d w' hmade
    have hinside : Stack host start w₀ (d :: c :: cs) w' := .inside hstack hmade
    have hless : Prod.Lex (· < ·) Call.Below
        (N - (c :: cs).countP Call.isUncounted, d.measure)
        (N - cs.countP Call.isUncounted, c.measure) := by
      cases hcounted : c.isUncounted with
      | true =>
        have hle := hN _ _ hstack
        rw [List.countP_cons_of_pos hcounted] at hle ⊢
        exact .left _ _ (by omega)
      | false =>
        rw [List.countP_cons_of_neg (by simp [hcounted])]
        have hc := (Call.obeys_of_stack (fun _ _ _ _ => trivial) hstart hstack).1
        have hd := (Call.obeys_of_stack (fun _ _ _ _ => trivial) hstart hinside).1
        have hsite := Call.site_of_stack (fun _ _ _ _ => trivial) hstart hinside
        exact .right _ (Call.below_of_site hc hd hsite hcounted)
    exact answers_of_stack hN d (c :: cs) w' hinside
  exact ⟨v, w', Call.answers_iff_runs.mpr hrun⟩
termination_by (N - cs.countP Call.isUncounted, c.measure)
decreasing_by exact hless

theorem ends_of_bounded
    (hN : ∀ cs w, Stack host start w₀ cs w → cs.countP Call.isUncounted ≤ N) :
    ∃ v w, start.Runs host w₀ v w ∧ v.isEvaluated = true := by
  obtain ⟨v, w, hrun⟩ := runs_of_answers fun c w hmade =>
    answers_of_stack hstart hN c [] w (.made hmade)
  have hyields : (Policy.strict σ).Yields v w :=
    Call.post_of_runs (fun _ _ _ _ => trivial) hstart hrun
  exact ⟨v, w, hrun, hyields.2.2⟩

end Run

namespace Program

variable {registry : Registry} {program : Program} {next next' : Nat} {w₀ : World σ}
  {frame : Frame}

theorem ensures_strict_start (hreg : registry.Loaded next)
    (hprogram : program.OfSource registry next next')
    (hargs : ∀ a ∈ program.args, a.Obeys (Policy.strict σ)) (hw : w₀.Obeys (Policy.strict σ))
    (hframe : frame.OverPrelude) :
    Ensures ((Policy.strict σ).contract.under fun c => ∃ s, c.frame = frame.withScope s)
      (Policy.strict σ).Yields (program.start frame) w₀ := by
  obtain ⟨given, -, hloaded⟩ := loaded_of_ofSource hreg hprogram
  have hprelude : (Policy.strict σ).HasPrelude := fun op id => ⟨op, id, rfl⟩
  exact ensures_start hloaded (fun _ _ _ _ => trivial) hprelude hframe hargs hw

/-- No call is made deeper than the recursion limit allows. -/
theorem depth_le_of_stack
    (hstart : Ensures ((Policy.strict σ).contract.under fun c => ∃ s, c.frame = frame.withScope s)
      (Policy.strict σ).Yields (program.start frame) w₀)
    (hstack : Stack host (program.start frame) w₀ (c :: cs) w) :
    c.frame.maxDepth = frame.maxDepth ∧ c.frame.depth ≤ max frame.depth frame.maxDepth := by
  generalize hds : c :: cs = ds at hstack
  induction hstack generalizing c cs with
  | @made b w hmade =>
    obtain ⟨rfl, rfl⟩ := List.cons.inj hds
    obtain ⟨s, hs⟩ := Call.site_of_makes (fun _ _ _ _ => trivial) hstart hmade
    rw [hs]
    exact ⟨rfl, Nat.le_max_left _ _⟩
  | inside hb hmade ih =>
    obtain ⟨rfl, rfl⟩ := List.cons.inj hds
    obtain ⟨hmax, hdepth⟩ := ih rfl
    obtain ⟨hmax', hstep⟩ := Call.depth_of_site
      (Call.site_of_stack (fun _ _ _ _ => trivial) hstart (.inside hb hmade))
    refine ⟨hmax'.trans hmax, ?_⟩
    rcases hstep with hstep | ⟨hstep, hroom⟩ <;> omega

/--
The evaluation of a program comes to an end exactly if there is a bound on how many uncounted calls
are open at once; and it makes no call below the recursion limit.
-/
theorem ends_iff_uncounted_bounded (host : Host σ) (hreg : registry.Loaded next)
    (hprogram : program.OfSource registry next next')
    (hargs : ∀ a ∈ program.args, a.Obeys (Policy.strict σ)) (hw : w₀.Obeys (Policy.strict σ))
    (hframe : frame.OverPrelude) :
    ((∃ v w, (program.start frame).Runs host w₀ v w ∧ v.isEvaluated = true) ↔
      ∃ N, ∀ cs w, Stack host (program.start frame) w₀ cs w →
        cs.countP Call.isUncounted ≤ N) ∧
    ∀ c cs w, Stack host (program.start frame) w₀ (c :: cs) w →
      c.frame.maxDepth = frame.maxDepth ∧ c.frame.depth ≤ max frame.depth frame.maxDepth := by
  have hstart := ensures_strict_start hreg hprogram hargs hw hframe
  refine ⟨⟨?_, ?_⟩, fun c cs w hstack => depth_le_of_stack hstart hstack⟩
  · rintro ⟨v, w, ⟨fuel, hfuel⟩, -⟩
    refine ⟨fuel, ?_⟩
    intro cs w hstack
    exact Nat.le_trans List.countP_le_length (length_le_of_stack hfuel hstack)
  · rintro ⟨N, hN⟩
    exact ends_of_bounded hstart hN

end Program

/-- Calls of which each makes another are never answered. -/
theorem Call.not_answers_of_endless {endless : Call → World σ → Prop}
    (hnext : ∀ c w, endless c w → ∃ d w', Makes host (c.proc host) w d w' ∧ endless d w')
    (hc : endless c w) (v : Value) (w' : World σ) : ¬ c.Answers host w v w' := by
  rintro ⟨fuel, h⟩
  induction fuel generalizing c w v w' with
  | zero => simp [answer] at h
  | succ fuel ih =>
    obtain ⟨d, w₁, hmade, hd⟩ := hnext c w hc
    obtain ⟨u, w₂, hans⟩ := answer_of_makes h hmade
    exact ih hd u w₂ hans

namespace Loop

/-- A function yields `+` with one argument, which calls the function again if `+` gets another. -/
def source : String := "f => + (f 'a'); main => f 'a';"

def func : Lambda Code := ⟨"f", [], .apply (.var "+") [.apply (.var "f") [.string "a"]]⟩

def main : Lambda Code := ⟨"main", [], .apply (.var "f") [.string "a"]⟩

def module : Module := ⟨0, [], [("f", .lambda func), ("main", .lambda main)]⟩

def loaded : Except LoadError Module × Nat :=
  (Script.load (Registry.importer []) source : StateM Nat _).run 0

def isModule : Except LoadError Module → Bool
  | .ok ⟨0, [], [("f", .lambda ⟨"f", [], .apply (.var "+") [.apply (.var "f") [.string "a"]]⟩),
      ("main", .lambda ⟨"main", [], .apply (.var "f") [.string "a"]⟩)]⟩ => true
  | _ => false

theorem eq_of_isModule {r : Except LoadError Module} (h : isModule r = true) : r = .ok module := by
  unfold isModule at h
  split at h
  · rfl
  · cases h

theorem loaded_eq : loaded = (.ok module, loaded.2) := by
  have h : isModule loaded.1 = true := by decide +kernel
  rw [← eq_of_isModule h]

theorem ofSource_main : Program.OfSource [] 0 (.entry module "main" []) loaded.2 :=
  .script "main" [] loaded_eq

/-- The scope of the module over the prelude. -/
def outer : Scope := .module module (Scope.root.addAll (Builtin.bindings 1))

def plus : Value := .native (Builtin.add.native 1)

def self (id : Nat) : Value := .closure id func outer

def again (id : Nat) : Value :=
  .thunk none (.apply (.var "f") [.string "a"]) (outer.add "f" (self id))

/-- Nothing stops the frame, and it has depth left for one more function. -/
def Free (frame : Frame) (w : World σ) : Prop :=
  frame.depth < frame.maxDepth ∧ w.isCancelled frame.signal = false ∧ frame.signal.deadline = none

variable {id : Nat} {frame : Frame}

theorem stop?_enter (h : Free frame w) (name : String) : w.stop? (frame.enter name) = none := by
  obtain ⟨hdepth, hcancelled, hdeadline⟩ := h
  have : ¬ frame.maxDepth < frame.depth := by omega
  simp [World.stop?, Frame.enter, this, hcancelled, hdeadline]

theorem stop?_descend (h : Free frame w) (name : String) :
    w.stop? (frame.descend name) = none := by
  obtain ⟨hdepth, hcancelled, hdeadline⟩ := h
  have : ¬ frame.maxDepth < frame.depth + 1 := by omega
  simp [World.stop?, Frame.descend, this, hcancelled, hdeadline]

/-- The body of the function ends at once, one level deeper, with what will call it again. -/
theorem answers_self (h : Free frame w) :
    Call.Answers host ⟨self id, frame, []⟩ w (.curried w.next plus [again id] 2 .savedFirst)
      { w with next := w.next + 1 } := by
  have hplus (frame : Frame) : Call.Answers host ⟨plus, frame, []⟩ w plus w := ⟨1, rfl⟩
  have hcurried (frame : Frame) : Call.Answers host ⟨plus, frame, [again id]⟩ w
      (.curried w.next plus [again id] 2 .savedFirst) { w with next := w.next + 1 } := ⟨1, rfl⟩
  rw [Call.answers_iff_runs]
  refine runs_bind (runs_stop? (stop?_descend h "f")) ?_
  refine runs_bind ?_ runs_done
  refine runs_bind (runs_invoke (hplus _)) ?_
  exact runs_invoke (hcurried _)

/-- The calls that go round. -/
inductive Endless (id : Nat) : Call → World σ → Prop
  | thunk {frame : Frame} {w : World σ} (h : Free frame w) : Endless id ⟨again id, frame, []⟩ w
  | curried {n : Nat} {frame : Frame} {w : World σ} (h : Free frame w) :
      Endless id ⟨.curried n plus [again id] 2 .savedFirst, frame, [.string "a"]⟩ w
  | native {frame : Frame} {w : World σ} (h : Free frame w) :
      Endless id ⟨plus, frame, [again id, .string "a"]⟩ w

theorem endless_next (c : Call) (w : World σ) (h : Endless id c w) :
    ∃ d w', Makes host (c.proc host) w d w' ∧ Endless id d w' := by
  cases h with
  | @thunk frame w h =>
    have hself : Call.Answers host ⟨self id, frame.withScope (outer.add "f" (self id)), []⟩ w
        (.curried w.next plus [again id] 2 .savedFirst) { w with next := w.next + 1 } :=
      answers_self h
    exact ⟨_, _, makes_bind (runs_invoke hself) ⟨done, .refl⟩, .curried h⟩
  | curried h => exact ⟨_, _, ⟨done, .refl⟩, .native h⟩
  | @native frame w h =>
    have hmade : Makes host (Call.proc host ⟨plus, frame, [again id, .string "a"]⟩) w
        ⟨again id, frame.enter "+", []⟩ w :=
      makes_bind (runs_stop? (stop?_enter h "+")) ⟨_, .refl⟩
    exact ⟨_, _, hmade, .thunk h⟩

theorem realize_runs (l : Lambda Code) (scope : Scope) :
    (realize (.function l scope)).Runs host w (.closure w.next l scope)
      { w with next := w.next + 1 } :=
  ⟨0, rfl⟩

/-- The body of `main` calls the function and then what that yields. -/
theorem main_makes_endless (h : Free frame w)
    (hscope : frame.scope.find? "f" = some (.function func outer)) :
    ∃ d w', Makes host (Expr.eval main.body frame []) w d w' ∧ Endless w.next d w' := by
  have hself : Call.Answers host ⟨self w.next, frame, []⟩ { w with next := w.next + 1 }
      (.curried (w.next + 1) plus [again w.next] 2 .savedFirst) { w with next := w.next + 2 } :=
    answers_self h
  have hvar : (Expr.eval (.var "f") frame []).Runs host w
      (.curried (w.next + 1) plus [again w.next] 2 .savedFirst) { w with next := w.next + 2 } := by
    simp only [Expr.eval, hscope]
    exact runs_bind (realize_runs func outer) (runs_invoke hself)
  exact ⟨_, _, makes_bind hvar ⟨done, .refl⟩, .curried h⟩

theorem not_answers_main (h : Free frame w) (hroom : frame.depth + 1 < frame.maxDepth) (v : Value)
    (w' : World σ) : ¬ Call.Answers host ⟨.closure id main outer, frame, []⟩ w v w' := by
  rw [Call.answers_iff_runs]
  rintro ⟨fuel, hrun⟩
  obtain ⟨d, w₁, hmade, hd⟩ : ∃ d w₁, Makes host (Expr.eval main.body
      ((frame.descend "main").withScope (outer.add "main" (.closure id main outer))) []) w d w₁ ∧
      Endless w.next d w₁ := main_makes_endless ⟨hroom, h.2⟩ rfl
  have hmade' : Makes host (Call.proc host ⟨.closure id main outer, frame, []⟩) w d w₁ :=
    makes_bind (runs_stop? (stop?_descend h "main")) (makes_bind_left hmade)
  obtain ⟨u, w₂, hans⟩ := answer_of_makes hrun hmade'
  exact Call.not_answers_of_endless endless_next hd u w₂ ⟨fuel, hans⟩

theorem not_runs_main (v : Value) (w : World Unit) :
    ¬ (Program.start Program.firstFrame (.entry module "main" [])).Runs Host.none
      Program.firstWorld v w := by
  intro hrun
  obtain ⟨u, w₁, hrealize, hcall⟩ := runs_bind_inv hrun
  obtain ⟨rfl, rfl⟩ := runs_unique hrealize (realize_runs main outer)
  obtain ⟨r, w₂, hans, -⟩ := runs_call_inv hcall
  have hroom : 0 + 1 < 512 := by omega
  exact not_answers_main ⟨Nat.zero_lt_succ 511, rfl, rfl⟩ hroom r w₂ hans

/-- A script can run on without an end, within the recursion limit and with no signal given. -/
theorem recursion_limit_does_not_bound :
    ∃ program next', Program.OfSource [] 0 program next' ∧ Program.firstFrame.OverPrelude ∧
      Program.firstFrame.maxDepth = 512 ∧ Program.firstFrame.signal.deadline = none ∧
      Program.firstWorld.isCancelled Program.firstFrame.signal = false ∧
      ∀ v w, ¬ (program.start Program.firstFrame).Runs Host.none Program.firstWorld v w :=
  ⟨_, _, ofSource_main, Program.overPrelude_firstFrame, rfl, rfl, rfl, not_runs_main⟩

/-- It opens more and more uncounted calls, none of them deeper than the limit. -/
theorem ends_iff_uncounted_bounded_main :
    (∀ N, ∃ cs w, Stack Host.none (Program.start Program.firstFrame (.entry module "main" []))
      Program.firstWorld cs w ∧ N < cs.countP Call.isUncounted) ∧
    ∀ c cs w, Stack Host.none (Program.start Program.firstFrame (.entry module "main" []))
      Program.firstWorld (c :: cs) w → c.frame.depth ≤ 512 := by
  have hworld : Program.firstWorld.Obeys (Policy.strict Unit) := World.obeys_of_caches_eq_nil rfl
  obtain ⟨hends, hdepth⟩ := Program.ends_iff_uncounted_bounded Host.none (Registry.loaded_nil 0)
    ofSource_main (by simp [Program.args]) hworld Program.overPrelude_firstFrame
  refine ⟨?_, fun c cs w hstack => (hdepth c cs w hstack).2⟩
  intro N
  apply Classical.byContradiction
  intro hbounded
  obtain ⟨v, w, hrun, -⟩ := hends.mpr ⟨N, fun cs w hstack => Nat.le_of_not_lt fun hmore =>
    hbounded ⟨cs, w, hstack, hmore⟩⟩
  exact not_runs_main v w hrun

end Loop

end ChainScript
