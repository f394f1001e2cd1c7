import ChainScript.Eval.Call
import ChainScript.Proofs.Builtin.Like

/-!
Evaluation in alike frames. Nothing that evaluation does depends on the calls that errors blame, so
alike calls do alike things.
-/
namespace ChainScript

variable {σ : Type} {S : Setting σ} {frame frame' : Frame} {u u' v v' : Value}
  {args args' : List Value} {s s' : Scope}

open Proc

open Attempt (OutcomeLike)

/-- The same names, for values that are alike. -/
abbrev Setting.LikeNames (S : Setting σ) :
    List (String × Value) → List (String × Value) → Prop := Table.Related S.Like

namespace Pattern

theorem bindings_like (pattern : Pattern) (h : S.Like v v') :
    SameCause S.LikeNames (pattern.bindings v) (pattern.bindings v') := by
  cases pattern with
  | name x => exact .ok (.cons ⟨rfl, h⟩ .nil)
  | array names =>
    cases h with
    | array hlength hitems _ =>
      simp only [bindings, hlength]
      split
      · exact .error _
      · exact .ok (Table.related_zip (forall₂_iff_forall_zip.mpr ⟨hlength, hitems⟩) names)
    | _ => exact .error _

variable (hframe : frame.Like S.toLikeness frame') (hv : S.Like v v')

include hframe hv

theorem alike_bind (pattern : Pattern) :
    Alike S (OutcomeLike S.toLikeness S.LikeNames) (pattern.bind v frame)
      (pattern.bind v' frame') := by
  have hbindings := bindings_like pattern hv
  unfold bind
  rw [Value.isError_of_like hv]
  generalize pattern.bindings v = r at hbindings ⊢
  generalize pattern.bindings v' = r' at hbindings ⊢
  split
  · exact alike_pure (OutcomeLike.error hv)
  · cases hbindings with
    | ok hnames => exact alike_pure (OutcomeLike.ok hnames)
    | error cause =>
      exact Proc.alike_bind (alike_fail hframe cause) fun _ _ he =>
        alike_pure (OutcomeLike.error he)

theorem alike_bindSlot (slot : Option Pattern) (hs : s.Like S.toLikeness s') :
    Alike S (fun r r' => S.Like r.1 r'.1 ∧ r.2.Like S.toLikeness r'.2)
      (bindSlot slot v frame s) (bindSlot slot v' frame' s') := by
  unfold bindSlot
  split
  · exact alike_pure ⟨hv, hs⟩
  next x =>
    have hnames : S.LikeNames [(x, v)] [(x, v')] := .cons ⟨rfl, hv⟩ .nil
    exact alike_pure ⟨hv, Scope.like_addAll hs hnames⟩
  · refine Proc.alike_bind (alike_bind hframe hv _) ?_
    rintro _ _ (he | hnames)
    · exact alike_pure ⟨he, hs⟩
    · exact alike_pure ⟨hv, Scope.like_addAll hs hnames⟩

end Pattern

namespace Link

theorem applies_of_like (h : S.Like v v') (link : Link) : link.applies v' = link.applies v := by
  cases link <;> simp only [applies, Value.isError_of_like h]

theorem carry_like (h : S.Like u u') (h' : S.Like v v') (link : Link) :
    S.Like (link.carry u v) (link.carry u' v') := by
  unfold carry
  rw [Value.isError_of_like h']
  split
  · exact h
  · exact h'

end Link

namespace Expr

theorem accepts_of_like (h : S.Like u u') (h' : S.Like v v') : accepts u' v' = accepts u v := by
  have hequals := Value.equals_of_like u v u' v' h h'
  have hplain := Value.isPlain_of_like h
  cases h with
  | boolean b => rfl
  | _ => simp only [accepts, hequals, hplain]

section Frame

variable (hframe : frame.Like S.toLikeness frame')

include hframe

theorem alike_withSubject (hside : S.Like u u') (hsubject : S.Like v v') :
    Alike S S.Like (withSubject u v frame) (withSubject u' v' frame') := by
  unfold withSubject
  rw [Value.isError_of_like hside]
  split
  · exact alike_pure hside
  · exact alike_invoke hside hframe (.cons hsubject .nil)

theorem alike_forceParams (params : List String) :
    Alike S (OutcomeLike S.toLikeness S.LikeAll) (forceParams frame params)
      (forceParams frame' params) := by
  induction params with
  | nil => exact alike_pure (.ok .nil)
  | cons x rest ih =>
    unfold forceParams
    obtain ⟨ha, hb⟩ | ⟨a, b, ha, hb, hab⟩ := Option.rel_cases (Scope.like_find? x hframe.scope)
    · rw [ha, hb]
      exact Proc.alike_bind (alike_fail hframe _) fun _ _ he => alike_pure (.error he)
    · rw [ha, hb]
      refine Proc.alike_bind (alike_realize hab) fun v v' hv => ?_
      refine Proc.alike_bind (alike_invoke hv hframe .nil) fun u u' hu => ?_
      rw [Value.isError_of_like hu]
      split
      · exact alike_pure (.error hu)
      · refine Proc.alike_bind ih ?_
        rintro _ _ (he | hvalues)
        · exact alike_pure (.error he)
        · exact alike_pure (.ok (.cons hu hvalues))

end Frame

/-- What a memo remembers is alike to itself, and it remembers the same, or the world is lost. -/
theorem alike_storedOr {body body' : Proc σ Value} {vs vs' : List Value} (mark : Nat)
    (hvs : S.LikeAll vs vs') (h : Alike S S.Like body body') :
    Alike S S.Like (storedOr mark vs body) (storedOr mark vs' body') := by
  intro w hw
  unfold storedOr
  dsimp only
  rw [← Value.keys_of_like vs vs' hvs, alikeAt_read_iff]
  cases hstored : w.stored? mark (Memo.Key.ofValues vs) with
  | some result => exact S.like_stored hw hstored
  | none =>
    refine alikeAt_bind (h w hw) hw fun v v' hv => ?_
    rw [Value.isError_of_like hv]
    split
    · refine Proc.alike_bind (R := fun _ _ => True) (fun w' hw' => ?_) fun _ _ _ => alike_pure hv
      obtain hlost | ⟨heq, hworld⟩ := S.store hw hstored hw' hv
      · exact .inl hlost
      · exact .inr ⟨heq, hworld, trivial⟩
    · exact alike_pure hv

mutual
theorem alike_eval {frame frame' : Frame} {args args' : List Value} :
    (code : Code) → (hframe : frame.Like S.toLikeness frame') →
    (hargs : S.LikeAll args args') →
    Alike S S.Like (eval code frame args) (eval code frame' args')
  | .number x, _, _ => by
    simp only [eval]
    exact alike_pure (.number x)
  | .string t, _, _ => by
    simp only [eval]
    exact alike_pure (.string t)
  | .empty, _, _ => by
    simp only [eval]
    exact alike_pure (Value.array_like_iff.mpr .nil)
  | .var x, hframe, hargs => by
    simp only [eval]
    obtain ⟨ha, hb⟩ | ⟨a, b, ha, hb, hab⟩ := Option.rel_cases (Scope.like_find? x hframe.scope)
    · rw [ha, hb]
      exact alike_fail hframe _
    · rw [ha, hb]
      exact alike_realized hab hframe hargs
  | .array items, hframe, _ => by
    simp only [eval]
    exact alike_evalArray items hframe .nil
  | .lambda name params body, hframe, hargs => by
    simp only [eval]
    refine alike_bind alike_fresh ?_
    rintro id _ rfl
    have hclosure : S.Like (.closure id ⟨name, params, body⟩ frame.scope)
        (.closure id ⟨name, params, body⟩ frame'.scope) := .closure id _ hframe.scope
    cases hargs with
    | nil => exact alike_pure hclosure
    | cons ha hrest => exact alike_invoke hclosure hframe (.cons ha hrest)
  | .apply func own, hframe, hargs => by
    simp only [eval]
    refine alike_bind (alike_eval func hframe .nil) fun v v' hv => ?_
    have hown : S.LikeAll (own.map (Value.pin frame.scope)) (own.map (Value.pin frame'.scope)) :=
      List.forall₂_map_left_iff.mpr (List.forall₂_map_right_iff.mpr
        (List.forall₂_same.mpr fun e _ => Value.like_pin hframe.scope e))
    rw [Value.isError_of_like hv, Value.isReversedNative_of_like hv]
    split
    · exact alike_pure hv
    · split
      · exact alike_invoke hv hframe (List.rel_append hargs hown)
      · exact alike_invoke hv hframe (List.rel_append hown hargs)
  | .switch subject cases, hframe, hargs => by
    simp only [eval]
    refine alike_bind (alike_eval subject hframe .nil) fun v v' hv => ?_
    rw [Value.isError_of_like hv]
    split
    · exact alike_pure hv
    · exact alike_bind (alike_evalCases cases hframe hv) fun _ _ hu =>
        alike_applyRest hu hframe hargs
  | .chain segments, hframe, hargs => by
    simp only [eval]
    exact alike_bind (alike_evalChain segments hframe) fun _ _ hv =>
      alike_applyRest hv hframe hargs
  | .compound items, hframe, hargs => by
    simp only [eval]
    exact alike_bind (alike_evalItems items hframe (Value.array_like_iff.mpr .nil) .nil)
      fun _ _ hr => alike_applyRest hr.1 hframe hargs
  | .collector items, hframe, hargs => by
    simp only [eval]
    refine alike_bind (alike_evalItems items hframe (Value.array_like_iff.mpr .nil) .nil) ?_
    rintro ⟨last, bound⟩ ⟨last', bound'⟩ ⟨hlast, hbound⟩
    dsimp only at hlast hbound ⊢
    rw [Value.isError_of_like hlast]
    split
    · exact alike_pure hlast
    · refine alike_bind alike_fresh ?_
      rintro id _ rfl
      have hspace := Module.like_space (Module.like_ofBound hbound id) hframe.scope
      exact alike_applyRest (.module hspace) hframe hargs
  | .bind pattern value, hframe, hargs => by
    simp only [eval]
    refine alike_bind (alike_eval value hframe .nil) fun v v' hv => ?_
    refine alike_bind (Pattern.alike_bind hframe hv pattern) ?_
    rintro _ _ (he | _)
    · exact alike_pure he
    · exact alike_applyRest hv hframe hargs
  | .member base name, hframe, hargs => by
    simp only [eval]
    refine alike_bind (alike_eval base hframe .nil) fun v v' hv => ?_
    cases hv with
    | module hspace =>
      dsimp only
      obtain ⟨ha, hb⟩ | ⟨a, b, ha, hb, hab⟩ :=
        Option.rel_cases (Namespace.like_resolve? hspace name)
      · rw [ha, hb]
        exact alike_fail hframe _
      · rw [ha, hb]
        exact alike_realized hab hframe hargs
    | error id hcause hpath => exact alike_pure (.error id hcause hpath)
    | _ => exact alike_fail hframe _
  | .within base body, hframe, hargs => by
    simp only [eval]
    refine alike_bind (alike_eval base hframe .nil) fun v v' hv => ?_
    cases hv with
    | module hspace =>
      exact alike_eval body (Frame.like_withScope hframe (.members hspace hframe.scope)) hargs
    | error id hcause hpath => exact alike_pure (.error id hcause hpath)
    | _ => exact alike_fail hframe _
  | .memo mark params body, hframe, hargs => by
    simp only [eval]
    refine alike_bind (alike_forceParams hframe params) ?_
    rintro _ _ (he | hvalues)
    · exact alike_pure he
    · have hscope := Scope.like_addAll hframe.scope (Table.related_zip hvalues params)
      have hbody := alike_invoke (σ := σ) (.thunk none body hscope) hframe .nil
      exact alike_bind (alike_storedOr mark hvalues hbody) fun _ _ hv =>
        alike_applyRest hv hframe hargs
termination_by code => sizeOf code
decreasing_by
  all_goals
    simp only [array.sizeOf_spec, apply.sizeOf_spec, switch.sizeOf_spec, chain.sizeOf_spec,
      compound.sizeOf_spec, collector.sizeOf_spec, bind.sizeOf_spec, member.sizeOf_spec,
      within.sizeOf_spec]
    omega
theorem alike_evalArray {frame frame' : Frame} {vs vs' : List Value} : (items : List Code) →
    (hframe : frame.Like S.toLikeness frame') →
    (hvs : List.Forall₂ (Value.Firm S.toLikeness) vs vs') →
    Alike S S.Like (evalArray items vs frame) (evalArray items vs' frame')
  | [], _, hvs => by
    simp only [evalArray]
    exact alike_pure (Value.array_like_iff.mpr hvs)
  | e :: rest, hframe, hvs => by
    simp only [evalArray]
    refine alike_bind (alike_eval e hframe .nil) fun v v' hv => ?_
    rw [Value.isError_of_like hv]
    cases herror : v.isError with
    | true => exact alike_pure hv
    | false =>
      have hfirm := Value.firm_of_not_isError hv herror
      exact alike_evalArray rest hframe (List.rel_append hvs (.cons hfirm .nil))
termination_by items => sizeOf items
decreasing_by all_goals (simp only [List.cons.sizeOf_spec]; omega)
theorem alike_evalCases {frame frame' : Frame} {v v' : Value} : (cases : List (Code × Code)) →
    (hframe : frame.Like S.toLikeness frame') → (hv : S.Like v v') →
    Alike S S.Like (evalCases cases v frame) (evalCases cases v' frame')
  | [], _, hv => by
    simp only [evalCases]
    exact alike_pure hv
  | (lhs, rhs) :: rest, hframe, hv => by
    simp only [evalCases]
    refine alike_unless_stop hframe ?_ fun _ _ he => alike_pure he
    refine alike_bind (alike_eval lhs hframe .nil) fun side side' hside => ?_
    refine alike_bind (alike_withSubject hframe hside hv) fun test test' htest => ?_
    rw [Value.isError_of_like htest, accepts_of_like htest hv]
    split
    · exact alike_pure htest
    · split
      · exact alike_bind (alike_eval rhs hframe .nil) fun _ _ hside =>
          alike_withSubject hframe hside hv
      · exact alike_evalCases rest hframe hv
termination_by cases => sizeOf cases
decreasing_by all_goals (simp only [List.cons.sizeOf_spec, Prod.mk.sizeOf_spec]; omega)
theorem alike_evalChain {frame frame' : Frame} : (segments : List (Segment Code)) →
    (hframe : frame.Like S.toLikeness frame') →
    Alike S S.Like (evalChain segments frame) (evalChain segments frame')
  | [], _ => by
    simp only [evalChain]
    exact alike_pure (Value.array_like_iff.mpr .nil)
  | ⟨e, _, slot⟩ :: rest, hframe => by
    simp only [evalChain]
    refine alike_unless_stop hframe ?_ fun _ _ he => alike_pure he
    refine alike_bind (alike_eval e hframe .nil) fun v v' hv => ?_
    exact alike_bind (Pattern.alike_bindSlot hframe hv slot hframe.scope) fun _ _ hr =>
      alike_evalSegments rest hframe hr.1 hr.2
termination_by segments => sizeOf segments
decreasing_by all_goals (simp only [List.cons.sizeOf_spec, Segment.mk.sizeOf_spec]; omega)
theorem alike_evalSegments {frame frame' : Frame} {v v' : Value} {s s' : Scope} :
    (segments : List (Segment Code)) →
    (hframe : frame.Like S.toLikeness frame') → (hv : S.Like v v') →
    (hs : s.Like S.toLikeness s') →
    Alike S S.Like (evalSegments segments v s frame) (evalSegments segments v' s' frame')
  | [], _, hv, _ => by
    simp only [evalSegments]
    exact alike_pure hv
  | ⟨e, link, slot⟩ :: rest, hframe, hv, hs => by
    simp only [evalSegments]
    refine alike_unless_stop hframe ?_ fun _ _ he => alike_pure he
    dsimp only
    rw [Link.applies_of_like hv]
    split
    · have hinner := Frame.like_withScope hframe hs
      refine alike_bind (alike_eval e hinner (.cons hv .nil)) fun u u' hu => ?_
      exact alike_bind (Pattern.alike_bindSlot hinner hu slot hs) fun _ _ hr =>
        alike_evalSegments rest hframe (Link.carry_like hv hr.1 link) hr.2
    · exact alike_evalSegments rest hframe hv hs
termination_by segments => sizeOf segments
decreasing_by all_goals (simp only [List.cons.sizeOf_spec, Segment.mk.sizeOf_spec]; omega)
theorem alike_evalItems {frame frame' : Frame} {v v' : Value}
    {bound bound' : List (String × Value)} : (items : List Code) →
    (hframe : frame.Like S.toLikeness frame') → (hv : S.Like v v') →
    (hbound : S.LikeNames bound bound') →
    Alike S (fun r r' => S.Like r.1 r'.1 ∧ S.LikeNames r.2 r'.2) (evalItems items v bound frame)
      (evalItems items v' bound' frame')
  | items, hframe, hv, hbound => by
    unfold evalItems
    -- Both sides look at the same items and so split together.
    split
    · exact alike_pure ⟨hv, hbound⟩
    next pattern e rest =>
      refine alike_unless_stop hframe ?_ fun _ _ he => alike_pure ⟨he, hbound⟩
      refine alike_bind (alike_eval e hframe .nil) fun u u' hu => ?_
      refine alike_bind (Pattern.alike_bind hframe hu pattern) ?_
      rintro _ _ (he | hnames)
      · exact alike_pure ⟨he, hbound⟩
      · exact alike_evalItems rest
          (Frame.like_withScope hframe (Scope.like_addAll hframe.scope hnames)) hu
          (List.rel_append hbound hnames)
    next e rest _ =>
      refine alike_unless_stop hframe ?_ fun _ _ he => alike_pure ⟨he, hbound⟩
      refine alike_bind (alike_eval e hframe .nil) fun u u' hu => ?_
      rw [Value.isError_of_like hu]
      split
      · exact alike_pure ⟨hu, hbound⟩
      · exact alike_evalItems rest hframe hu hbound
termination_by items => sizeOf items
decreasing_by all_goals (subst_vars; simp only [List.cons.sizeOf_spec, bind.sizeOf_spec]; omega)
end

end Expr

/-- The functions of the host do alike things with alike arguments. -/
def Host.Suits (S : Setting σ) (host : Host σ) : Prop :=
  ∀ key (frame frame' : Frame) (args args' : List Value), frame.Like S.toLikeness frame' →
    S.LikeAll args args' → Alike S S.Like (host key frame args) (host key frame' args')

namespace Call

variable (hframe : frame.Like S.toLikeness frame') (hargs : S.LikeAll args args')

theorem combine_like {vs vs' : List Value} (hvs : S.LikeAll vs vs') (hargs : S.LikeAll args args')
    (order : Order) : S.LikeAll (combine order vs args) (combine order vs' args') := by
  cases order with
  | savedFirst => exact List.rel_append hvs hargs
  | savedLast => exact List.rel_append hargs hvs

include hframe hargs

theorem alike_runCurried {f f' : Value} {vs vs' : List Value} {arity : Nat} {order : Order}
    (hself : S.Like u u') (hf : f.Firm S.toLikeness f') (hvs : S.LikeAll vs vs')
    (hwaiting : S.waiting f vs arity order) :
    Proc.Alike S S.Like (runCurried u f vs arity order frame args)
      (runCurried u' f' vs' arity order frame' args') := by
  have hall := combine_like hvs hargs order
  have hempty : args'.isEmpty = args.isEmpty := by cases hargs <;> rfl
  unfold runCurried
  rw [hempty]
  split
  · exact alike_pure hself
  · dsimp only
    rw [hall.length_eq]
    split
    next hfew =>
      refine alike_bind alike_fresh ?_
      rintro id _ rfl
      have hmore := S.waiting_combine hwaiting (hall.length_eq ▸ hfew)
      exact alike_pure (Value.like_curried id hf hall hmore)
    · exact alike_invoke hf.1 hframe hall

theorem alike_runClosure (id : Nat) (l : Lambda Code) (hs : s.Like S.toLikeness s') :
    Proc.Alike S S.Like (runClosure (.closure id l s) l s frame args)
      (runClosure (.closure id l s') l s' frame' args') := by
  have hself : S.Like (.closure id l s) (.closure id l s') := .closure id l hs
  unfold runClosure
  dsimp only
  rw [hargs.length_eq]
  split
  next hfew =>
    refine alike_curry (Value.firm_of_not_isError hself rfl) hargs fun hne => ?_
    exact S.waiting_closure hne (hargs.length_eq ▸ hfew)
  · refine alike_unless_stop (Frame.like_descend hframe l.name) ?_ fun _ _ he => alike_pure he
    have hscope := Scope.like_addAll (Scope.like_add hs hself l.name)
      (Table.related_zip hargs l.params)
    have hinner := Frame.like_withScope (Frame.like_descend hframe l.name) hscope
    refine alike_bind (Expr.alike_eval l.body hinner .nil) fun v v' hv => ?_
    exact alike_applyRest hv hframe (List.forall₂_drop _ hargs)

theorem alike_runNative {host : Host σ} (hhost : host.Suits S) (n : Native) :
    Proc.Alike S S.Like (runNative host n frame args) (runNative host n frame' args') := by
  have hinner := Frame.like_enter hframe n.name
  have hbody {vs vs' : List Value} (hvs : S.LikeAll vs vs') :
      Proc.Alike S S.Like (nativeBody host n.operation (frame.enter n.name) vs)
        (nativeBody host n.operation (frame'.enter n.name) vs') := by
    cases n.operation with
    | builtin op => exact Builtin.alike_run op hinner hvs
    | host key => exact hhost key _ _ vs vs' hinner hvs
  unfold runNative
  rw [hargs.length_eq]
  split
  next hfew =>
    refine alike_curry (Value.firm_of_not_isError (.native n) rfl) hargs fun hne => ?_
    exact S.waiting_native hne (hargs.length_eq ▸ hfew)
  · refine alike_unless_stop hinner ?_ fun _ _ he => alike_pure he
    dsimp only
    split
    next k _ =>
      refine alike_bind (hbody (List.forall₂_take k hargs)) fun v v' hv => ?_
      exact alike_applyRest hv hframe (List.forall₂_drop k hargs)
    · exact hbody hargs

end Call

/-- Alike calls do alike things. -/
theorem Setting.calls_of_suits {host : Host σ} (hhost : host.Suits S) : S.Calls host := by
  rintro ⟨f, frame, args⟩ ⟨f', frame', args'⟩ ⟨hcallee, hframe, hargs⟩
  dsimp only at hcallee hframe hargs
  cases hcallee with
  | native n => exact Call.alike_runNative hframe hargs hhost n
  | closure id l hs => exact Call.alike_runClosure hframe hargs id l hs
  | curried id hf herror hlength hsaved hwaiting =>
    have hvs := forall₂_iff_forall_zip.mpr ⟨hlength, hsaved⟩
    exact Call.alike_runCurried hframe hargs (.curried id hf herror hlength hsaved hwaiting)
      ⟨hf, herror⟩ hvs hwaiting
  | thunk id e hs => exact Expr.alike_eval e (Frame.like_withScope hframe hs) hargs
  | code id e => exact Expr.alike_eval e hframe hargs
  | number x => exact alike_pure (.number x)
  | string t => exact alike_pure (.string t)
  | boolean b => exact alike_pure (.boolean b)
  | array hlength hitems herrors => exact alike_pure (.array hlength hitems herrors)
  | error id hcause hpath => exact alike_pure (.error id hcause hpath)
  | module hspace => exact alike_pure (.module hspace)

end ChainScript
