import ChainScript.Proofs.Proc.Confined

/-!
Evaluation is confined to its frame: whatever the expression, the calls it makes and the errors it
creates are those of the frame it is evaluated in, up to the scope, and every construct relays the
errors of its parts.
-/
namespace ChainScript

open Proc

variable {σ : Type} {given : Errors} {whole : Option Code} {frame : Frame}

namespace Pattern

theorem traced_of_mem_bindings {pattern : Pattern} {v : Value} {names : List (String × Value)}
    (hv : v.Traced given) (h : pattern.bindings v = .ok names) : ∀ e ∈ names, e.2.Traced given := by
  unfold bindings at h
  split at h
  · cases h
    exact List.forall_mem_singleton.mpr hv
  next xs =>
    split at h
    · split at h
      · cases h
      · cases h
        intro e he u hu
        exact hv u (.item (List.of_mem_zip he).2 hu)
    · cases h

theorem confined_bind (pattern : Pattern) {v : Value} (hv : v.Traced given) :
    Confined given whole frame (.attempt given fun names => ∀ e ∈ names, e.2.Traced given)
      (pattern.bind v frame : Proc σ _) := by
  unfold Pattern.bind
  split
  · exact confined_pure hv
  · split
    next names hnames => exact confined_pure (traced_of_mem_bindings hv hnames)
    next cause _ => exact confined_failed cause

theorem bind_of_isError {v : Value} (pattern : Pattern) (h : v.isError = true) :
    (pattern.bind v frame : Proc σ _) = pure (.error v) := by
  rw [Pattern.bind, if_pos h]

/-- Whatever the slot, an error stays the running value. -/
theorem bindSlot_of_isError {e : Value} (slot : Option Pattern) (he : e.isError = true)
    (scope : Scope) :
    ∃ scope', (bindSlot slot e frame scope : Proc σ _) = pure (e, scope') := by
  unfold bindSlot
  split
  · exact ⟨_, rfl⟩
  · exact ⟨_, rfl⟩
  · rw [bind_of_isError _ he]
    exact ⟨_, rfl⟩

theorem confined_bindSlot (slot : Option Pattern) {output : Value} {scope : Scope}
    (houtput : output.Traced given) (hs : scope.Traced given) :
    Confined given whole frame (.paired given (Scope.Traced given))
      (bindSlot slot output frame scope : Proc σ _) := by
  unfold bindSlot
  split
  · exact confined_pure ⟨houtput, hs⟩
  · exact confined_pure ⟨houtput, Scope.traced_addAll hs (List.forall_mem_singleton.mpr houtput)⟩
  · refine Proc.confined_bind (confined_bind _ houtput) ?_ fun w => relays_of_eq ?_
    · rintro (e | bound) h
      · exact confined_pure ⟨h, hs⟩
      · exact confined_pure ⟨houtput, Scope.traced_addAll hs h⟩
    · rintro _ e - rfl
      exact ⟨(e, scope), rfl, rfl⟩

end Pattern

namespace Expr

variable {w : World σ}

theorem withSubject_of_isError {side : Value} (h : side.isError = true) (subject : Value) :
    (withSubject side subject frame : Proc σ Value) = pure side := by
  rw [withSubject, if_pos h]

theorem confined_withSubject {side subject : Value} (hside : side.Traced given)
    (hsubject : subject.Traced given) (hs : frame.scope.Traced given) :
    Confined given whole frame (.value given) (withSubject side subject frame : Proc σ Value) := by
  unfold withSubject
  split
  · exact confined_pure hside
  · exact confined_invoke hside (List.forall_mem_singleton.mpr hsubject) hs

theorem confined_forceParams (hs : frame.scope.Traced given) (params : List String) :
    Confined given whole frame (.attempt given fun values => ∀ v ∈ values, v.Traced given)
      (forceParams frame params : Proc σ _) := by
  induction params with
  | nil => exact confined_pure (List.forall_mem_nil _)
  | cons x rest ih =>
    unfold forceParams
    split
    · exact confined_failed _
    next b hb =>
      refine confined_then (confined_realize (Scope.traced_find? hs hb)) fun v hv => ?_
      refine confined_bind (confined_invoke hv (List.forall_mem_nil _) hs) ?_
        fun w => relays_of_eq ?_
      · intro u hu
        split
        · exact confined_pure hu
        · refine confined_bind ih ?_ fun w => relays_of_eq ?_
          · rintro (e | values) h
            · exact confined_pure h
            · exact confined_pure (List.forall_mem_cons.mpr ⟨hu, h⟩)
          · rintro _ e - rfl
            exact ⟨.error e, rfl, rfl⟩
      · rintro _ e he rfl
        exact ⟨.error e, rfl, if_pos he⟩

theorem confined_storedOr {body : Proc σ Value} (mark : Nat) (values : List Value)
    (hbody : Confined given whole frame (.value given) body) :
    Confined given whole frame (.value given) (storedOr mark values body) := by
  refine fun w hw => .read ?_
  split
  next result hresult => exact .done (hw mark _ result hresult)
  next =>
    refine confined_strict hbody (fun v hv => ?_) (fun e he => ?_) w hw
    · split
      · refine confined_then (confined_modify ?_) fun _ _ => confined_pure hv
        exact fun w hw => ⟨⟨rfl, rfl⟩, World.traced_store hw hv⟩
      · exact confined_pure hv
    · simp [he]

/-- Segments that do not recover leave an error as it is. -/
theorem reduces_evalSegments {rest : List (Segment Code)} {e : Value} (he : e.isError = true)
    (hrest : ¬ ∃ s ∈ rest, s.link = .recover) (hstop : w.stop? frame = none) (scope : Scope) :
    Reduces w (evalSegments rest e scope frame) (done e) := by
  induction rest with
  | nil =>
    unfold evalSegments
    exact .refl
  | cons s rest ih =>
    obtain ⟨code, link, slot⟩ := s
    have hlink : link.applies e = false := by
      cases link with
      | recover => exact absurd ⟨_, List.mem_cons_self, rfl⟩ hrest
      | plain => simp [Link.applies, he]
      | ignored => simp [Link.applies, he]
    unfold evalSegments
    refine reduces_seq (reduces_stop? hstop) ?_
    simp only [hlink]
    exact ih fun ⟨s, hs, hrecover⟩ => hrest ⟨s, List.mem_cons_of_mem _ hs, hrecover⟩

/-- The rest of a chain relays an error that it starts with, up to a segment that recovers. -/
theorem relays_running {carry : Value → Value} (rest : List (Segment Code))
    (hchain : EndsChain rest whole) (hcarry : ∀ e : Value, e.isError = true → carry e = e)
    (hstop : w.stop? frame = none) :
    Relays whole (fun e (r : Value × Scope) => e = r.1) Eq
      (fun r => evalSegments rest (carry r.1) r.2 frame) w := by
  by_cases hrest : ∃ s ∈ rest, s.link = .recover
  · refine .toRecovery rest frame pure hchain hrest ?_
    rintro ⟨_, scope⟩ e w' he rfl -
    refine ⟨scope, ?_⟩
    simp only [hcarry e he]
    rw [show (pure : Value → Proc σ Value) = done from rfl, bind_done]
    exact .refl
  · refine .on ?_
    rintro ⟨_, scope⟩ e w' he rfl hw
    refine ⟨e, rfl, ?_⟩
    simp only [hcarry e he]
    exact reduces_evalSegments he hrest ((World.stop?_of_steady hw frame).trans hstop) scope

/-- So it does with the error of the segment before. -/
theorem relays_segments {inner : Frame} {carry : Value → Value} (slot : Option Pattern)
    (rest : List (Segment Code)) (scope : Scope) (hchain : EndsChain rest whole)
    (hcarry : ∀ e : Value, e.isError = true → carry e = e) (hstop : w.stop? frame = none) :
    Relays whole Eq Eq
      (fun v => Pattern.bindSlot slot v inner scope >>= fun r =>
        evalSegments rest (carry r.1) r.2 frame) w := by
  have hslot : Relays whole Eq (fun e (r : Value × Scope) => e = r.1)
      (fun v => Pattern.bindSlot slot v inner scope) w := by
    refine relays_of_eq ?_
    rintro _ e he rfl
    obtain ⟨scope', heq⟩ := Pattern.bindSlot_of_isError slot he scope
    exact ⟨(e, scope'), rfl, heq⟩
  exact relays_bind hslot (relays_running rest hchain hcarry hstop)

mutual
theorem confined_eval (code : Code) (frame : Frame) (args : List Value)
    (hcode : code.Within whole) (hs : frame.scope.Traced given)
    (hargs : ∀ a ∈ args, a.Traced given) :
    Confined given whole frame (.value given) (code.eval frame args : Proc σ Value) := by
  have hpart {e : Code} (he : e ∈ code.children) : e.Within whole := within_child hcode he
  have hfirst {e : Code} {rest : List Code} (he : code.children = e :: rest) : e.Within whole :=
    hpart (he ▸ List.mem_cons_self)
  have hnone : ∀ a ∈ ([] : List Value), a.Traced given := List.forall_mem_nil _
  have hempty : (Value.array []).Traced given := Value.traced_array hnone
  have hrest (v : Value) (hv : v.Traced given) :
      Confined given whole frame (.value given) (applyRest v frame args : Proc σ Value) :=
    confined_applyRest hv hargs hs
  have herror (e : Value) (he : e.isError = true) :
      applyRest e frame args = (pure e : Proc σ Value) := applyRest_of_isError he args
  cases code with
  | number x =>
    unfold eval
    exact confined_pure (Value.traced_number x)
  | string t =>
    unfold eval
    exact confined_pure (Value.traced_string t)
  | empty =>
    unfold eval
    exact confined_pure hempty
  | var x =>
    unfold eval
    split
    · exact confined_fail _
    next b hb => exact confined_realized (Scope.traced_find? hs hb) hargs hs
  | array items =>
    unfold eval
    exact confined_evalArray items [] frame (fun e he => hpart he) hnone hs
  | lambda name params body =>
    unfold eval
    refine confined_then confined_fresh fun id _ => ?_
    have hfunc := Value.traced_closure hs id ⟨name, params, body⟩
    split
    · exact confined_pure hfunc
    · exact confined_invoke hfunc hargs hs
  | apply func own =>
    unfold eval
    refine confined_strict (confined_eval func frame [] (hfirst rfl) hs hnone) (fun v hv => ?_)
      fun e he => if_pos he
    have hown : ∀ a ∈ own.map (Value.pin frame.scope), a.Traced given := by
      intro a ha
      obtain ⟨e, -, rfl⟩ := List.mem_map.mp ha
      exact Value.traced_pin hs e
    split
    · exact confined_pure hv
    · refine confined_invoke hv ?_ hs
      intro a ha
      split at ha
      · exact (List.mem_append.mp ha).elim (hargs a) (hown a)
      · exact (List.mem_append.mp ha).elim (hown a) (hargs a)
  | switch subject cases =>
    unfold eval
    refine confined_strict (confined_eval subject frame [] (hfirst rfl) hs hnone) (fun v hv => ?_)
      fun e he => if_pos he
    split
    · exact confined_pure hv
    · refine confined_strict (confined_evalCases cases v frame (fun c hc e he => ?_) hv hs) hrest
        herror
      exact hpart (List.mem_cons_of_mem _ (List.mem_flatMap.mpr ⟨c, hc, he⟩))
  | chain segments =>
    unfold eval
    have hchain : EndsChain segments whole := ⟨segments, hcode, List.suffix_rfl⟩
    exact confined_strict (confined_evalChain segments frame hchain hs) hrest herror
  | compound items =>
    unfold eval
    refine confined_bind (confined_evalItems items (.array []) [] frame
      (fun e he => hpart he) hempty (by simp) hs)
      (fun r h => hrest r.1 h.1) fun w => relays_of_eq ?_
    rintro ⟨_, bound⟩ e he rfl
    exact ⟨e, rfl, herror e he⟩
  | collector items =>
    unfold eval
    refine confined_bind (confined_evalItems items (.array []) [] frame
      (fun e he => hpart he) hempty (by simp) hs) ?_
      fun w => relays_of_eq ?_
    · rintro ⟨last, bound⟩ ⟨hlast, hbound⟩
      dsimp only
      split
      · exact confined_pure hlast
      · refine confined_then confined_fresh fun id _ => ?_
        exact hrest _
          (Value.traced_module (Module.traced_space (Module.traced_ofBound hbound id) hs))
    · rintro ⟨_, bound⟩ e he rfl
      exact ⟨e, rfl, if_pos he⟩
  | bind pattern value =>
    unfold eval
    refine confined_strict (confined_eval value frame [] (hfirst rfl) hs hnone) (fun v hv => ?_)
      fun e he => ?_
    · refine confined_bind (pattern.confined_bind hv) ?_ fun w => relays_of_eq ?_
      · rintro (e | names) h
        · exact confined_pure h
        · exact hrest v hv
      · rintro _ e - rfl
        exact ⟨e, rfl, rfl⟩
    · rw [Pattern.bind_of_isError pattern he]
      rfl
  | member base name =>
    unfold eval
    refine confined_strict (confined_eval base frame [] (hfirst rfl) hs hnone) (fun v hv => ?_)
      fun e he => ?_
    · split
      next space =>
        split
        · exact confined_fail _
        next b hb =>
          have hspace : space.Traced given := fun u hu => hv u (.member hu)
          exact confined_realized (Namespace.traced_resolve? hspace hb) hargs hs
      · exact confined_pure hv
      · exact confined_fail _
    · obtain ⟨id, failure, rfl⟩ := Value.exists_of_isError he
      rfl
  | within base body =>
    unfold eval
    refine confined_strict (confined_eval base frame [] (hfirst rfl) hs hnone) (fun v hv => ?_)
      fun e he => ?_
    · split
      next space =>
        have hinner := Scope.traced_members (fun u hu => hv u (.member hu)) hs
        exact confined_of_withScope
          (confined_eval body (frame.withScope (.members space frame.scope)) args
            (hpart (List.mem_cons_of_mem _ List.mem_cons_self)) hinner hargs)
      · exact confined_pure hv
      · exact confined_fail _
    · obtain ⟨id, failure, rfl⟩ := Value.exists_of_isError he
      rfl
  | memo mark params body =>
    unfold eval
    refine confined_bind (confined_forceParams hs params) ?_ fun w => relays_of_eq ?_
    · rintro (e | values) h
      · exact confined_pure h
      · have hinner : (frame.scope.addAll (params.zip values)).Traced given :=
          Scope.traced_addAll hs fun e he => h e.2 (List.of_mem_zip he).2
        refine confined_strict (confined_storedOr mark values ?_) hrest herror
        exact confined_invoke (Value.traced_thunk hinner none body) hnone hs
    · rintro _ e - rfl
      exact ⟨e, rfl, rfl⟩
termination_by sizeOf code
decreasing_by
  all_goals
    subst_vars
    simp only [array.sizeOf_spec, apply.sizeOf_spec, switch.sizeOf_spec, chain.sizeOf_spec,
      compound.sizeOf_spec, collector.sizeOf_spec, bind.sizeOf_spec, member.sizeOf_spec,
      within.sizeOf_spec]
    omega
theorem confined_evalArray (items : List Code) (values : List Value) (frame : Frame)
    (hitems : ∀ e ∈ items, e.Within whole) (hvalues : ∀ v ∈ values, v.Traced given)
    (hs : frame.scope.Traced given) :
    Confined given whole frame (.value given) (evalArray items values frame : Proc σ Value) := by
  cases items with
  | nil =>
    unfold evalArray
    exact confined_pure (Value.traced_array hvalues)
  | cons e rest =>
    unfold evalArray
    rw [List.forall_mem_cons] at hitems
    refine confined_strict (confined_eval e frame [] hitems.1 hs (List.forall_mem_nil _))
      (fun v hv => ?_) fun e he => if_pos he
    split
    · exact confined_pure hv
    · refine confined_evalArray rest (values ++ [v]) frame hitems.2 ?_ hs
      exact List.forall_mem_append.mpr ⟨hvalues, List.forall_mem_singleton.mpr hv⟩
termination_by sizeOf items
decreasing_by all_goals (subst_vars; simp only [List.cons.sizeOf_spec]; omega)
theorem confined_evalCases (cases : List (Code × Code)) (subject : Value) (frame : Frame)
    (hcases : ∀ c ∈ cases, ∀ e ∈ [c.1, c.2], e.Within whole) (hsubject : subject.Traced given)
    (hs : frame.scope.Traced given) :
    Confined given whole frame (.value given) (evalCases cases subject frame : Proc σ Value) := by
  match cases with
  | [] =>
    unfold evalCases
    exact confined_pure hsubject
  | (lhs, rhs) :: rest =>
    unfold evalCases
    rw [List.forall_mem_cons] at hcases
    obtain ⟨hsides, hcases⟩ := hcases
    have hlhs : lhs.Within whole := hsides lhs List.mem_cons_self
    have hrhs : rhs.Within whole := hsides rhs (List.mem_cons_of_mem _ List.mem_cons_self)
    refine confined_unless_stop id (fun w hw _ => ?_) (fun _ => rfl) (fun _ he => he) fun _ => rfl
    refine confined_strict (confined_eval lhs frame [] hlhs hs (List.forall_mem_nil _))
      (fun l hl => ?_) (fun e he => ?_) w hw
    · refine confined_strict (confined_withSubject hl hsubject hs) (fun test htest => ?_)
        fun e he => if_pos he
      split
      · exact confined_pure htest
      · split
        · exact confined_strict (confined_eval rhs frame [] hrhs hs (List.forall_mem_nil _))
            (fun r hr => confined_withSubject hr hsubject hs)
            fun e he => withSubject_of_isError he subject
        · exact confined_evalCases rest subject frame hcases hsubject hs
    · rw [withSubject_of_isError he subject]
      exact if_pos he
termination_by sizeOf cases
decreasing_by all_goals (simp only [List.cons.sizeOf_spec, Prod.mk.sizeOf_spec]; omega)
theorem confined_evalChain (segments : List (Segment Code)) (frame : Frame)
    (hchain : EndsChain segments whole) (hs : frame.scope.Traced given) :
    Confined given whole frame (.value given) (evalChain segments frame : Proc σ Value) := by
  match segments with
  | [] =>
    unfold evalChain
    exact confined_pure (Value.traced_array (List.forall_mem_nil _))
  | ⟨e, _, slot⟩ :: rest =>
    unfold evalChain
    have hsegment : e.Within whole := within_segment hchain List.mem_cons_self
    have hrest : EndsChain rest whole := endsChain_tail hchain
    refine confined_unless_stop id (fun w hw hstop => ?_) (fun _ => rfl) (fun _ he => he)
      fun _ => rfl
    refine confinedAt_bind (confined_eval e frame [] hsegment hs (List.forall_mem_nil _) w hw) hw
      (relays_segments slot rest frame.scope hrest (fun _ _ => rfl) hstop) fun v w' hv hw' => ?_
    have hstop' := (World.stop?_of_steady hw'.toSteady frame).trans hstop
    refine confinedAt_bind (Pattern.confined_bindSlot slot hv hs w' hw'.traced) hw'.traced
      (relays_running rest hrest (fun _ _ => rfl) hstop') fun r w'' hr hw'' => ?_
    exact confined_evalSegments rest r.1 r.2 frame hrest hr.1 hr.2 hs w'' hw''.traced
termination_by sizeOf segments
decreasing_by all_goals (simp only [List.cons.sizeOf_spec, Segment.mk.sizeOf_spec]; omega)
theorem confined_evalSegments (segments : List (Segment Code)) (running : Value) (scope : Scope)
    (frame : Frame) (hchain : EndsChain segments whole) (hrunning : running.Traced given)
    (hscope : scope.Traced given) (hs : frame.scope.Traced given) :
    Confined given whole frame (.value given)
      (evalSegments segments running scope frame : Proc σ Value) := by
  match segments with
  | [] =>
    unfold evalSegments
    exact confined_pure hrunning
  | ⟨e, link, slot⟩ :: rest =>
    unfold evalSegments
    have hrest : EndsChain rest whole := endsChain_tail hchain
    refine confined_unless_stop id (fun w hw hstop => ?_) (fun _ => rfl) (fun _ he => he)
      fun _ => rfl
    dsimp only
    split
    · have hsegment : Confined given whole frame (.value given)
          (e.eval (frame.withScope scope) [running] : Proc σ Value) :=
        confined_of_withScope (confined_eval e (frame.withScope scope) [running]
          (within_segment hchain List.mem_cons_self) hscope
          (List.forall_mem_singleton.mpr hrunning))
      have hcarry (e : Value) (he : e.isError = true) : link.carry running e = e := by
        simp [Link.carry, he]
      refine confinedAt_bind (hsegment w hw) hw (relays_segments slot rest scope hrest hcarry hstop)
        fun v w' hv hw' => ?_
      have hstop' := (World.stop?_of_steady hw'.toSteady frame).trans hstop
      have hslot : Confined given whole frame (.paired given (Scope.Traced given))
          (Pattern.bindSlot slot v (frame.withScope scope) scope : Proc σ _) :=
        confined_of_withScope (Pattern.confined_bindSlot slot hv hscope)
      refine confinedAt_bind (hslot w' hw'.traced) hw'.traced
        (relays_running rest hrest hcarry hstop') fun r w'' hr hw'' => ?_
      refine confined_evalSegments rest (link.carry running r.1) r.2 frame hrest ?_ hr.2 hs w''
        hw''.traced
      unfold Link.carry
      split
      · exact hrunning
      · exact hr.1
    · exact confined_evalSegments rest running scope frame hrest hrunning hscope hs w hw
termination_by sizeOf segments
decreasing_by all_goals (simp only [List.cons.sizeOf_spec, Segment.mk.sizeOf_spec]; omega)
theorem confined_evalItems (items : List Code) (last : Value) (bound : List (String × Value))
    (frame : Frame) (hitems : ∀ e ∈ items, e.Within whole) (hlast : last.Traced given)
    (hbound : ∀ e ∈ bound, e.2.Traced given)
    (hs : frame.scope.Traced given) :
    Confined given whole frame (.paired given fun names => ∀ e ∈ names, e.2.Traced given)
      (evalItems items last bound frame : Proc σ _) := by
  unfold evalItems
  split
  · exact confined_pure ⟨hlast, hbound⟩
  next pattern e rest =>
    rw [List.forall_mem_cons] at hitems
    have hvalue : e.Within whole := within_child hitems.1 List.mem_cons_self
    refine confined_unless_stop (·, bound) (fun w hw _ => ?_) (fun _ => rfl)
      (fun _ he => ⟨he, hbound⟩) fun _ => rfl
    refine confined_bind (confined_eval e frame [] hvalue hs (List.forall_mem_nil _))
      (fun v hv => ?_) (fun w => relays_of_eq ?_) w hw
    · refine confined_bind (pattern.confined_bind hv) ?_ fun w => relays_of_eq ?_
      · rintro (e' | names) h
        · exact confined_pure ⟨h, hbound⟩
        · exact confined_of_withScope (confined_evalItems rest v (bound ++ names)
            (frame.withScope (frame.scope.addAll names)) hitems.2 hv
            (List.forall_mem_append.mpr ⟨hbound, h⟩) (Scope.traced_addAll hs h))
      · rintro _ e - rfl
        exact ⟨(e, bound), rfl, rfl⟩
    · rintro _ e he rfl
      rw [Pattern.bind_of_isError pattern he]
      exact ⟨(e, bound), rfl, rfl⟩
  next e rest _ =>
    rw [List.forall_mem_cons] at hitems
    refine confined_unless_stop (·, bound) (fun w hw _ => ?_) (fun _ => rfl)
      (fun _ he => ⟨he, hbound⟩) fun _ => rfl
    refine confined_bind (confined_eval e frame [] hitems.1 hs (List.forall_mem_nil _))
      (fun v hv => ?_) (fun w => relays_of_eq ?_) w hw
    · split
      · exact confined_pure ⟨hv, hbound⟩
      · exact confined_evalItems rest v bound frame hitems.2 hv hbound hs
    · rintro _ e he rfl
      exact ⟨(e, bound), rfl, if_pos he⟩
termination_by sizeOf items
decreasing_by all_goals (subst_vars; simp only [List.cons.sizeOf_spec, bind.sizeOf_spec]; omega)
end

end Expr

end ChainScript
