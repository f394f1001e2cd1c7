import ChainScript.Proofs.Value.Obeys

/-!
The procedures that evaluations are made of keep the contract of a policy, and so does the reading
of arguments. Those that make calls do the same in frames that differ in their scopes only.
-/
namespace ChainScript

variable {σ α β : Type} {p : Policy σ} {site : Call → Prop} {w : World σ} {frame : Frame}
  {v : Value} {args : List Value}

namespace Proc

theorem agree_invoke (hw : w.Obeys p) (hsite : site ⟨v, frame, args⟩) (hv : v.Obeys p)
    (hargs : ∀ a ∈ args, a.Obeys p) (s : Scope) :
    Agree (p.contract.under site) p.Yields (invoke v frame args)
      (invoke v (frame.withScope s) args) w :=
  ⟨rfl, ⟨hsite, ⟨hv, hargs⟩, hw⟩, fun _ _ _ hyields => agree_pure hyields⟩

theorem ensures_invoke (hw : w.Obeys p) (hsite : site ⟨v, frame, args⟩) (hv : v.Obeys p)
    (hargs : ∀ a ∈ args, a.Obeys p) :
    Ensures (p.contract.under site) p.Yields (invoke v frame args) w :=
  agree_invoke hw hsite hv hargs frame.scope

theorem ensures_fresh (hw : w.Obeys p) :
    Ensures (p.contract.under site) (fun _ w => w.Obeys p) fresh w := by
  have hw' : World.Obeys p { w with next := w.next + 1 } := World.obeys_of_caches hw rfl
  exact ⟨rfl, hw', rfl, hw'⟩

theorem ensures_modify {f : World σ → World σ} (hw : (f w).Obeys p) :
    Ensures (p.contract.under site) (fun _ w' => w'.Obeys p) (modify f) w :=
  ⟨rfl, hw, rfl, hw⟩

theorem ensures_fail (hw : w.Obeys p) (cause : Cause) :
    Ensures (p.contract.under site) (fun v w => p.Yields v w ∧ v.isError = true)
      (fail frame cause) w := by
  refine ensures_seq (ensures_fresh hw) ?_
  intro id w hw
  exact ensures_pure ⟨p.yields_of_isEvaluated hw (.error _ _) rfl, rfl⟩

theorem ensures_yields_fail (hw : w.Obeys p) (cause : Cause) :
    Ensures (p.contract.under site) p.Yields (fail frame cause) w :=
  ensures_mono (fun _ h => h) (fun _ _ h => h.1) (ensures_fail hw cause)

/-- A frame that need not stop is not too deep. -/
theorem ensures_stop? (frame : Frame) (hw : w.Obeys p) :
    Ensures (p.contract.under site)
      (fun e w => w.Obeys p ∧ (e = none → frame.depth ≤ frame.maxDepth) ∧
        ∀ v, e = some v → p.Yields v w ∧ v.isError = true) (stop? frame) w := by
  unfold stop?
  refine ensures_read ?_
  cases hstop : w.stop? frame with
  | some cause =>
    refine ensures_seq (ensures_fail hw cause) ?_
    rintro v w ⟨hv, herror⟩
    refine ensures_pure ⟨hv.1, by simp, ?_⟩
    rintro u hu
    obtain rfl := Option.some.inj hu
    exact ⟨hv, herror⟩
  | none =>
    refine ensures_pure ⟨hw, fun _ => Nat.le_of_not_lt ?_, by simp⟩
    intro hdeep
    simp [World.stop?, hdeep] at hstop

/-- A binding is realized as its value or as a closure. -/
theorem ensures_realize {b : Binding} (hw : w.Obeys p) (hb : b.Obeys p) :
    Ensures (p.contract.under site)
      (fun v w => w.Obeys p ∧ v.Obeys p ∧ (b = .value v ∨ v.isEvaluated = true)) (realize b) w := by
  cases b with
  | value v => exact ensures_pure ⟨hw, hb, .inl rfl⟩
  | function l scope =>
    refine ensures_seq (ensures_fresh hw) ?_
    intro id w hw
    exact ensures_pure ⟨hw, .closure id hb.1 hb.2, .inr rfl⟩

theorem agree_applyRest (hv : p.Yields v w) (hargs : ∀ a ∈ args, a.Obeys p)
    (hsite : args ≠ [] → site ⟨v, frame, args⟩) (s : Scope) :
    Agree (p.contract.under site) p.Yields (applyRest v frame args)
      (applyRest v (frame.withScope s) args) w := by
  unfold applyRest
  split
  · exact agree_pure hv
  next hrest =>
    have hne : args ≠ [] := by
      rintro rfl
      simp at hrest
    exact agree_invoke hv.1 (hsite hne) hv.2.1 hargs s

theorem ensures_applyRest (hv : p.Yields v w) (hargs : ∀ a ∈ args, a.Obeys p)
    (hsite : args ≠ [] → site ⟨v, frame, args⟩) :
    Ensures (p.contract.under site) p.Yields (applyRest v frame args) w :=
  agree_applyRest hv hargs hsite frame.scope

theorem ensures_curry {arity : Nat} {order : Order} (hw : w.Obeys p) (hv : v.Obeys p)
    (hevaluated : v.isEvaluated = true) (hargs : ∀ a ∈ args, a.Obeys p)
    (hwaiting : args ≠ [] → p.waiting v args arity order) :
    Ensures (p.contract.under site) p.Yields (curry v args arity order) w := by
  unfold curry
  split
  · exact ensures_pure (p.yields_of_isEvaluated hw hv hevaluated)
  next hempty =>
    have hne : args ≠ [] := by
      rintro rfl
      simp at hempty
    refine ensures_seq (ensures_fresh hw) ?_
    intro id w hw
    exact ensures_pure (p.yields_of_isEvaluated hw (.curried id hv hargs (hwaiting hne)) rfl)

end Proc

namespace Policy

/-- What an attempt may end with: a result with the property `P`, or an error. -/
def Outcome (p : Policy σ) (P : α → Prop) (r : Except Value α) (w : World σ) : Prop :=
  match r with
  | .ok a => w.Obeys p ∧ P a
  | .error e => p.Yields e w

end Policy

namespace Attempt

open Proc

variable {P : α → Prop} {Q : β → Prop} {x y : Attempt σ α} {f g : α → Attempt σ β} {a : α}
  {reader : Reader α}

/-- The two attempts keep the contract of the policy in step, and end with what satisfies `P`. -/
def Agree (p : Policy σ) (site : Call → Prop) (P : α → Prop) (x y : Attempt σ α)
    (w : World σ) : Prop :=
  Proc.Agree (p.contract.under site) (p.Outcome P) x.run y.run w

theorem agree_pure (hw : w.Obeys p) (ha : P a) :
    Agree p site P (pure a : Attempt σ α) (pure a) w :=
  Proc.agree_pure (a := Except.ok a) ⟨hw, ha⟩

theorem agree_seq (hx : Agree p site P x y w)
    (hf : ∀ a w, w.Obeys p → P a → Agree p site Q (f a) (g a) w) :
    Agree p site Q (x >>= f) (y >>= g) w := by
  change Proc.Agree _ _ (x.run >>= ExceptT.bindCont f) (y.run >>= ExceptT.bindCont g) w
  refine Proc.agree_seq hx ?_
  rintro (e | a) w h
  · exact Proc.agree_pure (a := Except.error e) h
  · exact hf a w h.1 h.2

theorem agree_fail (hw : w.Obeys p) (cause : Cause) (s : Scope) :
    Agree p site P (fail frame cause) (fail (frame.withScope s) cause) w := by
  refine Proc.agree_seq (ensures_yields_fail hw cause) ?_
  intro e w he
  exact Proc.agree_pure (a := Except.error e) he

section Force

variable (hsite : ∀ v, site ⟨v, frame, []⟩) (s : Scope)

include hsite

theorem agree_force (hw : w.Obeys p) (hv : v.Obeys p) :
    Agree p site (fun v => p.Fits v ∧ v.isError = false) (force frame v)
      (force (frame.withScope s) v) w := by
  refine Proc.agree_seq (agree_invoke hw (hsite v) hv (by simp) s) ?_
  rintro u w ⟨hw, hu⟩
  refine Proc.agree_pure ?_
  cases herror : u.isError with
  | true => exact ⟨hw, hu⟩
  | false => exact ⟨hw, hu, herror⟩

theorem agree_forceAll (hw : w.Obeys p) (hargs : ∀ a ∈ args, a.Obeys p) :
    Agree p site (fun vs => ∀ v ∈ vs, p.Fits v) (forceAll frame args)
      (forceAll (frame.withScope s) args) w := by
  induction args generalizing w with
  | nil => exact agree_pure hw (by simp)
  | cons a rest ih =>
    refine agree_seq (agree_force hsite s hw (hargs a List.mem_cons_self)) ?_
    rintro v w hw ⟨hv, -⟩
    refine agree_seq (ih hw fun b hb => hargs b (List.mem_cons_of_mem _ hb)) ?_
    intro vs w hw hvs
    refine agree_pure hw ?_
    intro u hu
    rcases List.mem_cons.mp hu with rfl | hu
    · exact hv
    · exact hvs u hu

theorem agree_forceAs (hread : ∀ v a, p.Fits v → reader.read? v = some a → P a)
    (hw : w.Obeys p) (hv : v.Obeys p) :
    Agree p site P (forceAs reader frame v) (forceAs reader (frame.withScope s) v) w := by
  refine agree_seq (agree_force hsite s hw hv) ?_
  rintro u w hw ⟨hu, -⟩
  split
  next a ha => exact agree_pure hw (hread u a hu ha)
  next => exact agree_fail hw _ s

theorem agree_argument (hread : ∀ v a, p.Fits v → reader.read? v = some a → P a)
    (hw : w.Obeys p) (hargs : ∀ a ∈ args, a.Obeys p) (index : Nat) :
    Agree p site P (argument reader frame args index)
      (argument reader (frame.withScope s) args index) w := by
  unfold argument
  split
  next v hv => exact agree_forceAs hsite s hread hw (hargs v (List.mem_of_getElem? hv))
  next => exact agree_fail hw _ s

end Force

/-- An attempt ends in a result, which may be the error that ended it. -/
theorem agree_result {x y : Attempt σ Value}
    (h : Agree p site p.Fits x y w) :
    Proc.Agree (p.contract.under site) p.Yields x.result y.result w := by
  refine Proc.agree_seq h ?_
  rintro (e | v) w hr
  · exact Proc.agree_pure hr
  · exact Proc.agree_pure hr

end Attempt

end ChainScript
