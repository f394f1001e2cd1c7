import ChainScript.Proofs.Eval.Argument

/-!
The functions of the prelude keep the contract of a policy, whatever the scope of their frame.
-/
namespace ChainScript.Builtin

open Attempt

variable {σ α β : Type} {p : Policy σ} {site : Call → Prop} {w : World σ} {frame : Frame}
  {v : Value} {args : List Value} {P : α → Prop}

theorem fits_number (x : Float) : p.Fits (.number x) := p.fits_of_isEvaluated (.number x) rfl

theorem fits_string (s : String) : p.Fits (.string s) := p.fits_of_isEvaluated (.string s) rfl

theorem fits_boolean (b : Bool) : p.Fits (.boolean b) := p.fits_of_isEvaluated (.boolean b) rfl

theorem fits_of_mem_elements {collection : Value} {items : List Value} (hc : collection.Obeys p)
    (h : elements collection = .ok items) (hv : v ∈ items) : p.Fits v := by
  cases collection with
  | array values =>
    obtain rfl := Except.ok.inj h
    cases hc with
    | array hobeys hitem => exact ⟨hobeys v hv, p.result_of_item (hitem v hv)⟩
  | string s =>
    obtain rfl := Except.ok.inj h
    obtain ⟨c, -, rfl⟩ := List.mem_map.mp hv
    exact fits_string _
  | _ => simp [elements] at h

theorem obeys_of_indexAndCollection {first second collection : Value} {x : Float}
    (hf : first.Obeys p) (hs : second.Obeys p)
    (h : indexAndCollection first second = .ok (x, collection)) : collection.Obeys p := by
  unfold indexAndCollection at h
  split at h
  · cases h; exact hf
  · cases h; exact hs
  · cases h

theorem fits_of_elementAt {first second : Value} (hf : first.Obeys p) (hs : second.Obeys p)
    (h : elementAt first second = .ok v) : p.Fits v := by
  unfold elementAt at h
  cases hcoll : indexAndCollection first second with
  | error cause => simp [hcoll, bind, Except.bind] at h
  | ok pair =>
    obtain ⟨x, collection⟩ := pair
    have hc := obeys_of_indexAndCollection hf hs hcoll
    simp only [hcoll, bind, Except.bind] at h
    split at h
    next index =>
      cases hitems : elements collection with
      | error cause => simp [hitems] at h
      | ok items =>
        simp only [hitems] at h
        split at h
        next item hitem =>
          obtain rfl := Except.ok.inj h
          exact fits_of_mem_elements hc hitems (List.mem_of_getElem? hitem)
        next => cases h
    next => cases h

theorem fits_of_read? (v u : Value) (hv : p.Fits v) (h : Reader.value.read? v = some u) :
    p.Fits u := by
  obtain rfl := Option.some.inj h
  exact hv

theorem agree_settle (hw : w.Obeys p) {r : Except Cause α} (hr : ∀ a, r = .ok a → P a)
    (s : Scope) :
    Attempt.Agree p site P (settle frame r) (settle (frame.withScope s) r) w := by
  cases r with
  | ok a => exact agree_pure hw (hr a rfl)
  | error cause => exact agree_fail hw cause s

section Force

variable (hsite : ∀ v, site ⟨v, frame, []⟩) (s : Scope)

include hsite

theorem agree_forced {reader : Reader β} (hw : w.Obeys p) (hv : v.Obeys p) :
    Attempt.Agree p site (fun _ => True) (forceAs reader frame v)
      (forceAs reader (frame.withScope s) v) w :=
  agree_forceAs hsite s (fun _ _ _ _ => trivial) hw hv

theorem agree_value (hw : w.Obeys p) (hargs : ∀ a ∈ args, a.Obeys p) (index : Nat) :
    Attempt.Agree p site p.Fits (argument .value frame args index)
      (argument .value (frame.withScope s) args index) w :=
  agree_argument hsite s fits_of_read? hw hargs index

/-- What is done with two arguments, whose values have the property `Q`. -/
theorem agree_pair {reader : Reader β} {Q : β → Prop} {f g : β → β → Attempt σ α}
    (hread : ∀ v a, p.Fits v → reader.read? v = some a → Q a) (hw : w.Obeys p)
    (hargs : ∀ a ∈ args, a.Obeys p)
    (h : ∀ a b w, w.Obeys p → Q a → Q b → Attempt.Agree p site P (f a b) (g a b) w) :
    Attempt.Agree p site P
      (do
        let a ← argument reader frame args 0
        let b ← argument reader frame args 1
        f a b)
      (do
        let a ← argument reader (frame.withScope s) args 0
        let b ← argument reader (frame.withScope s) args 1
        g a b) w := by
  refine agree_seq (agree_argument hsite s hread hw hargs 0) ?_
  intro a w hw ha
  refine agree_seq (agree_argument hsite s hread hw hargs 1) ?_
  intro b w hw hb
  exact h a b w hw ha hb

theorem agree_sum (hw : w.Obeys p) (hargs : ∀ a ∈ args, a.Obeys p) (total : Float) :
    Attempt.Agree p site p.Fits (sum frame total args) (sum (frame.withScope s) total args) w := by
  induction args generalizing total w with
  | nil => exact agree_pure hw (fits_number total)
  | cons a rest ih =>
    refine agree_seq (agree_forced hsite s hw (hargs a List.mem_cons_self)) ?_
    intro x w hw _
    exact ih hw (fun b hb => hargs b (List.mem_cons_of_mem _ hb)) _

theorem agree_product (hw : w.Obeys p) (hargs : ∀ a ∈ args, a.Obeys p) (total : Float) :
    Attempt.Agree p site p.Fits (product frame total args)
      (product (frame.withScope s) total args) w := by
  induction args generalizing total w with
  | nil => exact agree_pure hw (fits_number total)
  | cons a rest ih =>
    refine agree_seq (agree_forced hsite s hw (hargs a List.mem_cons_self)) ?_
    intro x w hw _
    exact ih hw (fun b hb => hargs b (List.mem_cons_of_mem _ hb)) _

theorem agree_search (hw : w.Obeys p) (hargs : ∀ a ∈ args, a.Obeys p) (stopper : Bool) :
    Attempt.Agree p site p.Fits (search stopper frame args)
      (search stopper (frame.withScope s) args) w := by
  induction args generalizing w with
  | nil => exact agree_pure hw (fits_boolean _)
  | cons a rest ih =>
    refine agree_seq (agree_forced hsite s hw (hargs a List.mem_cons_self)) ?_
    intro b w hw _
    split
    · exact agree_pure hw (fits_boolean _)
    · exact ih hw fun b hb => hargs b (List.mem_cons_of_mem _ hb)

theorem agree_runAdd (hw : w.Obeys p) (hargs : ∀ a ∈ args, a.Obeys p) :
    Attempt.Agree p site p.Fits (runAdd frame args) (runAdd (frame.withScope s) args) w := by
  refine agree_seq (agree_forceAll hsite s hw hargs) ?_
  intro values w hw hvalues
  split
  · exact agree_pure hw (fits_string _)
  · exact agree_sum hsite s hw (fun v hv => (hvalues v hv).1) 0

theorem agree_dividendAndDivisor (hw : w.Obeys p) (hargs : ∀ a ∈ args, a.Obeys p) :
    Attempt.Agree p site (fun _ => True) (dividendAndDivisor frame args)
      (dividendAndDivisor (frame.withScope s) args) w := by
  refine agree_pair (Q := fun _ => True) hsite s (fun _ _ _ _ => trivial) hw hargs ?_
  intro x y w hw _ _
  split
  · exact agree_seq (P := fun _ => True) (agree_fail hw _ s) fun _ w hw _ => agree_pure hw trivial
  · exact agree_pure hw trivial

theorem agree_compare (hw : w.Obeys p) (hargs : ∀ a ∈ args, a.Obeys p) :
    Attempt.Agree p site (fun _ => True) (compare frame args)
      (compare (frame.withScope s) args) w := by
  refine agree_pair hsite s fits_of_read? hw hargs ?_
  intro a b w hw _ _
  split
  · exact agree_pure hw trivial
  · exact agree_pure hw trivial
  all_goals exact agree_fail hw _ s

theorem agree_compares (hw : w.Obeys p) (hargs : ∀ a ∈ args, a.Obeys p)
    (outcomes : List Comparison) :
    Attempt.Agree p site p.Fits (compares outcomes frame args)
      (compares outcomes (frame.withScope s) args) w := by
  refine agree_seq (agree_compare hsite s hw hargs) ?_
  intro outcome w hw _
  exact agree_pure hw (fits_boolean _)

theorem agree_attempt (op : Builtin) (hw : w.Obeys p) (hargs : ∀ a ∈ args, a.Obeys p) :
    Attempt.Agree p site p.Fits (op.attempt frame args)
      (op.attempt (frame.withScope s) args) w := by
  cases op with
  | add => exact agree_runAdd hsite s hw hargs
  | sub =>
    refine agree_pair (Q := fun _ => True) hsite s (fun _ _ _ _ => trivial) hw hargs ?_
    exact fun x y w hw _ _ => agree_pure hw (fits_number _)
  | mul => exact agree_product hsite s hw hargs 1
  | div =>
    refine agree_seq (agree_dividendAndDivisor hsite s hw hargs) ?_
    intro xy w hw _
    exact agree_pure hw (fits_number _)
  | rem =>
    refine agree_seq (agree_dividendAndDivisor hsite s hw hargs) ?_
    intro xy w hw _
    exact agree_pure hw (fits_number _)
  | equal =>
    refine agree_pair hsite s fits_of_read? hw hargs ?_
    exact fun a b w hw _ _ => agree_pure hw (fits_boolean _)
  | less => exact agree_compares hsite s hw hargs _
  | greater => exact agree_compares hsite s hw hargs _
  | lessEqual => exact agree_compares hsite s hw hargs _
  | greaterEqual => exact agree_compares hsite s hw hargs _
  | not =>
    refine agree_seq (agree_argument (P := fun _ => True) hsite s (fun _ _ _ _ => trivial) hw
      hargs 0) ?_
    intro b w hw _
    exact agree_pure hw (fits_boolean _)
  | and => exact agree_search hsite s hw hargs false
  | or => exact agree_search hsite s hw hargs true
  | element =>
    refine agree_pair hsite s fits_of_read? hw hargs ?_
    intro first second w hw hfirst hsecond
    exact agree_settle hw (fun v hv => fits_of_elementAt hfirst.1 hsecond.1 hv) s
  | length =>
    refine agree_seq (agree_value hsite s hw hargs 0) ?_
    intro collection w hw _
    refine agree_seq (agree_settle (P := fun _ => True) hw (fun _ _ => trivial) s) ?_
    intro items w hw _
    exact agree_pure hw (fits_number _)
  | error =>
    refine agree_seq (agree_value hsite s hw hargs 0) ?_
    intro v w hw _
    exact agree_fail hw _ s
  | print =>
    refine agree_seq (agree_forceAll hsite s hw hargs) ?_
    intro values w hw hvalues
    refine agree_seq (P := fun _ => True) ?_ ?_
    · refine Proc.agree_seq (Proc.ensures_modify (World.obeys_of_caches hw rfl)) ?_
      intro _ w hw
      exact Proc.agree_pure (a := Except.ok ()) ⟨hw, trivial⟩
    · intro _ w hw _
      refine agree_pure hw ?_
      cases values with
      | nil => exact p.fits_of_isEvaluated (.array (by simp) (by simp)) rfl
      | cons v rest => exact hvalues _ (List.getLast_mem (by simp))

theorem agree_run (op : Builtin) (hw : w.Obeys p) (hargs : ∀ a ∈ args, a.Obeys p) :
    Proc.Agree (p.contract.under site) p.Yields (op.run frame args)
      (op.run (frame.withScope s) args) w :=
  agree_result (agree_attempt hsite s op hw hargs)

end Force

end ChainScript.Builtin
