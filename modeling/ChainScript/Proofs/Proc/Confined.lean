import ChainScript.Proofs.Proc.Relay

/-!
Confined procedures: up to its scope, a procedure has one frame, in which it makes all its calls
and in which its own errors arise. It hands nothing but traced values to its calls and to the
caches, and what follows a call or a new error relays the error.
-/
namespace ChainScript

variable {σ α β : Type} {given : Errors} {whole : Option Code}

/-- The frames differ in nothing but their scopes. -/
def Frame.Alike (f g : Frame) : Prop := g = f.withScope g.scope

theorem Frame.alike_refl (f : Frame) : f.Alike f := rfl

theorem Frame.alike_of_withScope {f g : Frame} {s : Scope} (h : (f.withScope s).Alike g) :
    f.Alike g := h

structure Call.Traced (given : Errors) (c : Call) : Prop where
  callee : c.callee.Traced given
  args : ∀ a ∈ c.args, a.Traced given
  scope : c.frame.scope.Traced given

namespace Proc

/--
From the world on, the procedure is confined to the frame, as long as its errors are among those
given, and its results are fine. What relays errors only up to a recovering segment is the rest of a
chain in the code.
-/
inductive ConfinedAt (given : Errors) (whole : Option Code) (f : Frame) (R : Results α) :
    Proc σ α → World σ → Prop
  | done {a : α} {w : World σ} (h : R.fine a) : ConfinedAt given whole f R (done a) w
  | call {c : Call} {next : Value → Proc σ α} {w : World σ} (hframe : f.Alike c.frame)
      (hc : c.Traced given) (hnext : Relays whole Eq R.stands next w)
      (h : ∀ v w', v.Traced given → w.Continues given w' → ConfinedAt given whole f R (next v) w') :
      ConfinedAt given whole f R (call c next) w
  | read {next : World σ → Proc σ α} {w : World σ} (h : ConfinedAt given whole f R (next w) w) :
      ConfinedAt given whole f R (read next) w
  | write {next : Proc σ α} {w w' : World σ} (hw : w.Continues given w')
      (h : ConfinedAt given whole f R next w') : ConfinedAt given whole f R (write w' next) w
  | fail {g : Frame} {cause : Cause} {k : Value → Proc σ α} {w : World σ} (hframe : f.Alike g)
      (hk : Relays whole Eq R.stands k w)
      (h : given w.next ⟨cause, g.path⟩ →
        ConfinedAt given whole f R (k (.error w.next ⟨cause, g.path⟩))
          { w with next := w.next + 1 }) :
      ConfinedAt given whole f R (fail g cause >>= k) w

def Confined (given : Errors) (whole : Option Code) (f : Frame) (R : Results α)
    (p : Proc σ α) : Prop :=
  ∀ w, w.Traced given → ConfinedAt given whole f R p w

variable {f : Frame} {p : Proc σ α} {k : α → Proc σ β} {R : Results α} {S : Results β}
  {w : World σ} {v : Value} {args : List Value}

theorem confinedAt_bind (hp : ConfinedAt given whole f R p w) (hw : w.Traced given)
    (hrelay : Relays whole R.stands S.stands k w)
    (hk : ∀ a w', R.fine a → w.Continues given w' → ConfinedAt given whole f S (k a) w') :
    ConfinedAt given whole f S (p >>= k) w := by
  induction hp with
  | done h => exact hk _ _ h (World.continues_refl hw)
  | call hframe hc hnext _ ih =>
    refine .call hframe hc (relays_bind hnext hrelay) fun v w' hv hw' => ?_
    exact ih v w' hv hw' hw'.traced (relays_later hrelay hw'.toSteady) fun a w'' ha hw'' =>
      hk a w'' ha (World.continues_trans hw' hw'')
  | read _ ih => exact .read (ih hw hrelay hk)
  | write hw' _ ih =>
    refine .write hw' (ih hw'.traced (relays_later hrelay hw'.toSteady) fun a w'' ha hw'' => ?_)
    exact hk a w'' ha (World.continues_trans hw' hw'')
  | @fail _ _ _ w hframe hnext _ ih =>
    have hw' := World.continues_next hw (w.next + 1)
    rw [bind_bind]
    refine .fail hframe (relays_bind hnext hrelay) fun h => ?_
    exact ih h hw'.traced (relays_later hrelay hw'.toSteady) fun a w'' ha hw'' =>
      hk a w'' ha (World.continues_trans hw' hw'')

theorem confined_pure {a : α} (h : R.fine a) : Confined given whole f R (pure a : Proc σ α) :=
  fun _ _ => .done h

theorem confined_bind (hp : Confined given whole f R p)
    (hk : ∀ a, R.fine a → Confined given whole f S (k a))
    (hrelay : ∀ w, Relays whole R.stands S.stands k w) : Confined given whole f S (p >>= k) := by
  intro w hw
  exact confinedAt_bind (hp w hw) hw (hrelay w) fun a w' ha hw' => hk a ha w' hw'.traced

/-- What follows a part whose result stands for no error. -/
theorem confined_then {post : α → Prop} (hp : Confined given whole f (.plain post) p)
    (hk : ∀ a, post a → Confined given whole f S (k a)) : Confined given whole f S (p >>= k) :=
  confined_bind hp hk fun _ => relays_of_eq fun _ _ _ h => h.elim

/-- What follows a value and returns it if it is an error. -/
theorem confined_strict {p : Proc σ Value} {k : Value → Proc σ Value}
    (hp : Confined given whole f (.value given) p)
    (hk : ∀ v, v.Traced given → Confined given whole f (.value given) (k v))
    (herror : ∀ e, e.isError = true → k e = pure e) :
    Confined given whole f (.value given) (p >>= k) := by
  refine confined_bind hp hk fun w => relays_of_eq ?_
  rintro _ e he rfl
  exact ⟨e, rfl, herror e he⟩

theorem confined_of_withScope {s : Scope} (hp : Confined given whole (f.withScope s) R p) :
    Confined given whole f R p := by
  intro w hw
  have hat := hp w hw
  clear hp hw
  induction hat with
  | done h => exact .done h
  | call hframe hc hnext _ ih => exact .call (Frame.alike_of_withScope hframe) hc hnext ih
  | read _ ih => exact .read ih
  | write hw _ ih => exact .write hw ih
  | fail hframe hk _ ih => exact .fail (Frame.alike_of_withScope hframe) hk ih

theorem confined_invoke (hv : v.Traced given) (hargs : ∀ a ∈ args, a.Traced given)
    (hs : f.scope.Traced given) :
    Confined given whole f (.value given) (invoke v f args : Proc σ Value) :=
  fun _ _ => .call f.alike_refl ⟨hv, hargs, hs⟩ relays_pure fun _ _ hv _ => .done hv

theorem confined_fresh : Confined given whole f (.plain fun _ => True) (fresh : Proc σ Nat) :=
  fun _ hw => .read (.write (World.continues_next hw _) (.done trivial))

theorem confined_modify {change : World σ → World σ}
    (h : ∀ w : World σ, w.Traced given → w.Continues given (change w)) :
    Confined given whole f (.plain fun _ => True) (modify change) :=
  fun w hw => .read (.write (h w hw) (.done trivial))

theorem confined_fail (cause : Cause) :
    Confined given whole f (.value given) (fail f cause : Proc σ Value) := by
  intro w _
  rw [← bind_done (fail f cause)]
  exact .fail f.alike_refl relays_pure fun h => .done (Value.traced_error h)

/-- A new error as the outcome of an attempt. -/
theorem confined_failed {post : α → Prop} (cause : Cause) :
    Confined given whole f (.attempt given post)
      (do return .error (← fail f cause) : Proc σ (Except Value α)) := by
  refine confined_bind (confined_fail cause) (fun _ h => confined_pure h) fun w => ?_
  refine relays_of_eq ?_
  rintro _ e - rfl
  exact ⟨.error e, rfl, rfl⟩

/-- A procedure that the frame may have to stop before it begins, with a result for the error. -/
theorem confined_unless_stop {next : Option Value → Proc σ α} (out : Value → α)
    (hgo : ∀ w, w.Traced given → w.stop? f = none → ConfinedAt given whole f R (next none) w)
    (hout : ∀ e, next (some e) = pure (out e)) (hfine : ∀ e, e.Traced given → R.fine (out e))
    (hstands : ∀ e, R.stands e (out e)) : Confined given whole f R (stop? f >>= next) := by
  intro w hw
  refine .read ?_
  cases hstop : w.stop? f with
  | none =>
    simp only [hstop]
    exact hgo w hw hstop
  | some cause =>
    simp only [hstop]
    change ConfinedAt given whole f R ((fail f cause >>= fun e => pure (some e)) >>= next) w
    rw [bind_bind]
    refine confined_bind (confined_fail cause) (fun e he => ?_) (fun w => relays_of_eq ?_) w hw
    · change Confined given whole f R (next (some e))
      rw [hout e]
      exact confined_pure (hfine e he)
    · rintro _ e - rfl
      exact ⟨out e, hstands e, hout e⟩

theorem confined_realize {b : Binding} (hb : b.Traced given) :
    Confined given whole f (.plain (Value.Traced given)) (realize b : Proc σ Value) := by
  cases b with
  | value v => exact confined_pure hb
  | function l scope =>
    exact confined_then confined_fresh fun id _ => confined_pure (Value.traced_closure hb id l)

theorem confined_realized {b : Binding} (hb : b.Traced given)
    (hargs : ∀ a ∈ args, a.Traced given) (hs : f.scope.Traced given) :
    Confined given whole f (.value given) (do invoke (← realize b) f args : Proc σ Value) :=
  confined_then (confined_realize hb) fun _ hv => confined_invoke hv hargs hs

theorem confined_applyRest (hv : v.Traced given) (hargs : ∀ a ∈ args, a.Traced given)
    (hs : f.scope.Traced given) :
    Confined given whole f (.value given) (applyRest v f args : Proc σ Value) := by
  unfold applyRest
  split
  · exact confined_pure hv
  · exact confined_invoke hv hargs hs

theorem confined_curry (hv : v.Traced given) (hargs : ∀ a ∈ args, a.Traced given) (arity : Nat)
    (order : Order) :
    Confined given whole f (.value given) (curry v args arity order : Proc σ Value) := by
  unfold curry
  split
  · exact confined_pure hv
  · exact confined_then confined_fresh fun id _ =>
      confined_pure (Value.traced_curried hv hargs id arity order)

end Proc

namespace Attempt

variable {f : Frame} {a : Attempt σ α} {k : α → Attempt σ β} {post : α → Prop} {goal : β → Prop}
  {v : Value} {args : List Value} {reader : Reader α}

def Confined (given : Errors) (whole : Option Code) (f : Frame) (post : α → Prop)
    (a : Attempt σ α) : Prop :=
  Proc.Confined given whole f (.attempt given post) a.run

theorem confined_pure {x : α} (h : post x) : Confined given whole f post (pure x : Attempt σ α) :=
  Proc.confined_pure h

theorem confined_bind (ha : Confined given whole f post a)
    (hk : ∀ x, post x → Confined given whole f goal (k x)) :
    Confined given whole f goal (a >>= k) := by
  refine Proc.confined_bind ha ?_ fun w => Proc.relays_of_eq ?_
  · rintro (e | x) h
    · exact Proc.confined_pure h
    · exact hk x h
  · rintro _ e - rfl
    exact ⟨.error e, rfl, rfl⟩

theorem confined_then (ha : Confined given whole f (fun _ => True) a)
    (hk : ∀ x, Confined given whole f goal (k x)) : Confined given whole f goal (a >>= k) :=
  confined_bind ha fun x _ => hk x

theorem confined_lift {p : Proc σ α} (hp : Proc.Confined given whole f (.plain post) p) :
    Confined given whole f post (ExceptT.lift p : Attempt σ α) :=
  Proc.confined_then hp fun _ h => Proc.confined_pure h

theorem confined_fail (cause : Cause) : Confined given whole f post (fail f cause : Attempt σ α) :=
  Proc.confined_failed cause

theorem confined_result {a : Attempt σ Value} (ha : Confined given whole f (Value.Traced given) a) :
    Proc.Confined given whole f (.value given) a.result := by
  refine Proc.confined_bind ha ?_ fun w => Proc.relays_of_eq ?_
  · rintro (e | v) h <;> exact Proc.confined_pure h
  · rintro _ e - rfl
    exact ⟨e, rfl, rfl⟩

variable (hs : f.scope.Traced given)

include hs

theorem confined_force (hv : v.Traced given) :
    Confined given whole f (Value.Traced given) (force f v : Attempt σ Value) := by
  refine Proc.confined_bind (Proc.confined_invoke hv (List.forall_mem_nil _) hs) ?_
    fun w => Proc.relays_of_eq ?_
  · intro u hu
    refine Proc.confined_pure ?_
    cases u.isError <;> exact hu
  · rintro _ e he rfl
    exact ⟨.error e, rfl, by rw [if_pos he]⟩

theorem confined_forceAs (hread : ∀ u x, u.Traced given → reader.read? u = some x → post x)
    (hv : v.Traced given) : Confined given whole f post (forceAs reader f v : Attempt σ α) := by
  refine confined_bind (confined_force hs hv) fun u hu => ?_
  cases hx : reader.read? u with
  | none => exact confined_fail _
  | some x => exact confined_pure (hread u x hu hx)

variable (hargs : ∀ a ∈ args, a.Traced given)

include hargs

theorem confined_forceAll :
    Confined given whole f (fun vs => ∀ v ∈ vs, v.Traced given)
      (forceAll f args : Attempt σ _) := by
  induction args with
  | nil => exact confined_pure (List.forall_mem_nil _)
  | cons v rest ih =>
    rw [List.forall_mem_cons] at hargs
    refine confined_bind (confined_force hs hargs.1) fun u hu => ?_
    refine confined_bind (ih hargs.2) fun us hus => confined_pure ?_
    exact List.forall_mem_cons.mpr ⟨hu, hus⟩

theorem confined_argument (hread : ∀ u x, u.Traced given → reader.read? u = some x → post x)
    (index : Nat) : Confined given whole f post (argument reader f args index : Attempt σ α) := by
  unfold argument
  cases hv : args[index]? with
  | none => exact confined_fail _
  | some v => exact confined_forceAs hs hread (hargs v (List.mem_of_getElem? hv))

end Attempt

namespace Builtin

open Attempt

variable {f : Frame} {args : List Value}

theorem traced_elements {v : Value} {items : List Value} (hv : v.Traced given)
    (h : elements v = .ok items) : ∀ u ∈ items, u.Traced given := by
  unfold elements at h
  split at h
  · cases h
    exact fun u hu x hx => hv x (.item hu hx)
  · cases h
    intro u hu
    obtain ⟨c, -, rfl⟩ := List.mem_map.mp hu
    exact Value.traced_string _
  · cases h

theorem traced_indexAndCollection {first second v : Value} {x : Float}
    (hfirst : first.Traced given) (hsecond : second.Traced given)
    (h : indexAndCollection first second = .ok (x, v)) : v.Traced given := by
  unfold indexAndCollection at h
  split at h <;> cases h
  · exact hfirst
  · exact hsecond

/-- An element of a collection is inside of it. -/
theorem traced_elementAt {first second v : Value} (hfirst : first.Traced given)
    (hsecond : second.Traced given) (h : elementAt first second = .ok v) : v.Traced given := by
  cases hboth : indexAndCollection first second with
  | error cause =>
    rw [elementAt, hboth] at h
    cases h
  | ok both =>
    have hcollection := traced_indexAndCollection hfirst hsecond hboth
    simp only [elementAt, hboth, bind, Except.bind] at h
    split at h
    next index _ =>
      split at h
      next => cases h
      next items hitems =>
        split at h
        next item hitem =>
          cases h
          exact traced_elements hcollection hitems _ (List.mem_of_getElem? hitem)
        next => cases h
    next => cases h

variable (hs : f.scope.Traced given)

theorem confined_settle {r : Except Cause α} {post : α → Prop} (h : ∀ a, r = .ok a → post a) :
    Confined given whole f post (settle f r : Attempt σ α) := by
  cases r with
  | ok a => exact confined_pure (h a rfl)
  | error cause => exact confined_fail cause

variable (hargs : ∀ a ∈ args, a.Traced given)

include hs hargs

theorem confined_sum (total : Float) :
    Confined given whole f (Value.Traced given) (sum f total args : Attempt σ Value) := by
  induction args generalizing total with
  | nil => exact confined_pure (Value.traced_number _)
  | cons v rest ih =>
    rw [List.forall_mem_cons] at hargs
    exact confined_then (confined_forceAs hs (fun _ _ _ _ => trivial) hargs.1) fun _ =>
      ih hargs.2 _

theorem confined_product (total : Float) :
    Confined given whole f (Value.Traced given) (product f total args : Attempt σ Value) := by
  induction args generalizing total with
  | nil => exact confined_pure (Value.traced_number _)
  | cons v rest ih =>
    rw [List.forall_mem_cons] at hargs
    exact confined_then (confined_forceAs hs (fun _ _ _ _ => trivial) hargs.1) fun _ =>
      ih hargs.2 _

theorem confined_runAdd :
    Confined given whole f (Value.Traced given) (runAdd f args : Attempt σ Value) := by
  refine confined_bind (confined_forceAll hs hargs) fun values hvalues => ?_
  split
  · exact confined_pure (Value.traced_string _)
  · exact confined_sum hs hvalues 0

theorem confined_search (stopper : Bool) :
    Confined given whole f (Value.Traced given) (search stopper f args : Attempt σ Value) := by
  induction args with
  | nil => exact confined_pure (Value.traced_boolean _)
  | cons v rest ih =>
    rw [List.forall_mem_cons] at hargs
    refine confined_then (confined_forceAs hs (fun _ _ _ _ => trivial) hargs.1) fun b => ?_
    split
    · exact confined_pure (Value.traced_boolean _)
    · exact ih hargs.2

/-- What is done with two arguments. -/
theorem confined_pair {reader : Reader α} {k : α → α → Attempt σ β} {post : α → Prop}
    {goal : β → Prop} (hread : ∀ u x, u.Traced given → reader.read? u = some x → post x)
    (h : ∀ a b, post a → post b → Confined given whole f goal (k a b)) :
    Confined given whole f goal (do
      let a ← argument reader f args 0
      let b ← argument reader f args 1
      k a b) :=
  confined_bind (confined_argument hs hargs hread 0) fun a ha =>
    confined_bind (confined_argument hs hargs hread 1) fun b hb => h a b ha hb

theorem confined_value (index : Nat) :
    Confined given whole f (Value.Traced given) (argument .value f args index : Attempt σ Value) :=
  confined_argument hs hargs (fun _ _ hu hx => Option.some.inj hx ▸ hu) index

theorem confined_values {k : Value → Value → Attempt σ β} {goal : β → Prop}
    (h : ∀ a b, a.Traced given → b.Traced given → Confined given whole f goal (k a b)) :
    Confined given whole f goal (do
      let a ← argument .value f args 0
      let b ← argument .value f args 1
      k a b) :=
  confined_pair hs hargs (fun _ _ hu hx => Option.some.inj hx ▸ hu) h

theorem confined_dividendAndDivisor :
    Confined given whole f (fun _ => True) (dividendAndDivisor f args : Attempt σ _) := by
  refine confined_pair hs hargs (fun _ _ _ _ => trivial) fun x y _ _ => ?_
  split
  · exact confined_then (confined_fail _) fun _ => confined_pure trivial
  · exact confined_pure trivial

theorem confined_compares (outcomes : List Comparison) :
    Confined given whole f (Value.Traced given) (compares outcomes f args : Attempt σ Value) := by
  refine confined_then (confined_values hs hargs fun a b _ _ => ?_) fun _ =>
    confined_pure (Value.traced_boolean _)
  split
  · exact confined_pure trivial
  · exact confined_pure trivial
  all_goals exact confined_fail _

theorem confined_attempt (op : Builtin) :
    Confined given whole f (Value.Traced given) (attempt op f args : Attempt σ Value) := by
  cases op with
  | add => exact confined_runAdd hs hargs
  | sub =>
    exact confined_pair hs hargs (fun _ _ _ _ => trivial) fun _ _ _ _ =>
      confined_pure (Value.traced_number _)
  | mul => exact confined_product hs hargs 1
  | div =>
    exact confined_then (confined_dividendAndDivisor hs hargs) fun _ =>
      confined_pure (Value.traced_number _)
  | rem =>
    exact confined_then (confined_dividendAndDivisor hs hargs) fun _ =>
      confined_pure (Value.traced_number _)
  | equal => exact confined_values hs hargs fun _ _ _ _ => confined_pure (Value.traced_boolean _)
  | less => exact confined_compares hs hargs _
  | greater => exact confined_compares hs hargs _
  | lessEqual => exact confined_compares hs hargs _
  | greaterEqual => exact confined_compares hs hargs _
  | not =>
    exact confined_then (confined_argument hs hargs (fun _ _ _ _ => trivial) 0) fun _ =>
      confined_pure (Value.traced_boolean _)
  | and => exact confined_search hs hargs false
  | or => exact confined_search hs hargs true
  | element =>
    exact confined_values hs hargs fun _ _ hfirst hsecond =>
      confined_settle fun _ h => traced_elementAt hfirst hsecond h
  | length =>
    refine confined_bind (confined_value hs hargs 0) fun v _ => ?_
    exact confined_then (confined_settle fun _ _ => trivial) fun _ =>
      confined_pure (Value.traced_number _)
  | error => exact confined_bind (confined_value hs hargs 0) fun _ _ => confined_fail _
  | print =>
    refine confined_bind (confined_forceAll hs hargs) fun values hvalues => ?_
    refine confined_then (confined_lift (Proc.confined_modify ?_)) fun _ => confined_pure ?_
    · exact fun w hw => ⟨⟨rfl, rfl⟩, World.traced_of_caches hw rfl⟩
    · rw [List.getLastD_eq_getLast?]
      cases hlast : values.getLast? with
      | none => exact Value.traced_array (List.forall_mem_nil _)
      | some v => exact hvalues v (List.mem_of_getLast? hlast)

end Builtin

end ChainScript
