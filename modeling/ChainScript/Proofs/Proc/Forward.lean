import ChainScript.Eval.Argument
import ChainScript.Proofs.Proc.Relay
import ChainScript.Proofs.Proc.Same
import ChainScript.Proofs.Value.Below

/-!
Procedures that take their numbers from the world. Everything that tells values apart in them has
been taken before, so that the next number is one that nothing has yet; and no signal fires while
they run.
-/
namespace ChainScript

variable {σ α β : Type} {n n' : Nat}

/-- The callee, the arguments and the scope of the frame have numbers below `n` only. -/
structure Call.NumbersBelow (c : Call) (n : Nat) : Prop where
  callee : c.callee.Below n
  args : ∀ a ∈ c.args, a.Below n
  scope : c.frame.scope.Below n

/-- Numbers are taken from the one world to the other and no signal fires. -/
structure World.Follows (w w' : World σ) : Prop extends w.Steady w' where
  le : w.next ≤ w'.next
  numbered : w'.Numbered

namespace World

variable {w w' w'' : World σ}

theorem follows_refl (h : w.Numbered) : w.Follows w := ⟨steady_refl w, Nat.le_refl _, h⟩

theorem follows_trans (h : w.Follows w') (h' : w'.Follows w'') : w.Follows w'' :=
  ⟨steady_trans h.toSteady h'.toSteady, Nat.le_trans h.le h'.le, h'.numbered⟩

theorem hasFired_of_follows (h : w.Follows w') (signal : Signal) :
    w'.hasFired signal = w.hasFired signal := by
  unfold hasFired isCancelled
  rw [h.cancelled, h.now]

end World

namespace Proc

/--
From the world on, the procedure takes its numbers in order, and calls and remembers nothing that
has a number not yet taken. Its result is good for the numbers taken by then.
-/
def Forward (P : α → Nat → Prop) : Proc σ α → World σ → Prop
  | done a, w => P a w.next
  | call c next, w =>
    c.NumbersBelow w.next ∧ ∀ v w', w.Follows w' → v.Below w'.next → Forward P (next v) w'
  | read next, w => Forward P (next w) w
  | write w' next, w => w.Follows w' ∧ Forward P next w'

/-- The procedure goes forward from every world in which the numbers below `n` are taken. -/
def Keeps (n : Nat) (P : α → Nat → Prop) (p : Proc σ α) : Prop :=
  ∀ w, n ≤ w.next → w.Numbered → Forward P p w

variable {P : α → Nat → Prop} {Q : β → Nat → Prop} {p : Proc σ α} {f : α → Proc σ β} {a : α}
  {w w' : World σ} {frame : Frame} {v : Value} {args : List Value}

theorem forward_bind (hp : Forward P p w) (hw : w.Numbered)
    (hf : ∀ a w', w.Follows w' → P a w'.next → Forward Q (f a) w') :
    Forward Q (p >>= f) w := by
  change Forward Q (p.bind f) w
  induction p generalizing w with
  | done a => exact hf a w (World.follows_refl hw) hp
  | call c next ih =>
    refine ⟨hp.1, fun v w' hfollows hv => ?_⟩
    exact ih v (hp.2 v w' hfollows hv) hfollows.numbered fun a w'' h =>
      hf a w'' (World.follows_trans hfollows h)
  | read next ih => exact ih w hp hw hf
  | write w' next ih =>
    refine ⟨hp.1, ih hp.2 hp.1.numbered fun a w'' h => ?_⟩
    exact hf a w'' (World.follows_trans hp.1 h)

theorem keeps_pure (h : ∀ n', n ≤ n' → P a n') : Keeps n P (pure a : Proc σ α) :=
  fun w hn _ => h w.next hn

theorem keeps_bind (hp : Keeps n P p)
    (hf : ∀ a n', n ≤ n' → P a n' → Keeps n' Q (f a)) : Keeps n Q (p >>= f) := by
  intro w hn hw
  refine forward_bind (hp w hn hw) hw fun a w' hfollows ha => ?_
  exact hf a w'.next (Nat.le_trans hn hfollows.le) ha w' (Nat.le_refl _) hfollows.numbered

theorem keeps_of_below (h : v.Below n) : Keeps n Value.Below (pure v : Proc σ Value) :=
  keeps_pure fun _ hn => below_mono h hn

theorem keeps_invoke (hv : v.Below n) (hargs : ∀ a ∈ args, a.Below n)
    (hs : frame.scope.Below n) : Keeps n Value.Below (invoke v frame args : Proc σ Value) :=
  fun _ hn _ => ⟨⟨below_mono hv hn, fun a ha => below_mono (hargs a ha) hn, below_mono hs hn⟩,
    fun _ _ _ hu => hu⟩

theorem keeps_fresh : Keeps n (fun k n' => k < n') (fresh : Proc σ Nat) := by
  intro w _ hw
  have hle : w.next ≤ w.next + 1 := Nat.le_succ _
  exact ⟨⟨⟨rfl, rfl⟩, hle, World.numbered_of_caches hw rfl hle⟩, Nat.lt_succ_self _⟩

theorem keeps_modify {change : World σ → World σ}
    (h : ∀ w : World σ, n ≤ w.next → w.Numbered → w.Follows (change w)) :
    Keeps n (fun _ _ => True) (modify change : Proc σ Unit) :=
  fun w hn hw => ⟨h w hn hw, trivial⟩

theorem keeps_fail (frame : Frame) (cause : Cause) :
    Keeps n Value.Below (fail frame cause : Proc σ Value) :=
  keeps_bind keeps_fresh fun _ _ _ hk => keeps_of_below (Value.below_error_iff.mpr hk)

/-- A new error in place of a result. -/
theorem keeps_failed {g : Value → α} (h : ∀ e n', n ≤ n' → e.Below n' → P (g e) n')
    (frame : Frame) (cause : Cause) :
    Keeps n P (do return g (← fail frame cause) : Proc σ α) :=
  keeps_bind (keeps_fail frame cause) fun e _ hn he =>
    keeps_pure fun _ hn' => h e _ (Nat.le_trans hn hn') (below_mono he hn')

/-- A check looks at the world where it stands. -/
theorem forward_stop?_bind {k : Option Value → Proc σ α} :
    Forward P (stop? frame >>= k) w ↔
      Forward P ((match w.stop? frame with
        | some cause => do return some (← fail frame cause)
        | none => return none) >>= k) w :=
  Iff.rfl

/-- What is done unless the frame has to stop. -/
theorem keeps_unless_stop {k : Option Value → Proc σ α}
    (hsome : ∀ e n', n ≤ n' → e.Below n' → Keeps n' P (k (some e)))
    (hnone : Keeps n P (k none)) : Keeps n P (stop? frame >>= k) := by
  intro w hn hw
  rw [forward_stop?_bind]
  cases w.stop? frame with
  | none => exact hnone w hn hw
  | some cause =>
    refine forward_bind (keeps_failed (n := n) (g := some)
      (P := fun o n' => ∃ e, o = some e ∧ e.Below n') ?_ frame cause w hn hw) hw ?_
    · exact fun e n' _ he => ⟨e, rfl, he⟩
    · rintro o w' hfollows ⟨e, rfl, he⟩
      exact hsome e w'.next (Nat.le_trans hn hfollows.le) he w' (Nat.le_refl _) hfollows.numbered

theorem keeps_realize {b : Binding} (hb : b.Below n) :
    Keeps n Value.Below (realize b : Proc σ Value) := by
  cases b with
  | value v => exact keeps_of_below (Binding.below_value_iff.mp hb)
  | function l scope =>
    refine keeps_bind keeps_fresh fun id n' hn hid => keeps_of_below ?_
    exact Value.below_closure_iff.mpr ⟨hid, below_mono (Binding.below_function_iff.mp hb) hn⟩

theorem keeps_realized {b : Binding} (hb : b.Below n) (hargs : ∀ a ∈ args, a.Below n)
    (hs : frame.scope.Below n) :
    Keeps n Value.Below (do invoke (← realize b) frame args : Proc σ Value) :=
  keeps_bind (keeps_realize hb) fun _ _ hn hv =>
    keeps_invoke hv (fun a ha => below_mono (hargs a ha) hn) (below_mono hs hn)

theorem keeps_applyRest (hv : v.Below n) (hargs : ∀ a ∈ args, a.Below n)
    (hs : frame.scope.Below n) : Keeps n Value.Below (applyRest v frame args : Proc σ Value) := by
  unfold applyRest
  split
  · exact keeps_of_below hv
  · exact keeps_invoke hv hargs hs

theorem keeps_curry (hv : v.Below n) (hargs : ∀ a ∈ args, a.Below n) (arity : Nat)
    (order : Order) : Keeps n Value.Below (curry v args arity order : Proc σ Value) := by
  unfold curry
  split
  · exact keeps_of_below hv
  · refine keeps_bind keeps_fresh fun id n' hn hid => keeps_of_below ?_
    exact Value.below_curried_iff.mpr
      ⟨hid, below_mono hv hn, fun a ha => below_mono (hargs a ha) hn⟩

/-- A run goes forward if its calls do. -/
theorem follows_of_exec {answer : Call → World σ → Option (Value × World σ)}
    (hcalls : ∀ c w v w', c.NumbersBelow w.next → w.Numbered → answer c w = some (v, w') →
      w.Follows w' ∧ v.Below w'.next)
    (h : Forward P p w) (hw : w.Numbered) (hr : p.exec answer w = some (a, w')) :
    w.Follows w' ∧ P a w'.next := by
  induction p generalizing w with
  | done b =>
    obtain ⟨rfl, rfl⟩ : b = a ∧ w = w' := by simpa [exec] using hr
    exact ⟨World.follows_refl hw, h⟩
  | call c next ih =>
    rw [exec] at hr
    cases hc : answer c w with
    | none => simp [hc] at hr
    | some r =>
      obtain ⟨v, w₁⟩ := r
      rw [hc] at hr
      obtain ⟨hfollows, hv⟩ := hcalls c w v w₁ h.1 hw hc
      obtain ⟨hrest, ha⟩ := ih v (h.2 v w₁ hfollows hv) hfollows.numbered hr
      exact ⟨World.follows_trans hfollows hrest, ha⟩
  | read next ih => exact ih w h hw hr
  | write w₁ next ih =>
    obtain ⟨hrest, ha⟩ := ih h.2 h.1.numbered hr
    exact ⟨World.follows_trans h.1 hrest, ha⟩

/-- Whatever a run comes to on the way goes forward as well. -/
theorem forward_of_comes {host : Host σ} {q : Proc σ α}
    (hcalls : ∀ (c : Call) (w : World σ) v w', c.NumbersBelow w.next → w.Numbered →
      c.Answers host w v w' → w.Follows w' ∧ v.Below w'.next)
    (h : Forward P p w) (hw : w.Numbered) (hcomes : Comes host p w q w') :
    w.Follows w' ∧ Forward P q w' := by
  induction hcomes with
  | refl => exact ⟨World.follows_refl hw, h⟩
  | call hc _ ih =>
    obtain ⟨hfollows, hv⟩ := hcalls _ _ _ _ h.1 hw hc
    obtain ⟨hrest, hq⟩ := ih (h.2 _ _ hfollows hv) hfollows.numbered
    exact ⟨World.follows_trans hfollows hrest, hq⟩
  | read _ ih => exact ih h hw
  | write _ ih =>
    obtain ⟨hrest, hq⟩ := ih h.2 h.1.numbered
    exact ⟨World.follows_trans h.1 hrest, hq⟩

end Proc

namespace Attempt

open Proc

variable {P : α → Nat → Prop} {Q : β → Nat → Prop} {x : Attempt σ α}
  {f : α → Attempt σ β} {a : α} {frame : Frame} {v : Value} {args : List Value}

/-- An error with numbers already taken, or a good result. -/
def GoodOutcome (P : α → Nat → Prop) : Except Value α → Nat → Prop
  | .error e, n => e.Below n
  | .ok a, n => P a n

def Keeps (n : Nat) (P : α → Nat → Prop) (x : Attempt σ α) : Prop :=
  Proc.Keeps n (GoodOutcome P) x.run

theorem keeps_pure (h : ∀ n', n ≤ n' → P a n') : Keeps n P (pure a : Attempt σ α) :=
  Proc.keeps_pure (a := Except.ok a) h

theorem keeps_bind (hx : Keeps n P x)
    (hf : ∀ a n', n ≤ n' → P a n' → Keeps n' Q (f a)) : Keeps n Q (x >>= f) := by
  change Proc.Keeps n _ (x.run >>= ExceptT.bindCont f)
  refine Proc.keeps_bind hx ?_
  rintro (e | a) n' hn h
  · exact Proc.keeps_pure (a := Except.error e) fun _ hn' => below_mono h hn'
  · exact hf a n' hn h

theorem keeps_lift {p : Proc σ α} (hp : Proc.Keeps n P p)
    (hmono : ∀ a n n', P a n → n ≤ n' → P a n') : Keeps n P (ExceptT.lift p) :=
  Proc.keeps_bind hp fun a n' _ ha => keeps_pure fun n'' hn' => hmono a n' n'' ha hn'

theorem keeps_fail (frame : Frame) (cause : Cause) :
    Keeps n P (fail frame cause : Attempt σ α) :=
  keeps_failed (g := Except.error) (fun _ _ _ he => he) frame cause

theorem keeps_force (hv : v.Below n) (hs : frame.scope.Below n) :
    Keeps n Value.Below (force frame v : Attempt σ Value) := by
  refine Proc.keeps_bind (keeps_invoke hv (List.forall_mem_nil _) hs) fun u n' hn hu => ?_
  split
  · exact Proc.keeps_pure (a := Except.error u) fun _ hn' => below_mono hu hn'
  · exact Proc.keeps_pure (a := Except.ok u) fun _ hn' => below_mono hu hn'

theorem keeps_forceAll (hargs : ∀ a ∈ args, a.Below n) (hs : frame.scope.Below n) :
    Keeps n (fun vs n' => ∀ v ∈ vs, v.Below n') (forceAll frame args : Attempt σ (List Value)) := by
  induction args generalizing n with
  | nil => exact keeps_pure fun _ _ => List.forall_mem_nil _
  | cons v rest ih =>
    obtain ⟨hv, hrest⟩ := List.forall_mem_cons.mp hargs
    refine keeps_bind (keeps_force hv hs) fun u n₁ hn₁ hu => ?_
    have hlater := ih (fun a ha => below_mono (hrest a ha) hn₁) (below_mono hs hn₁)
    refine keeps_bind hlater fun us n₂ hn₂ hus => keeps_pure fun n₃ hn₃ => ?_
    exact List.forall_mem_cons.mpr
      ⟨below_mono hu (Nat.le_trans hn₂ hn₃), fun w hw => below_mono (hus w hw) hn₃⟩

section Reader

-- What the reader makes of a value is good for the numbers that are taken.
variable {reader : Reader α}
  (hread : ∀ u a n n', u.Below n → reader.read? u = some a → n ≤ n' → P a n')

include hread

theorem keeps_forceAs (hv : v.Below n) (hs : frame.scope.Below n) :
    Keeps n P (forceAs reader frame v : Attempt σ α) := by
  refine keeps_bind (keeps_force hv hs) fun u n' hn hu => ?_
  split
  next a ha => exact keeps_pure fun n'' hn' => hread u a n' n'' hu ha hn'
  · exact keeps_fail frame _

theorem keeps_argument (hargs : ∀ a ∈ args, a.Below n) (hs : frame.scope.Below n) (index : Nat) :
    Keeps n P (argument reader frame args index : Attempt σ α) := by
  unfold argument
  split
  next v hv => exact keeps_forceAs hread (hargs v (List.mem_of_getElem? hv)) hs
  · exact keeps_fail frame _

end Reader

theorem keeps_result {x : Attempt σ Value} (hx : Keeps n Value.Below x) :
    Proc.Keeps n Value.Below x.result := by
  refine Proc.keeps_bind hx ?_
  rintro (e | v) n' _ h
  · exact keeps_of_below h
  · exact keeps_of_below h

end Attempt

end ChainScript
