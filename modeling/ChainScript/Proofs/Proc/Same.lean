import ChainScript.Proofs.Eval.Entry

/-!
Procedures that do the same. They may differ in how often they look at the world, as evaluations do
that differ only in how often they check whether they have to stop; all that comes of a procedure is
the same for both.
-/
namespace ChainScript

variable {σ α β : Type} {host : Host σ} {signal : Signal} {frame : Frame} {w w' w₁ : World σ}

/-- A frame that is not too deep may go on where its signal has not fired. -/
theorem World.stop?_eq_none (hdepth : frame.depth ≤ frame.maxDepth)
    (hfired : w.hasFired frame.signal = false) : w.stop? frame = none := by
  have hcalm : w.isCancelled frame.signal = false ∧
      frame.signal.deadline.any (· ≤ w.now) = false := by
    simpa [hasFired] using hfired
  have hdeep : ¬ frame.maxDepth < frame.depth := by omega
  simp [stop?, hdeep, hcalm]

theorem World.depth_le_of_stop? (h : w.stop? frame = none) : frame.depth ≤ frame.maxDepth := by
  unfold stop? at h
  split at h
  · cases h
  next hdeep => exact Nat.le_of_not_lt hdeep

namespace Proc

variable {p q r : Proc σ α} {f g : α → Proc σ β} {a : α} {c : Call}

/--
From the world `w` on, the two procedures make the same calls, change the world in the same way and
end with the same result.
-/
inductive Same (host : Host σ) : Proc σ α → Proc σ α → World σ → Prop
  | done {a : α} {w : World σ} : Same host (done a) (done a) w
  | call {c : Call} {next next' : Value → Proc σ α} {w : World σ}
      (h : ∀ v w', c.Answers host w v w' → Same host (next v) (next' v) w') :
      Same host (call c next) (call c next') w
  | left {next : World σ → Proc σ α} {q : Proc σ α} {w : World σ} (h : Same host (next w) q w) :
      Same host (read next) q w
  | right {p : Proc σ α} {next : World σ → Proc σ α} {w : World σ} (h : Same host p (next w) w) :
      Same host p (read next) w
  | write {p q : Proc σ α} {w w' : World σ} (h : Same host p q w') :
      Same host (write w' p) (write w' q) w

theorem same_refl (p : Proc σ α) (w : World σ) : Same host p p w := by
  induction p generalizing w with
  | done a => exact .done
  | call c next ih => exact .call fun v w' _ => ih v w'
  | read next ih => exact .left (.right (ih w w))
  | write w' next ih => exact .write (ih w')

theorem same_symm (h : Same host p q w) : Same host q p w := by
  induction h with
  | done => exact .done
  | call _ ih => exact .call ih
  | left _ ih => exact .right ih
  | right _ ih => exact .left ih
  | write _ ih => exact .write ih

theorem same_of_read {next : World σ → Proc σ α} (h : Same host (read next) q w) :
    Same host (next w) q w := by
  generalize hp : read next = p at h
  induction h with
  | left h =>
    cases hp
    exact h
  | right _ ih => exact .right (ih hp)
  | _ => cases hp

theorem same_trans (h : Same host p q w) (h' : Same host q r w) : Same host p r w := by
  induction h generalizing r with
  | done => exact h'
  | @call c next next' w h ih =>
    generalize hq : call c next' = q at h'
    induction h' with
    | call h' =>
      cases hq
      exact .call fun v w' hc => ih v w' hc (h' v w' hc)
    | right _ ih' => exact .right (ih' h ih hq)
    | _ => cases hq
  | left _ ih => exact .left (ih h')
  | right _ ih => exact ih (same_of_read h')
  | @write p q w w' h ih =>
    generalize hq : write w' q = q' at h'
    induction h' with
    | write h' =>
      cases hq
      exact .write (ih h')
    | right _ ih' => exact .right (ih' hq)
    | _ => cases hq

/-- What follows need only do the same where the first parts end. -/
theorem same_bind (h : Same host p q w)
    (hf : ∀ a w', Runs host p w a w' → Same host (f a) (g a) w') :
    Same host (p >>= f) (q >>= g) w := by
  change Same host (p.bind f) (q.bind g) w
  induction h with
  | done => exact hf _ _ runs_done
  | call _ ih => exact .call fun v w' hc => ih v w' hc fun a w₁ hn => hf a w₁ (runs_call hc hn)
  | left _ ih => exact .left (ih hf)
  | right _ ih => exact .right (ih hf)
  | write _ ih => exact .write (ih hf)

/-- The same first part in front of two procedures. -/
theorem same_bind_right (p : Proc σ α)
    (hf : ∀ a w', Runs host p w a w' → Same host (f a) (g a) w') :
    Same host (p >>= f) (p >>= g) w :=
  same_bind (same_refl p w) hf

theorem runs_of_same (h : Same host p q w) (hp : Runs host p w a w') : Runs host q w a w' := by
  induction h with
  | done => exact hp
  | call _ ih =>
    obtain ⟨v, w₁, hc, hn⟩ := runs_call_inv hp
    exact runs_call hc (ih v w₁ hc hn)
  | left _ ih => exact ih hp
  | right _ ih => exact ih hp
  | write _ ih => exact ih hp

theorem runs_iff_of_same (h : Same host p q w) : Runs host p w a w' ↔ Runs host q w a w' :=
  ⟨runs_of_same h, runs_of_same (same_symm h)⟩

/-- Procedures that do the same make the same calls, in the same worlds. -/
theorem makes_of_same (h : Same host p q w) (hp : Makes host p w c w') : Makes host q w c w' := by
  induction h with
  | done => exact hp
  | call _ ih =>
    obtain ⟨rest, hcomes⟩ := hp
    cases hcomes with
    | refl => exact ⟨_, .refl⟩
    | call hc hn =>
      obtain ⟨rest', hrest'⟩ := ih _ _ hc ⟨rest, hn⟩
      exact ⟨rest', .call hc hrest'⟩
  | left _ ih =>
    obtain ⟨rest, hcomes⟩ := hp
    cases hcomes with
    | read hn => exact ih ⟨rest, hn⟩
  | right _ ih =>
    obtain ⟨rest, hrest⟩ := ih hp
    exact ⟨rest, .read hrest⟩
  | write _ ih =>
    obtain ⟨rest, hcomes⟩ := hp
    cases hcomes with
    | write hn =>
      obtain ⟨rest', hrest'⟩ := ih ⟨rest, hn⟩
      exact ⟨rest', .write hrest'⟩

/-- A check that lets the procedure go on may be left out. -/
theorem same_of_stop? {k : Option Value → Proc σ α} (hstop : w.stop? frame = none)
    (h : Same host (k none) q w) : Same host (stop? frame >>= k) q w := by
  refine .left ?_
  simp only [hstop]
  exact h

/-- Both procedures are stopped by the same check, or neither is. -/
theorem same_behind_stop? {k l : Option Value → Proc σ α}
    (hsome : ∀ e, k (some e) = l (some e))
    (hnone : w.stop? frame = none → Same host (k none) (l none) w) :
    Same host (stop? frame >>= k) (stop? frame >>= l) w := by
  cases hstop : w.stop? frame with
  | none => exact same_of_stop? hstop (same_symm (same_of_stop? hstop (same_symm (hnone hstop))))
  | some cause =>
    refine same_bind_right _ fun e w' hrun => ?_
    obtain ⟨rfl, rfl⟩ := runs_unique hrun (runs_stop?_some hstop)
    rw [hsome]
    exact same_refl _ _

/-- The signal has not fired whenever the procedure is at work itself, be it between its calls. -/
def Undisturbed (host : Host σ) (signal : Signal) (p : Proc σ α) (w : World σ) : Prop :=
  ∀ q w', Comes host p w q w' → w'.hasFired signal = false

theorem undisturbed_of_comes (h : Undisturbed host signal p w) (hq : Comes host p w q w') :
    Undisturbed host signal q w' :=
  fun r w'' hr => h r w'' (comes_trans hq hr)

theorem hasFired_of_undisturbed (h : Undisturbed host signal p w) : w.hasFired signal = false :=
  h p w .refl

/-- A first part that has ended leaves the rest undisturbed. -/
theorem undisturbed_of_runs (hp : Runs host p w a w')
    (h : Undisturbed host signal (p >>= f) w) : Undisturbed host signal (f a) w' :=
  undisturbed_of_comes h (comes_of_part hp .refl)

theorem undisturbed_left (h : Undisturbed host signal (p >>= f) w) :
    Undisturbed host signal p w :=
  fun _ _ hq => h _ _ (comes_bind hq)

end Proc

end ChainScript
