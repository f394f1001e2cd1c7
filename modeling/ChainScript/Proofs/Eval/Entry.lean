import ChainScript.Proofs.Proc.Run

/-!
Where the bodies of functions are entered. What a call does is split at the moment when it comes to
the body of a native or script function; a run enters a body wherever one of its calls, at any
depth, comes to that moment. Since the frame is checked right before it, no body is entered in a
frame whose signal has fired by then.
-/
namespace ChainScript

open Proc

variable {σ α β : Type} {host : Host σ} {c : Call} {frame f : Frame} {v : Value}
  {w w' w₁ : World σ}

/-- Whether the signal has been raised or its deadline has passed. -/
def World.hasFired (w : World σ) (signal : Signal) : Bool :=
  w.isCancelled signal || signal.deadline.any (· ≤ w.now)

/-- A frame has to stop if its signal has fired. It may be too deep as well. -/
theorem World.stop?_of_hasFired (h : w.hasFired frame.signal = true) :
    ∃ cause, w.stop? frame = some cause ∧
      (cause = .recursionLimit frame.maxDepth ∨ cause = .cancelled ∨
        cause = .deadlineExceeded) := by
  unfold stop?
  split
  · exact ⟨_, rfl, .inl rfl⟩
  · split
    · exact ⟨_, rfl, .inr (.inl rfl)⟩
    · next hcancelled =>
      have hdeadline : frame.signal.deadline.any (· ≤ w.now) = true := by
        simpa [hasFired, hcancelled] using h
      rw [if_pos hdeadline]
      exact ⟨_, rfl, .inr (.inr rfl)⟩

theorem World.hasFired_of_stop? (h : w.stop? frame = none) : w.hasFired frame.signal = false := by
  cases hfired : w.hasFired frame.signal with
  | false => rfl
  | true =>
    obtain ⟨cause, hcause, -⟩ := stop?_of_hasFired hfired
    rw [h] at hcause
    cases hcause

namespace Call

/-- The frame for the body of the function that is called, if it has all its arguments. -/
def bodyFrame? (c : Call) : Option Frame :=
  match c.callee with
  | .native n => if c.args.length < n.arity.required then none else some (c.frame.enter n.name)
  | .closure _ l _ =>
    if c.args.length < l.params.length then none else some (c.frame.descend l.name)
  | _ => none

/--
What a call does before it comes to the body of a function. It may end without one; otherwise it
goes on in the frame of the body with the procedure that starts there.
-/
def approach (host : Host σ) (c : Call) : Proc σ (Value ⊕ Frame × Proc σ Value) :=
  match c.callee with
  | .native n => do
    if c.args.length < n.arity.required then
      return .inl (← curry (.native n) c.args n.arity.required n.order)
    let inner := c.frame.enter n.name
    if let some e ← Proc.stop? inner then return .inl e
    return .inr (inner, match n.arity with
      | .exact k => do
        applyRest (← nativeBody host n.operation inner (c.args.take k)) c.frame (c.args.drop k)
      | .atLeast _ => nativeBody host n.operation inner c.args)
  | .closure id l scope => do
    let self := Value.closure id l scope
    let arity := l.params.length
    if c.args.length < arity then return .inl (← curry self c.args arity .savedFirst)
    let inner := c.frame.descend l.name
    if let some e ← Proc.stop? inner then return .inl e
    let scope := (scope.add l.name self).addAll (l.params.zip c.args)
    return .inr (inner, do
      applyRest (← l.body.eval (inner.withScope scope) []) c.frame (c.args.drop arity))
  | _ => return .inl (← c.proc host)

/-- The call is what comes before the body, and then the body. -/
theorem proc_eq_approach (host : Host σ) (c : Call) :
    c.proc host = (do
      match ← c.approach host with
      | .inl v => return v
      | .inr (_, body) => body) := by
  obtain ⟨callee, frame, args⟩ := c
  cases callee with
  | native n =>
    simp only [proc, runNative, approach]
    split
    · rw [bind_bind]
      exact (bind_done _).symm
    · rw [bind_bind]
      congr 1
      funext stopped
      cases stopped with
      | some e => rfl
      | none => cases n.arity <;> rfl
  | closure id l scope =>
    simp only [proc, runClosure, approach]
    split
    · rw [bind_bind]
      exact (bind_done _).symm
    · rw [bind_bind]
      congr 1
      funext stopped
      cases stopped <;> rfl
  | _ =>
    simp only [approach]
    rw [bind_bind]
    exact (bind_done _).symm

theorem not_runs_inl {p : Proc σ Value} {r : Frame × Proc σ Value} :
    ¬ (do return .inl (← p) : Proc σ (Value ⊕ Frame × Proc σ Value)).Runs host w (.inr r) w' := by
  intro h
  obtain ⟨v, w₁, -, hv⟩ := runs_bind_inv h
  cases (runs_unique hv runs_done).1

/-- The check lets through only what has a signal that has not fired. -/
theorem hasFired_of_checked {inner : Frame} {body : Proc σ Value} {r : Frame × Proc σ Value}
    (h : (do
      if let some e ← Proc.stop? inner then return .inl e
      return .inr (inner, body) : Proc σ (Value ⊕ Frame × Proc σ Value)).Runs host w (.inr r) w') :
    r.1 = inner ∧ w' = w ∧ w.hasFired inner.signal = false := by
  cases hstop : w.stop? inner with
  | some cause =>
    rw [runs_bind_iff (runs_stop?_some hstop)] at h
    cases (runs_unique h runs_done).1
  | none =>
    rw [runs_bind_iff (runs_stop? hstop)] at h
    obtain ⟨hr, hw⟩ := runs_unique h runs_done
    exact ⟨by rw [Sum.inr.inj hr], hw, World.hasFired_of_stop? hstop⟩

/-- A call comes to a body in a frame with the signal of its own, which has not fired by then. -/
theorem hasFired_of_approach {body : Proc σ Value}
    (h : (c.approach host).Runs host w (.inr (f, body)) w') :
    f.signal = c.frame.signal ∧ w' = w ∧ w.hasFired c.frame.signal = false := by
  obtain ⟨callee, frame, args⟩ := c
  cases callee with
  | native n =>
    simp only [approach] at h
    split at h
    · exact (not_runs_inl h).elim
    · obtain ⟨rfl, hw, hfired⟩ := hasFired_of_checked h
      exact ⟨rfl, hw, hfired⟩
  | closure id l scope =>
    simp only [approach] at h
    split at h
    · exact (not_runs_inl h).elim
    · obtain ⟨rfl, hw, hfired⟩ := hasFired_of_checked h
      exact ⟨rfl, hw, hfired⟩
  | _ => exact (not_runs_inl h).elim

theorem exists_approach (hbody : c.bodyFrame? = some f) (hstop : w.stop? f = none) :
    ∃ body, (c.approach host).Runs host w (.inr (f, body)) w := by
  obtain ⟨callee, frame, args⟩ := c
  cases callee with
  | native n =>
    simp only [bodyFrame?] at hbody
    split at hbody
    · cases hbody
    next hargs =>
      obtain rfl := Option.some.inj hbody
      simp only [approach, if_neg hargs]
      exact ⟨_, runs_bind (runs_stop? hstop) runs_done⟩
  | closure id l scope =>
    simp only [bodyFrame?] at hbody
    split at hbody
    · cases hbody
    next hargs =>
      obtain rfl := Option.some.inj hbody
      simp only [approach, if_neg hargs]
      exact ⟨_, runs_bind (runs_stop? hstop) runs_done⟩
  | _ => cases hbody

theorem not_approach_of_hasFired {body : Proc σ Value} (hfired : w.hasFired c.frame.signal = true) :
    ¬ (c.approach host).Runs host w (.inr (f, body)) w' := by
  intro h
  obtain ⟨-, -, hnot⟩ := hasFired_of_approach h
  simp [hfired] at hnot

end Call

namespace Proc

/--
While the procedure is carried out from the world `w`, the body of a function is entered in the
frame `f` and the world `w'`: by one of its calls, or inside it, before the body or in it.
-/
inductive Enters (host : Host σ) : {α : Type} → Proc σ α → World σ → Frame → World σ → Prop
  | body {α : Type} {c : Call} {next : Value → Proc σ α} {body : Proc σ Value} {f : Frame}
      {w w' : World σ} (h : (c.approach host).Runs host w (.inr (f, body)) w') :
      Enters host (call c next) w f w'
  | before {α : Type} {c : Call} {next : Value → Proc σ α} {f : Frame} {w w' : World σ}
      (h : Enters host (c.approach host) w f w') : Enters host (call c next) w f w'
  | inside {α : Type} {c : Call} {next : Value → Proc σ α} {body : Proc σ Value} {g f : Frame}
      {w w₁ w' : World σ} (hc : (c.approach host).Runs host w (.inr (g, body)) w₁)
      (h : Enters host body w₁ f w') : Enters host (call c next) w f w'
  | later {α : Type} {c : Call} {next : Value → Proc σ α} {v : Value} {f : Frame}
      {w w₁ w' : World σ} (hc : c.Answers host w v w₁) (h : Enters host (next v) w₁ f w') :
      Enters host (call c next) w f w'
  | read {α : Type} {next : World σ → Proc σ α} {f : Frame} {w w' : World σ}
      (h : Enters host (next w) w f w') : Enters host (read next) w f w'
  | write {α : Type} {next : Proc σ α} {f : Frame} {w w₁ w' : World σ}
      (h : Enters host next w₁ f w') : Enters host (write w₁ next) w f w'

variable {p : Proc σ α} {k : α → Proc σ β}

/-- No body is entered at a moment when the signal of its frame has fired. -/
theorem hasFired_of_enters (h : Enters host p w f w') : w'.hasFired f.signal = false := by
  induction h with
  | body h =>
    obtain ⟨hsignal, rfl, hfired⟩ := Call.hasFired_of_approach h
    rwa [hsignal]
  | before _ ih => exact ih
  | inside _ _ ih => exact ih
  | later _ _ ih => exact ih
  | read _ ih => exact ih
  | write _ ih => exact ih

/-- A function that has all its arguments enters its body, unless the check stops it. -/
theorem enters_call {next : Value → Proc σ α} (hbody : c.bodyFrame? = some f)
    (hstop : w.stop? f = none) : Enters host (call c next) w f w := by
  obtain ⟨body, h⟩ := Call.exists_approach hbody hstop
  exact .body h

theorem not_enters_done {a : α} : ¬ Enters host (done a) w f w' := by
  intro h
  cases h

theorem enters_bind_left (h : Enters host p w f w') : Enters host (p >>= k) w f w' := by
  change Enters host (p.bind k) w f w'
  induction p generalizing w with
  | done a => exact (not_enters_done h).elim
  | call c next ih =>
    cases h with
    | body h => exact .body h
    | before h => exact .before h
    | inside hc h => exact .inside hc h
    | later hc h => exact .later hc (ih _ h)
  | read next ih =>
    cases h with
    | read h => exact .read (ih _ h)
  | write w₁ next ih =>
    cases h with
    | write h => exact .write (ih h)

/-- A body is entered by the first part, or by the second after the first has come to its end. -/
theorem enters_bind_inv (h : Enters host (p >>= k) w f w') :
    Enters host p w f w' ∨ ∃ a w₁, p.Runs host w a w₁ ∧ Enters host (k a) w₁ f w' := by
  change Enters host (p.bind k) w f w' at h
  induction p generalizing w with
  | done a => exact .inr ⟨a, w, runs_done, h⟩
  | call c next ih =>
    cases h with
    | body h => exact .inl (.body h)
    | before h => exact .inl (.before h)
    | inside hc h => exact .inl (.inside hc h)
    | later hc h =>
      rcases ih _ h with h | ⟨a, w₁, hrun, h⟩
      · exact .inl (.later hc h)
      · exact .inr ⟨a, w₁, runs_call hc hrun, h⟩
  | read next ih =>
    cases h with
    | read h =>
      rcases ih _ h with h | ⟨a, w₁, hrun, h⟩
      · exact .inl (.read h)
      · exact .inr ⟨a, w₁, hrun, h⟩
  | write w₂ next ih =>
    cases h with
    | write h =>
      rcases ih h with h | ⟨a, w₁, hrun, h⟩
      · exact .inl (.write h)
      · exact .inr ⟨a, w₁, hrun, h⟩

/-- In a frame whose signal has fired, a call enters a body only before it comes to its own. -/
theorem enters_proc_of_invoke {args : List Value} (hfired : w.hasFired frame.signal = true)
    (h : Enters host (invoke v frame args) w f w') :
    Enters host (Call.proc host ⟨v, frame, args⟩) w f w' := by
  cases h with
  | body h => exact (Call.not_approach_of_hasFired hfired h).elim
  | before h =>
    rw [Call.proc_eq_approach]
    exact enters_bind_left h
  | inside hc _ => exact (Call.not_approach_of_hasFired hfired hc).elim
  | later _ h => exact (not_enters_done h).elim

end Proc

end ChainScript
