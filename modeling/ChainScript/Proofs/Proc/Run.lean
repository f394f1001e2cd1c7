import ChainScript.Eval.Call

/-!
Runs without a bound on nested calls: what a procedure ends with, what it comes to on the way, and
which calls it makes, directly or inside other calls.
-/
namespace ChainScript

variable {σ α β : Type} {host : Host σ} {c d : Call} {v u : Value} {w w' w'' : World σ}

/-- The call ends with the value `v` and the world `w'`. -/
def Call.Answers (host : Host σ) (c : Call) (w : World σ) (v : Value) (w' : World σ) : Prop :=
  ∃ fuel, answer host fuel c w = some (v, w')

namespace Proc

variable {p q : Proc σ α} {f : α → Proc σ β} {next : Value → Proc σ α} {a : α} {b : β}

/-- The procedure ends with the result `a` and the world `w'`. -/
def Runs (host : Host σ) (p : Proc σ α) (w : World σ) (a : α) (w' : World σ) : Prop :=
  ∃ fuel, p.exec (Call.answer host fuel) w = some (a, w')

theorem exec_answer_mono {m n : Nat} (hmn : m ≤ n) {r : α × World σ}
    (hr : p.exec (Call.answer host m) w = some r) : p.exec (Call.answer host n) w = some r :=
  exec_mono (fun _ _ _ h => Call.answer_mono hmn h) p w hr

theorem runs_done : Runs host (done a) w a w :=
  ⟨0, rfl⟩

theorem runs_call (hc : c.Answers host w v w') (hn : Runs host (next v) w' a w'') :
    Runs host (call c next) w a w'' := by
  obtain ⟨m, hm⟩ := hc
  obtain ⟨n, hn⟩ := hn
  refine ⟨max m n, ?_⟩
  rw [exec, Call.answer_mono (Nat.le_max_left m n) hm]
  exact exec_answer_mono (Nat.le_max_right m n) hn

theorem runs_invoke {frame : Frame} {args : List Value}
    (h : Call.Answers host ⟨v, frame, args⟩ w u w') : Runs host (invoke v frame args) w u w' :=
  runs_call h runs_done

theorem runs_stop? {frame : Frame} (h : w.stop? frame = none) :
    Runs host (stop? frame) w none w := by
  refine ⟨0, ?_⟩
  simp only [stop?, exec, h]
  rfl

theorem runs_stop?_some {frame : Frame} {cause : Cause} (h : w.stop? frame = some cause) :
    Runs host (stop? frame) w (some (.error w.next ⟨cause, frame.path⟩))
      { w with next := w.next + 1 } := by
  refine ⟨0, ?_⟩
  simp only [stop?, exec, h]
  rfl

theorem runs_call_inv (h : Runs host (call c next) w a w'') :
    ∃ v w', c.Answers host w v w' ∧ Runs host (next v) w' a w'' := by
  obtain ⟨n, hn⟩ := h
  rw [exec] at hn
  cases hc : Call.answer host n c w with
  | none => simp [hc] at hn
  | some r =>
    rw [hc] at hn
    exact ⟨r.1, r.2, ⟨n, hc⟩, n, hn⟩

theorem runs_bind_inv (h : Runs host (p >>= f) w b w'') :
    ∃ a w', Runs host p w a w' ∧ Runs host (f a) w' b w'' := by
  obtain ⟨n, hn⟩ := h
  rw [exec_bind] at hn
  obtain ⟨⟨a, w'⟩, hp, hf⟩ := Option.bind_eq_some_iff.mp hn
  exact ⟨a, w', ⟨n, hp⟩, n, hf⟩

theorem runs_bind (hp : Runs host p w a w') (hf : Runs host (f a) w' b w'') :
    Runs host (p >>= f) w b w'' := by
  obtain ⟨m, hm⟩ := hp
  obtain ⟨n, hn⟩ := hf
  refine ⟨max m n, ?_⟩
  rw [exec_bind, exec_answer_mono (Nat.le_max_left m n) hm]
  exact exec_answer_mono (Nat.le_max_right m n) hn

theorem bind_bind {γ : Type} (p : Proc σ α) (f : α → Proc σ β) (g : β → Proc σ γ) :
    p >>= f >>= g = p >>= fun a => f a >>= g := by
  change (p.bind f).bind g = p.bind fun a => (f a).bind g
  induction p with
  | done a => rfl
  | call c next ih => simp only [bind, ih]
  | read next ih => simp only [bind, ih]
  | write w next ih => simp only [bind, ih]

theorem bind_done (p : Proc σ α) : p >>= done = p := by
  change p.bind done = p
  induction p with
  | done a => rfl
  | call c next ih => simp only [bind, ih]
  | read next ih => simp only [bind, ih]
  | write w next ih => simp only [bind, ih]

theorem runs_bind_congr (h : ∀ a w₁, Runs host p w a w₁ ↔ Runs host q w a w₁) :
    Runs host (p >>= f) w b w' ↔ Runs host (q >>= f) w b w' := by
  constructor
  · intro hrun
    obtain ⟨a, w₁, hp, hf⟩ := runs_bind_inv hrun
    exact runs_bind ((h a w₁).mp hp) hf
  · intro hrun
    obtain ⟨a, w₁, hq, hf⟩ := runs_bind_inv hrun
    exact runs_bind ((h a w₁).mpr hq) hf

/-- A run has one end only. -/
theorem runs_unique {a' : α} (h : Runs host p w a w') (h' : Runs host p w a' w'') :
    a = a' ∧ w' = w'' := by
  obtain ⟨m, hm⟩ := h
  obtain ⟨n, hn⟩ := h'
  have h₁ := exec_answer_mono (Nat.le_max_left m n) hm
  have h₂ := exec_answer_mono (Nat.le_max_right m n) hn
  simpa using h₁.symm.trans h₂

/-- A part that ends leaves what follows it. -/
theorem runs_bind_iff (hp : Runs host p w a w') :
    Runs host (p >>= f) w b w'' ↔ Runs host (f a) w' b w'' := by
  refine ⟨?_, runs_bind hp⟩
  intro h
  obtain ⟨a', w₁, hp', hf⟩ := runs_bind_inv h
  obtain ⟨rfl, rfl⟩ := runs_unique hp' hp
  exact hf

theorem runs_invoke_iff {frame : Frame} {args : List Value} :
    Runs host (invoke v frame args) w u w' ↔ Call.Answers host ⟨v, frame, args⟩ w u w' := by
  refine ⟨?_, runs_invoke⟩
  intro h
  obtain ⟨u', w₁, hans, hdone⟩ := runs_call_inv h
  obtain ⟨rfl, rfl⟩ := runs_unique hdone runs_done
  exact hans

end Proc

namespace Call

theorem answers_iff_runs : c.Answers host w v w' ↔ (c.proc host).Runs host w v w' := by
  constructor
  · rintro ⟨fuel, h⟩
    cases fuel with
    | zero => simp [answer] at h
    | succ fuel => exact ⟨fuel, h⟩
  · rintro ⟨fuel, h⟩
    exact ⟨fuel + 1, h⟩

theorem answers_unique (h : c.Answers host w v w') (h' : c.Answers host w u w'') :
    v = u ∧ w' = w'' :=
  Proc.runs_unique (answers_iff_runs.mp h) (answers_iff_runs.mp h')

theorem answers_iff_of_answers (h : c.Answers host w v w') {w₁ : World σ} :
    c.Answers host w u w₁ ↔ u = v ∧ w₁ = w' := by
  constructor
  · exact fun h' => answers_unique h' h
  · rintro ⟨rfl, rfl⟩
    exact h

variable {frame : Frame} {args : List Value}

theorem proc_of_isPlain (h : v.isPlain = true) : proc host ⟨v, frame, args⟩ = Proc.done v := by
  cases v <;> first | rfl | simp [Value.isPlain] at h

theorem answers_of_isPlain (h : v.isPlain = true) : Answers host ⟨v, frame, args⟩ w v w := by
  rw [answers_iff_runs, proc_of_isPlain h]
  exact Proc.runs_done

end Call

namespace Proc

variable {p q : Proc σ α} {next : Value → Proc σ α} {a : α} {cs : List Call} {fuel : Nat}

/-- Left-over arguments do nothing to a plain value. -/
theorem runs_applyRest_of_isPlain {frame : Frame} {rest : List Value} (h : v.isPlain = true) :
    Runs host (applyRest v frame rest) w v w := by
  unfold applyRest
  split
  · exact runs_done
  · exact runs_invoke (Call.answers_of_isPlain h)

/-- Carrying out `p` from `w` comes to what is left, `q`, in the world `w'`. -/
inductive Comes (host : Host σ) : Proc σ α → World σ → Proc σ α → World σ → Prop
  | refl {p : Proc σ α} {w : World σ} : Comes host p w p w
  | call {c : Call} {next : Value → Proc σ α} {q : Proc σ α} {v : Value} {w w₁ w' : World σ}
      (hc : c.Answers host w v w₁) (hn : Comes host (next v) w₁ q w') :
      Comes host (call c next) w q w'
  | read {next : World σ → Proc σ α} {q : Proc σ α} {w w' : World σ}
      (hn : Comes host (next w) w q w') : Comes host (read next) w q w'
  | write {next q : Proc σ α} {w w₁ w' : World σ} (hn : Comes host next w₁ q w') :
      Comes host (write w₁ next) w q w'

/-- Carrying out `p` from `w` makes the call `c` in the world `w'`. -/
def Makes (host : Host σ) (p : Proc σ α) (w : World σ) (c : Call) (w' : World σ) : Prop :=
  ∃ next, Comes host p w (call c next) w'

/--
The calls `cs` are open in the world `w'`, the innermost first: the last of them is made by `p`, and
each of the others on behalf of the one after it.
-/
inductive Stack (host : Host σ) (p : Proc σ α) (w : World σ) : List Call → World σ → Prop
  | made {c : Call} {w' : World σ} (h : Makes host p w c w') : Stack host p w [c] w'
  | inside {c d : Call} {cs : List Call} {w' w'' : World σ} (hc : Stack host p w (c :: cs) w')
      (hd : Makes host (c.proc host) w' d w'') : Stack host p w (d :: c :: cs) w''

/-- The call `c` is made in the world `w'`, by `p` or inside a call made on its behalf. -/
def Reaches (host : Host σ) (p : Proc σ α) (w : World σ) (c : Call) (w' : World σ) : Prop :=
  ∃ cs, Stack host p w (c :: cs) w'

/-- The world `w'` occurs while `p` is carried out, be it inside the calls. -/
def Passes (host : Host σ) (p : Proc σ α) (w w' : World σ) : Prop :=
  (∃ q, Comes host p w q w') ∨
    ∃ c w₁ q, Reaches host p w c w₁ ∧ Comes host (c.proc host) w₁ q w'

theorem comes_trans {q' : Proc σ α} (h : Comes host p w q w') (h' : Comes host q w' q' w'') :
    Comes host p w q' w'' := by
  induction h with
  | refl => exact h'
  | call hc _ ih => exact .call hc (ih h')
  | read _ ih => exact .read (ih h')
  | write _ ih => exact .write (ih h')

theorem comes_bind {f : α → Proc σ β} (h : Comes host p w q w') :
    Comes host (p >>= f) w (q >>= f) w' := by
  induction h with
  | refl => exact .refl
  | call hc _ ih => exact .call hc ih
  | read _ ih => exact .read ih
  | write _ ih => exact .write ih

theorem comes_of_runs (h : Runs host p w a w') : Comes host p w (done a) w' := by
  induction p generalizing w with
  | done b =>
    obtain ⟨rfl, rfl⟩ := runs_unique h runs_done
    exact .refl
  | call c next ih =>
    obtain ⟨v, w₁, hc, hn⟩ := runs_call_inv h
    exact .call hc (ih v hn)
  | read next ih => exact .read (ih w h)
  | write w₁ next ih => exact .write (ih h)

/-- A procedure whose first part ends comes to what the rest of it comes to. -/
theorem comes_of_part {f : α → Proc σ β} {r : Proc σ β} {w₁ : World σ} (hp : Runs host p w a w₁)
    (h : Comes host (f a) w₁ r w') : Comes host (p >>= f) w r w' :=
  comes_trans (comes_bind (comes_of_runs hp)) h

/-- What a procedure comes to ends as the procedure does. -/
theorem runs_iff_of_comes {w₁ : World σ} (h : Comes host p w q w₁) :
    Runs host p w a w' ↔ Runs host q w₁ a w' := by
  induction h with
  | refl => exact Iff.rfl
  | call hc _ ih =>
    constructor
    · intro hrun
      obtain ⟨u, w₂, hc', hn⟩ := runs_call_inv hrun
      obtain ⟨rfl, rfl⟩ := Call.answers_unique hc' hc
      exact ih.mp hn
    · exact fun hrun => runs_call hc (ih.mpr hrun)
  | read _ ih => exact ih
  | write _ ih => exact ih

/-- What follows a part that ends makes its calls from there. -/
theorem makes_bind {f : α → Proc σ β} {w₁ : World σ} (hp : Runs host p w a w₁)
    (h : Makes host (f a) w₁ c w') : Makes host (p >>= f) w c w' := by
  obtain ⟨next, h⟩ := h
  exact ⟨next, comes_of_part hp h⟩

theorem makes_bind_left {f : α → Proc σ β} (h : Makes host p w c w') :
    Makes host (p >>= f) w c w' := by
  obtain ⟨next, h⟩ := h
  exact ⟨_, comes_bind h⟩

/-- A procedure ends if each call that it makes does. -/
theorem runs_of_answers
    (h : ∀ c w', Makes host p w c w' → ∃ v w'', c.Answers host w' v w'') :
    ∃ a w', Runs host p w a w' := by
  induction p generalizing w with
  | done a => exact ⟨a, w, runs_done⟩
  | call c next ih =>
    obtain ⟨v, w₁, hc⟩ := h c w ⟨next, .refl⟩
    obtain ⟨a, w', hn⟩ := ih v (w := w₁) fun d w' ⟨rest, hd⟩ => h d w' ⟨rest, .call hc hd⟩
    exact ⟨a, w', runs_call hc hn⟩
  | read next ih => exact ih w fun d w' ⟨rest, hd⟩ => h d w' ⟨rest, .read hd⟩
  | write w₁ next ih => exact ih fun d w' ⟨rest, hd⟩ => h d w' ⟨rest, .write hd⟩

/-- What ends with some fuel has had each of its calls answered with that fuel. -/
theorem answer_of_makes {r : α × World σ}
    (hr : p.exec (Call.answer host fuel) w = some r) (h : Makes host p w d w') :
    ∃ v w'', Call.answer host fuel d w' = some (v, w'') := by
  obtain ⟨next, h⟩ := h
  generalize hq : Proc.call d next = q at h
  induction h with
  | refl =>
    subst hq
    rw [exec] at hr
    cases hd : Call.answer host fuel d _ with
    | none => simp [hd] at hr
    | some s => exact ⟨s.1, s.2, rfl⟩
  | @call c next' q v w w₁ w' hc _ ih =>
    rw [exec] at hr
    cases hf : Call.answer host fuel c w with
    | none => simp [hf] at hr
    | some s =>
      obtain ⟨rfl, rfl⟩ := Call.answers_unique ⟨fuel, hf⟩ hc
      rw [hf] at hr
      exact ih hr hq
  | read _ ih => exact ih hr hq
  | write _ ih => exact ih hr hq

/-- The fuel left over bounds how many calls can be open at once. -/
theorem answer_of_stack {r : α × World σ} (hr : p.exec (Call.answer host fuel) w = some r)
    (h : Stack host p w (c :: cs) w') :
    ∃ left v w'', left + cs.length = fuel ∧ Call.answer host left c w' = some (v, w'') := by
  generalize hds : c :: cs = ds at h
  induction h generalizing c cs with
  | made h =>
    obtain ⟨rfl, rfl⟩ := List.cons.inj hds
    obtain ⟨v, w'', hd⟩ := answer_of_makes hr h
    exact ⟨fuel, v, w'', rfl, hd⟩
  | inside hc hd ih =>
    obtain ⟨rfl, rfl⟩ := List.cons.inj hds
    obtain ⟨left, v, w₁, hleft, hans⟩ := ih rfl
    cases left with
    | zero => simp [Call.answer] at hans
    | succ left =>
      obtain ⟨u, w₂, hu⟩ := answer_of_makes hans hd
      exact ⟨left, u, w₂, by simp only [List.length_cons]; omega, hu⟩

theorem length_le_of_stack {r : α × World σ} (hr : p.exec (Call.answer host fuel) w = some r)
    (h : Stack host p w cs w') : cs.length ≤ fuel := by
  cases cs with
  | nil => simp
  | cons c cs =>
    obtain ⟨left, v, w'', hleft, hans⟩ := answer_of_stack hr h
    cases left with
    | zero => simp [Call.answer] at hans
    | succ left => simp only [List.length_cons]; omega

end Proc

end ChainScript
