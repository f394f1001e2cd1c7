import ChainScript.Eval.Argument
import ChainScript.Proofs.World.Rename

/-!
Procedures under a renaming. Two procedures mirror each other if the second makes the renamed calls
of the first, writes its renamed worlds and ends with its renamed result; then a renaming carries
the runs of the one to those of the other.
-/
namespace ChainScript

variable {σ α β : Type}

def Call.rename (f : Nat → Nat) (c : Call) : Call :=
  ⟨c.callee.rename f, c.frame.rename f, c.args.map (·.rename f)⟩

/-- Renamed calls get renamed answers, and no answer goes back behind the cut. -/
def Renaming.Carries (ρ : Renaming σ) (answer : Call → World σ → Option (Value × World σ)) : Prop :=
  ∀ c w, ρ.cut ≤ w.next →
    answer (c.rename ρ.number) (w.rename ρ) =
        (answer c w).map (Prod.map (Value.rename ρ.number) (World.rename ρ)) ∧
      ∀ r, answer c w = some r → ρ.cut ≤ r.2.next

/-- The renaming leaves what the call and the world have in them: it moves free numbers only. -/
def Renaming.Spares (ρ : Renaming σ) (c : Call) (w : World σ) : Prop :=
  c.rename ρ.number = c ∧ w.rename ρ = { w with next := ρ.number w.next }

namespace Proc

/-- The second procedure does what the first does, renamed; `g` renames the result. -/
def Mirrors (ρ : Renaming σ) (g : α → α) : Proc σ α → Proc σ α → Prop
  | done a, done b => b = g a
  | call c next, call d next' =>
    d = c.rename ρ.number ∧ ∀ v, Mirrors ρ g (next v) (next' (v.rename ρ.number))
  | read next, read next' => ∀ w, ρ.cut ≤ w.next → Mirrors ρ g (next w) (next' (w.rename ρ))
  | write w next, write w' next' => w' = w.rename ρ ∧ ρ.cut ≤ w.next ∧ Mirrors ρ g next next'
  | _, _ => False

variable {ρ : Renaming σ} {g : α → α} {g' : β → β} {p q : Proc σ α} {w : World σ} {frame : Frame}
  {v : Value}

/-- A renaming that carries the answers to calls carries a run to the run of the mirror image. -/
theorem exec_of_mirrors {answer : Call → World σ → Option (Value × World σ)}
    (hanswer : ρ.Carries answer) (h : Mirrors ρ g p q) (hw : ρ.cut ≤ w.next) :
    q.exec answer (w.rename ρ) = (p.exec answer w).map (Prod.map g (World.rename ρ)) ∧
      ∀ r, p.exec answer w = some r → ρ.cut ≤ r.2.next := by
  induction p generalizing q w with
  | done a =>
    cases q with
    | done b =>
      obtain rfl : b = g a := h
      refine ⟨rfl, ?_⟩
      rintro r hr
      obtain rfl := Option.some.inj hr
      exact hw
    | _ => exact h.elim
  | call c next ih =>
    cases q with
    | call d next' =>
      obtain ⟨rfl, hnext⟩ := h
      obtain ⟨hcall, hcut⟩ := hanswer c w hw
      rw [exec, exec, hcall]
      cases hc : answer c w with
      | none => exact ⟨rfl, by simp⟩
      | some r => exact ih r.1 (hnext r.1) (hcut r hc)
    | _ => exact h.elim
  | read next ih =>
    cases q with
    | read next' => exact ih w (q := next' (w.rename ρ)) (h w hw) hw
    | _ => exact h.elim
  | write w₁ next ih =>
    cases q with
    | write w₂ next' =>
      obtain ⟨rfl, hcut, hnext⟩ := h
      exact ih hnext hcut
    | _ => exact h.elim

theorem mirrors_pure (a : α) : Mirrors ρ g (pure a : Proc σ α) (pure (g a)) := rfl

theorem mirrors_bind {f f' : α → Proc σ β} (h : Mirrors ρ g p q)
    (hf : ∀ a, Mirrors ρ g' (f a) (f' (g a))) : Mirrors ρ g' (p >>= f) (q >>= f') := by
  change Mirrors ρ g' (p.bind f) (q.bind f')
  induction p generalizing q with
  | done a =>
    cases q with
    | done b =>
      obtain rfl : b = g a := h
      exact hf a
    | _ => exact h.elim
  | call c next ih =>
    cases q with
    | call d next' => exact ⟨h.1, fun v => ih v (h.2 v)⟩
    | _ => exact h.elim
  | read next ih =>
    cases q with
    | read next' => exact fun w hw => ih w (h w hw)
    | _ => exact h.elim
  | write w next ih =>
    cases q with
    | write w' next' => exact ⟨h.1, h.2.1, ih h.2.2⟩
    | _ => exact h.elim

theorem mirrors_invoke (v : Value) (frame : Frame) (args : List Value) :
    Mirrors ρ (Value.rename ρ.number) (invoke v frame args : Proc σ Value)
      (invoke (v.rename ρ.number) (frame.rename ρ.number) (args.map (.rename ρ.number))) :=
  ⟨rfl, fun _ => rfl⟩

theorem mirrors_fresh : Mirrors ρ ρ.number (fresh : Proc σ Nat) fresh := by
  intro w hw
  refine ⟨?_, Nat.le_succ_of_le hw, rfl⟩
  simp only [World.rename, ρ.number_succ w.next hw]

theorem mirrors_modify {f : World σ → World σ} (h : ∀ w, f (w.rename ρ) = (f w).rename ρ)
    (hnext : ∀ w, (f w).next = w.next) : Mirrors ρ id (modify f) (modify f) := by
  intro w hw
  exact ⟨h w, hnext w ▸ hw, rfl⟩

theorem mirrors_fail (frame : Frame) (cause : Cause) :
    Mirrors ρ (Value.rename ρ.number) (fail frame cause : Proc σ Value)
      (fail (frame.rename ρ.number) cause) :=
  mirrors_bind mirrors_fresh fun _ => mirrors_pure _

theorem mirrors_stop? (frame : Frame) :
    Mirrors ρ (Option.map (Value.rename ρ.number)) (stop? frame : Proc σ (Option Value))
      (stop? (frame.rename ρ.number)) := by
  intro w hw
  simp only [World.stop?_rename]
  cases w.stop? frame with
  | none => exact mirrors_pure none
  | some cause => exact mirrors_bind (mirrors_fail frame cause) fun e => mirrors_pure (some e)

theorem mirrors_realize (b : Binding) :
    Mirrors ρ (Value.rename ρ.number) (realize b : Proc σ Value) (realize (b.rename ρ.number)) := by
  cases b with
  | value v => exact mirrors_pure v
  | function lambda scope => exact mirrors_bind mirrors_fresh fun _ => mirrors_pure _

theorem mirrors_applyRest (v : Value) (frame : Frame) (args : List Value) :
    Mirrors ρ (Value.rename ρ.number) (applyRest v frame args : Proc σ Value)
      (applyRest (v.rename ρ.number) (frame.rename ρ.number) (args.map (.rename ρ.number))) := by
  unfold applyRest
  rw [List.isEmpty_map, Value.isError_rename]
  split
  · exact mirrors_pure v
  · exact mirrors_invoke v frame args

theorem mirrors_curry (func : Value) (args : List Value) (arity : Nat) (order : Order) :
    Mirrors ρ (Value.rename ρ.number) (curry func args arity order : Proc σ Value)
      (curry (func.rename ρ.number) (args.map (.rename ρ.number)) arity order) := by
  unfold curry
  rw [List.isEmpty_map]
  split
  · exact mirrors_pure func
  · refine mirrors_bind mirrors_fresh fun id => ?_
    rw [← Value.renameAll_eq_map]
    exact mirrors_pure _

end Proc

/-- The outcome of an attempt renamed, with `g` for the results. -/
def Attempt.renameOutcome (f : Nat → Nat) (g : α → α) : Except Value α → Except Value α
  | .ok a => .ok (g a)
  | .error e => .error (e.rename f)

namespace Attempt

open Proc

variable {ρ : Renaming σ} {g : α → α} {g' : β → β} {x y : Attempt σ α}

def Mirrors (ρ : Renaming σ) (g : α → α) (x y : Attempt σ α) : Prop :=
  Proc.Mirrors ρ (renameOutcome ρ.number g) x.run y.run

theorem mirrors_pure (a : α) : Mirrors ρ g (pure a : Attempt σ α) (pure (g a)) := rfl

theorem mirrors_bind {f f' : α → Attempt σ β} (h : Mirrors ρ g x y)
    (hf : ∀ a, Mirrors ρ g' (f a) (f' (g a))) : Mirrors ρ g' (x >>= f) (y >>= f') := by
  change Proc.Mirrors _ _ (x.run >>= ExceptT.bindCont f) (y.run >>= ExceptT.bindCont f')
  refine Proc.mirrors_bind h ?_
  rintro (e | a)
  · exact Proc.mirrors_pure (Except.error e)
  · exact hf a

theorem mirrors_lift {p q : Proc σ α} (h : Proc.Mirrors ρ g p q) :
    Mirrors ρ g (ExceptT.lift p) (ExceptT.lift q) :=
  Proc.mirrors_bind h fun a => Proc.mirrors_pure (Except.ok a)

theorem mirrors_fail (frame : Frame) (cause : Cause) :
    Mirrors ρ g (fail frame cause : Attempt σ α) (fail (frame.rename ρ.number) cause) :=
  Proc.mirrors_bind (Proc.mirrors_fail frame cause) fun e => Proc.mirrors_pure (Except.error e)

theorem mirrors_force (frame : Frame) (v : Value) :
    Mirrors ρ (Value.rename ρ.number) (force frame v : Attempt σ Value)
      (force (frame.rename ρ.number) (v.rename ρ.number)) := by
  refine Proc.mirrors_bind (mirrors_invoke v frame []) fun u => ?_
  rw [Value.isError_rename]
  split
  · exact Proc.mirrors_pure (Except.error u)
  · exact Proc.mirrors_pure (Except.ok u)

theorem mirrors_forceAll (frame : Frame) (args : List Value) :
    Mirrors ρ (List.map (Value.rename ρ.number)) (forceAll frame args : Attempt σ (List Value))
      (forceAll (frame.rename ρ.number) (args.map (.rename ρ.number))) := by
  induction args with
  | nil => exact mirrors_pure []
  | cons v rest ih =>
    refine mirrors_bind (mirrors_force frame v) fun u => ?_
    exact mirrors_bind ih fun us => mirrors_pure (u :: us)

section Reader

-- What the reader makes of a renamed value.
variable {reader : Reader α}
  (hread : ∀ v, reader.read? (v.rename ρ.number) = (reader.read? v).map g)

include hread

theorem mirrors_forceAs (frame : Frame) (v : Value) :
    Mirrors ρ g (forceAs reader frame v : Attempt σ α)
      (forceAs reader (frame.rename ρ.number) (v.rename ρ.number)) := by
  refine mirrors_bind (mirrors_force frame v) fun u => ?_
  rw [hread, Value.typeName_rename]
  cases reader.read? u with
  | some a => exact mirrors_pure a
  | none => exact mirrors_fail frame _

theorem mirrors_argument (frame : Frame) (args : List Value) (index : Nat) :
    Mirrors ρ g (argument reader frame args index : Attempt σ α)
      (argument reader (frame.rename ρ.number) (args.map (.rename ρ.number)) index) := by
  unfold argument
  rw [List.getElem?_map]
  cases args[index]? with
  | some v => exact mirrors_forceAs hread frame v
  | none => exact mirrors_fail frame _

end Reader

theorem mirrors_result {x y : Attempt σ Value} (h : Mirrors ρ (Value.rename ρ.number) x y) :
    Proc.Mirrors ρ (Value.rename ρ.number) x.result y.result := by
  refine Proc.mirrors_bind h ?_
  rintro (e | v)
  · exact Proc.mirrors_pure e
  · exact Proc.mirrors_pure v

end Attempt

end ChainScript
