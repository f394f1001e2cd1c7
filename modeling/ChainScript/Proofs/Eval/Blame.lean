import ChainScript.Proofs.Eval.Host
import ChainScript.Proofs.Eval.Like
import ChainScript.Proofs.Memo.Machine

/-!
Evaluation and the calls that errors blame. The calls that are active show in the errors of an
evaluation and in nothing else, except that a memo may remember what has such errors inside it. So
an expression that makes no memo remember anything can as well be evaluated inside other calls.
-/
namespace ChainScript

open Proc

variable {σ : Type} {host : Host σ} {p q : Proc σ Value} {c : Call} {cs : List Call} {v : Value}
  {w w' w₁ : World σ} {frame frame' : Frame}

namespace Proc

section Learning

variable (hhost : host.Tame) (hp : Tame p) (hrun : Runs host p w v w')

include hhost hp hrun

/-- In a run that ends, each open call is answered, and the caches learn from then to the end. -/
theorem learns_after_stack (hstack : Stack host p w (c :: cs) w₁) :
    ∃ u w₂, c.Answers host w₁ u w₂ ∧ World.Learns (Memo.Made host p w) w₂ w' := by
  generalize hds : c :: cs = ds at hstack
  induction hstack generalizing c cs with
  | made hmade =>
    obtain ⟨rfl, rfl⟩ := List.cons.inj hds
    obtain ⟨next, hcomes⟩ := hmade
    obtain ⟨u, w₂, hans, hrest⟩ := runs_call_inv ((runs_iff_of_comes hcomes).mp hrun)
    have hremains : Remains host p w (next u) w₂ := .inl (comes_trans hcomes (.call hans .refl))
    exact ⟨u, w₂, hans, learns_of_remains hhost hp hremains (.inl (comes_of_runs hrest))⟩
  | @inside b d bs w₁ w₂ hb hmade ih =>
    obtain ⟨rfl, rfl⟩ := List.cons.inj hds
    obtain ⟨r, w₃, hans, hlearns⟩ := ih rfl
    obtain ⟨next, hcomes⟩ := hmade
    have hbody := (runs_iff_of_comes hcomes).mp (Call.answers_iff_runs.mp hans)
    obtain ⟨u, w₄, hd, hrest⟩ := runs_call_inv hbody
    have hremains : Remains host p w (next u) w₄ :=
      .inr ⟨b, w₁, ⟨bs, hb⟩, comes_trans hcomes (.call hd .refl)⟩
    refine ⟨u, w₄, hd, World.Learns.trans ?_ hlearns⟩
    exact learns_of_remains hhost hp hremains (.inl (comes_of_runs hrest))

/-- From any world on the way to the end, the caches learn. -/
theorem learns_of_passes (hpass : Passes host p w w₁) :
    World.Learns (Memo.Made host p w) w₁ w' := by
  obtain ⟨q, hq⟩ | ⟨c, w₂, q, ⟨cs, hstack⟩, hq⟩ := hpass
  · have hrest := comes_of_runs ((runs_iff_of_comes hq).mp hrun)
    exact learns_of_remains hhost hp (.inl hq) (.inl hrest)
  · obtain ⟨u, w₃, hans, hlearns⟩ := learns_after_stack hhost hp hrun hstack
    have hrest := comes_of_runs ((runs_iff_of_comes hq).mp (Call.answers_iff_runs.mp hans))
    have hremains : Remains host p w q w₁ := .inr ⟨c, w₂, ⟨cs, hstack⟩, hq⟩
    exact (learns_of_remains hhost hp hremains (.inl hrest)).trans hlearns

end Learning

end Proc

/-- Errors may blame any calls, and nothing is asked of functions that wait for arguments. -/
def Likeness.blind : Likeness where
  path _ _ := True
  waiting _ _ _ _ := True
  path_refl _ := trivial
  path_push _ _ := trivial
  waiting_native _ _ := trivial
  waiting_closure _ _ := trivial
  waiting_combine _ _ := trivial

theorem Likeness.admits_blind (u : Value) : Likeness.blind.Admits u := by
  cases u <;> trivial

theorem Value.like_blind (v : Value) : v.Like .blind v :=
  like_self v fun u _ => Likeness.admits_blind u

/-- Frames that differ in the active calls only. -/
theorem Frame.like_blind (frame : Frame) (path : CallPath) :
    frame.Like .blind { frame with path := path } :=
  ⟨Scope.like_self frame.scope fun u _ => Likeness.admits_blind u, trivial, rfl, rfl, rfl⟩

/-- Worlds in which no less is remembered than in `w₀`. They get lost by remembering more. -/
def Setting.blind (w₀ : World σ) : Setting σ :=
  { Likeness.blind with
    world := fun w => ∀ mark keys, (w₀.stored? mark keys).isSome → (w.stored? mark keys).isSome
    lost := fun w => ∃ mark keys, (w.stored? mark keys).isSome ∧ w₀.stored? mark keys = none
    world_of_caches := fun hw h mark keys hsome => by
      rw [World.stored?_of_caches h]
      exact hw mark keys hsome
    like_stored := fun _ _ => Value.like_blind _
    store := by
      intro w w' mark keys v v' hw hmissed _ _
      refine .inl ⟨mark, keys, by simp, ?_⟩
      cases hstored : w₀.stored? mark keys with
      | none => rfl
      | some u =>
        have hsome := hw mark keys (by rw [hstored]; rfl)
        rw [hmissed] at hsome
        cases hsome }

theorem Host.suits_silent (S : Setting σ) : Host.silent.Suits S :=
  fun _ _ _ _ _ _ _ => Proc.alike_pure (Value.array_like_iff.mpr .nil)

theorem Host.tame_silent : (Host.silent : Host σ).Tame := fun _ _ _ => Proc.tame_pure _

/--
An expression that makes no memo remember anything is evaluated alike inside other calls. Only the
errors in what it yields may blame these.
-/
theorem Expr.runs_of_path {code : Code} (hready : frame.Ready w)
    (hrun : (code.eval frame []).Runs host w v w') (hcaches : w'.caches = w.caches)
    (path : CallPath) :
    ∃ v', (code.eval { frame with path := path } []).Runs host w v' w' ∧ v.Like .blind v' := by
  have hready' : Frame.Ready { frame with path := path } w :=
    ⟨hready.scope, hready.world, hready.below, hready.numbered⟩
  rw [runs_eval_iff_silent hready] at hrun
  have hkept : ∀ w₁, Passes Host.silent (code.eval frame []) w w₁ →
      ¬ (Setting.blind w).lost w₁ := by
    rintro w₁ hpass ⟨mark, keys, hsome, hnone⟩
    have hlearns := learns_of_passes Host.tame_silent (tame_eval code frame []) hrun hpass
    have hend := hlearns.kept mark keys hsome
    rw [World.stored?_of_caches hcaches, hnone] at hend
    cases hend
  have halike : Alike (Setting.blind w) (Setting.blind w).Like (code.eval frame [])
      (code.eval { frame with path := path } []) :=
    alike_eval code (Frame.like_blind frame path) .nil
  have hworld : (Setting.blind w).world w := fun _ _ h => h
  obtain ⟨v', hrun', hlike⟩ := runs_of_alikeAt (Setting.calls_of_suits (Host.suits_silent _))
    (halike w hworld) hworld hkept hrun
  exact ⟨v', (runs_eval_iff_silent hready').mpr hrun', hlike⟩

end ChainScript
