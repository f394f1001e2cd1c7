import ChainScript.Proofs.Eval.Forward
import ChainScript.Proofs.Eval.Scoping

/-!
Evaluation without functions of the host. What is sealed has only natives of the prelude in it, so
it is all the same which functions the host adds.
-/
namespace ChainScript

open Proc

variable {σ α : Type} {p : Policy σ} {host other : Host σ} {w w' : World σ} {c : Call}

/-- A host whose functions do nothing. -/
def Host.silent : Host σ := fun _ _ _ => return .array []

theorem Host.respects_silent (ρ : Renaming σ) : Host.silent.Respects ρ :=
  fun _ _ _ => mirrors_pure (Value.array [])

theorem Host.keeps_silent : (Host.silent : Host σ).Keeps :=
  fun _ _ _ _ _ _ => keeps_of_below (Value.below_array_iff.mpr (List.forall_mem_nil _))

namespace Proc

/-- A procedure that keeps its contract does the same if its calls have the same answers. -/
theorem exec_eq_of_ensures {k : Contract σ} {post : α → World σ → Prop} {q : Proc σ α}
    {f g : Call → World σ → Option (Value × World σ)} (h : Ensures k post q w)
    (hcalls : ∀ c w u w', k.ask c w → f c w = some (u, w') → k.known c w u w' ∧ k.grant u w')
    (heq : ∀ c w, k.ask c w → f c w = g c w) : q.exec f w = q.exec g w := by
  induction q generalizing w with
  | done a => rfl
  | call c next ih =>
    obtain ⟨-, hask, hnext⟩ := h
    rw [exec, exec, ← heq c w hask]
    cases hc : f c w with
    | none => rfl
    | some r =>
      obtain ⟨hk, hg⟩ := hcalls c w r.1 r.2 hask hc
      exact ih r.1 (hnext r.1 r.2 hk hg)
  | read next ih => exact ih w h
  | write w₁ next ih => exact ih h.2.2

end Proc

namespace Call

theorem proc_eq_of_obeys (hc : c.Obeys p) (host other : Host σ) :
    c.proc host = c.proc other := by
  obtain ⟨callee, frame, args⟩ := c
  obtain ⟨hcallee, -⟩ := hc
  cases hcallee with
  | native hn =>
    obtain ⟨op, hop⟩ := p.builtin_of_native hn
    simp only [proc, runNative, hop, nativeBody]
  | _ => rfl

variable (hknown : ∀ c w v w', p.known c w v w')

include hknown

/-- A call that obeys a policy is answered alike by any host. -/
theorem answer_eq_of_obeys (fuel : Nat) (hc : c.Obeys p) (hw : w.Obeys p) :
    answer host fuel c w = answer other fuel c w := by
  induction fuel generalizing c w with
  | zero => rfl
  | succ fuel ih =>
    rw [answer, answer, proc_eq_of_obeys hc host other]
    refine exec_eq_of_ensures (ensures_proc c w ⟨hc, hw⟩) ?_ fun d w₁ hask => ih hask.2.1 hask.2.2
    intro d w₁ u w₂ hask hans
    exact ⟨hknown _ _ _ _, yields_of_answers hknown hask.2.1 hask.2.2 ⟨fuel, hans⟩⟩

theorem answers_iff_of_obeys {v : Value} (hc : c.Obeys p) (hw : w.Obeys p) :
    c.Answers host w v w' ↔ c.Answers other w v w' :=
  exists_congr fun fuel => by rw [answer_eq_of_obeys hknown fuel hc hw]

end Call

namespace Proc

variable {site : Call → Prop} {post : α → World σ → Prop} {q r : Proc σ α} {a : α}
  (hknown : ∀ c w v w', p.known c w v w') (h : Ensures (p.contract.under site) post q w)

include hknown h

theorem runs_iff_of_ensures : Runs host q w a w' ↔ Runs other q w a w' := by
  refine exists_congr fun fuel => ?_
  rw [exec_eq_of_ensures h (g := Call.answer other fuel) ?_ ?_]
  · intro c w u w' hask hans
    exact ⟨hknown _ _ _ _, Call.yields_of_answers hknown hask.2.1 hask.2.2 ⟨fuel, hans⟩⟩
  · exact fun c w hask => Call.answer_eq_of_obeys hknown fuel hask.2.1 hask.2.2

theorem comes_of_ensures (hcomes : Comes host q w r w') : Comes other q w r w' := by
  induction hcomes with
  | refl => exact .refl
  | call hc _ ih =>
    obtain ⟨-, hask, hnext⟩ := h
    refine .call ((Call.answers_iff_of_obeys hknown hask.2.1 hask.2.2).mp hc) (ih ?_)
    exact hnext _ _ (hknown _ _ _ _) (Call.yields_of_answers hknown hask.2.1 hask.2.2 hc)
  | read _ ih => exact .read (ih h)
  | write _ ih => exact .write (ih h.2.2)

end Proc

/--
A place to evaluate code in: only natives of the prelude can be reached, and the numbers in use have
all been taken.
-/
structure Frame.Ready (frame : Frame) (w : World σ) : Prop where
  scope : frame.scope.Obeys (Policy.sealed σ)
  world : w.Obeys (Policy.sealed σ)
  below : frame.scope.Below w.next
  numbered : w.Numbered

/-- The prelude takes as many numbers as it has natives. -/
theorem Frame.ready_of_prelude {frame : Frame} (base : Nat)
    (hscope : frame.scope = Scope.root.addAll (Builtin.bindings base))
    (hw : w.Obeys (Policy.sealed σ)) (hnumbered : w.Numbered)
    (hle : base + Builtin.all.length ≤ w.next) : frame.Ready w := by
  refine ⟨Frame.obeys_of_overPrelude (fun op id => ⟨op, id, rfl⟩) ⟨base, hscope⟩, hw, ?_, hnumbered⟩
  rw [hscope]
  refine Scope.below_addAll (fun _ _ => rfl) fun e he => ?_
  rcases List.mem_append.mp he with he | he
  · obtain ⟨i, hi, rfl⟩ := List.mem_mapIdx.mp he
    have hlt : base + i < w.next := by omega
    intro m hm
    simp only [Value.rename, Builtin.native, bump_eq_self_iff.mpr hlt m hm]
  · simp only [List.mem_cons, List.not_mem_nil, or_false] at he
    rcases he with rfl | rfl | rfl <;> exact Value.below_boolean _

theorem Program.ready_firstFrame : firstFrame.Ready firstWorld :=
  Frame.ready_of_prelude 1 rfl (World.obeys_of_caches_eq_nil rfl)
    (World.numbered_of_caches_eq_nil rfl) (by decide)

namespace Expr

variable {frame : Frame} {args : List Value} {code : Code} {v : Value}

theorem ensures_sealed (code : Code) (hs : frame.scope.Obeys (Policy.sealed σ))
    (hargs : ∀ a ∈ args, a.Obeys (Policy.sealed σ)) (hw : w.Obeys (Policy.sealed σ)) :
    Ensures ((Policy.sealed σ).contract.under fun _ => True) (Policy.sealed σ).Yields
      (code.eval frame args) w :=
  ensures_eval code frame args w (fun _ _ _ hocc => ⟨hocc, trivial⟩) hw hs hargs fun _ _ => trivial

/-- Evaluation in a ready place is the same with any host. -/
theorem runs_eval_iff_silent (hready : frame.Ready w) :
    (code.eval frame []).Runs host w v w' ↔ (code.eval frame []).Runs Host.silent w v w' :=
  runs_iff_of_ensures (fun _ _ _ _ => trivial)
    (ensures_sealed code hready.scope (List.forall_mem_nil _) hready.world)

/-- No signal fires during an evaluation in a ready place. -/
theorem undisturbed_eval (hready : frame.Ready w) (signal : Signal)
    (hfired : w.hasFired signal = false) :
    Undisturbed host signal (code.eval frame []) w := by
  intro q w' hcomes
  have hsilent : Comes Host.silent (code.eval frame []) w q w' :=
    comes_of_ensures (fun _ _ _ _ => trivial)
      (ensures_sealed code hready.scope (List.forall_mem_nil _) hready.world) hcomes
  have hforward := keeps_eval code frame [] w.next hready.below (List.forall_mem_nil _) w
    (Nat.le_refl _) hready.numbered
  have hfollows := (forward_of_comes (fun _ _ _ _ hc hw h =>
    Call.follows_of_answers Host.keeps_silent hc hw h) hforward hready.numbered hsilent).1
  rw [World.hasFired_of_follows hfollows, hfired]

end Expr

end ChainScript
