import ChainScript.Proofs.Program

/-!
Lexical scoping. In the evaluation of a program all code is tied to a scope, and what such values do
when they are called does not depend on the scope of the caller.
-/
namespace ChainScript

open Proc

variable {σ : Type} {host : Host σ} {w : World σ}

/-- Only natives of the prelude, and no code without a scope. -/
def Policy.sealed (σ : Type) : Policy σ where
  native n := ∃ op id, n = Builtin.native op id
  result _ := True
  item _ := True
  waiting _ _ _ _ := True
  memo _ _ _ := True
  stored _ _ _ := True
  known _ _ _ _ := True
  builtin_of_native := by
    rintro n ⟨op, id, rfl⟩
    exact ⟨op, rfl⟩
  result_of_isEvaluated _ := trivial
  item_of_result _ _ := trivial
  result_of_item _ := trivial
  waiting_native _ _ _ := trivial
  waiting_closure _ _ := trivial
  waiting_combine _ _ := trivial
  stored_of_known _ _ _ := trivial

/-- A call of sealed values is answered in the same way whatever the scope of its frame. -/
theorem Call.answer_withScope {c : Call} (fuel : Nat) (hc : c.Obeys (Policy.sealed σ))
    (hw : w.Obeys (Policy.sealed σ)) (s : Scope) :
    answer host fuel { c with frame := c.frame.withScope s } w = answer host fuel c w := by
  induction fuel generalizing c w s with
  | zero => rfl
  | succ fuel ih =>
    refine (exec_eq_of_agree (agree_proc hc hw s) ?_ ?_).symm
    · intro d d' w u w' _ hask hans
      exact ⟨trivial, yields_of_answers (fun _ _ _ _ => trivial) hask.2.1 hask.2.2 ⟨fuel, hans⟩⟩
    · intro d d' w halike hask
      rw [halike]
      exact (ih hask.2.1 hask.2.2 _).symm

namespace Program

variable {registry : Registry} {program : Program} {next next' : Nat} {w₀ : World σ}
  {frame : Frame}

/--
Whatever is called in the evaluation of a program is sealed, and so is what the calls yield; and
sealed values do the same when they are called in frames that differ in their scopes.
-/
theorem caller_scope_invisible (hreg : registry.Loaded next)
    (hprogram : program.OfSource registry next next')
    (hargs : ∀ a ∈ program.args, a.Obeys (Policy.sealed σ)) (hw : w₀.Obeys (Policy.sealed σ))
    (hframe : frame.OverPrelude) :
    (∀ c w, Reaches host (program.start frame) w₀ c w →
      c.Obeys (Policy.sealed σ) ∧ w.Obeys (Policy.sealed σ) ∧
        ∀ v w', c.Answers host w v w' →
          v.Obeys (Policy.sealed σ) ∧ w'.Obeys (Policy.sealed σ)) ∧
    ∀ (f : Value) (args : List Value) (w : World σ), f.Obeys (Policy.sealed σ) →
      (∀ a ∈ args, a.Obeys (Policy.sealed σ)) → w.Obeys (Policy.sealed σ) →
      ∀ caller caller' : Frame, caller.path = caller'.path → caller.signal = caller'.signal →
        caller.depth = caller'.depth → caller.maxDepth = caller'.maxDepth →
        ∀ v w', Call.Answers host ⟨f, caller, args⟩ w v w' ↔
          Call.Answers host ⟨f, caller', args⟩ w v w' := by
  constructor
  · obtain ⟨given, -, hloaded⟩ := loaded_of_ofSource hreg hprogram
    have hprelude : (Policy.sealed σ).HasPrelude := fun op id => ⟨op, id, rfl⟩
    intro c w hreach
    obtain ⟨hc, hw'⟩ := obeys_of_reaches hloaded (fun _ _ _ _ => trivial) (fun _ _ _ _ => trivial)
      hprelude hframe hargs hw hreach
    refine ⟨hc, hw', ?_⟩
    intro v w' hans
    have hyields := Call.yields_of_answers (fun _ _ _ _ => trivial) hc hw' hans
    exact ⟨hyields.2.1, hyields.1⟩
  · intro f args w hf hfargs hw' caller caller' hpath hsignal hdepth hmax v w'
    have hcaller : caller' = caller.withScope caller'.scope := by
      obtain ⟨scope, path, signal, depth, maxDepth⟩ := caller
      obtain ⟨scope', path', signal', depth', maxDepth'⟩ := caller'
      simp only at hpath hsignal hdepth hmax
      subst hpath hsignal hdepth hmax
      rfl
    rw [hcaller]
    have hc : Call.Obeys (Policy.sealed σ) ⟨f, caller, args⟩ := ⟨hf, hfargs⟩
    refine exists_congr fun fuel => ?_
    rw [← Call.answer_withScope fuel hc hw' caller'.scope]

/-- A function that hands its argument on, called where the name of its parameter is taken. -/
theorem caller_scope_invisible_param :
    ∃ program next', OfSource [] 0 program next' ∧
      ∀ v w', Call.Answers Host.none
          ⟨.closure 0 ⟨"f", ["x"], .var "x"⟩ .root, firstFrame, [.string "a"]⟩ firstWorld v w' ↔
        Call.Answers Host.none
          ⟨.closure 0 ⟨"f", ["x"], .var "x"⟩ .root,
            firstFrame.withScope (Scope.root.add "x" (.string "b")), [.string "a"]⟩
          firstWorld v w' := by
  have hparse : (Expr.ofSource "(@ f x => x) 'a'").toOption.isSome = true := by decide +kernel
  obtain ⟨e, he⟩ : ∃ e, Expr.ofSource "(@ f x => x) 'a'" = .ok e := by
    cases h : Expr.ofSource "(@ f x => x) 'a'" with
    | error cause => simp [h, Except.toOption] at hparse
    | ok e => exact ⟨e, rfl⟩
  have hprogram : OfSource [] 0 (fragment (e.allot 0).1) (e.allot 0).2 := .fragment he
  have hworld : firstWorld.Obeys (Policy.sealed Unit) := World.obeys_of_caches_eq_nil rfl
  refine ⟨_, _, hprogram, ?_⟩
  exact (caller_scope_invisible (Registry.loaded_nil 0) hprogram (by simp [args]) hworld
    overPrelude_firstFrame).2 _ _ _ (.closure 0 (fun _ _ _ _ => trivial) .root)
    (by simp [Value.Obeys.string]) hworld _ _ rfl rfl rfl rfl

end Program

end ChainScript
