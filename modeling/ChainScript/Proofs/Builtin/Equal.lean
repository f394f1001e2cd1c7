import ChainScript.Proofs.Builtin.Numeric
import ChainScript.Proofs.Eval.Currying

/-! What `==` makes of its two arguments, and how a native that has a name is applied by it. -/
namespace ChainScript

open Proc

variable {σ : Type} {host : Host σ} {frame : Frame} {args : List Value} {u v : Value}
  {w w' : World σ} {x : String}

/-- A pinned argument answers with what its expression yields in the scope it is tied to. -/
theorem Call.answers_pin {e : Code} {scope : Scope}
    (h : (e.eval (frame.withScope scope) []).Runs host w v w') :
    Answers host ⟨Value.pin scope e, frame, []⟩ w v w' := by
  rw [answers_iff_runs]
  cases e with
  | number x =>
    rw [Expr.eval] at h
    exact h
  | string s =>
    rw [Expr.eval] at h
    exact h
  | empty =>
    rw [Expr.eval] at h
    exact h
  | _ => exact h

namespace Attempt

theorem runsBy_argument_value (args : List Value) (index : Nat) (hargs : args[index]? = some v)
    (hans : Call.Answers host ⟨v, frame, []⟩ w u w') (hu : u.isError = false) :
    RunsBy host [⟨v, frame, []⟩] (argument .value frame args index).run w (.ok u) w' := by
  unfold argument
  rw [hargs]
  exact runsBy_ok (runsBy_force hans hu) .done

end Attempt

namespace Builtin

open Attempt

/-- `==` compares the values that its arguments are forced to. -/
theorem runsBy_equal {a b : Value} (hforced : Forced host frame [a, b] w [u, v] w') :
    RunsBy host (forcings frame [a, b]) (equal.run frame [a, b]) w (.boolean (u.equals v)) w' := by
  cases hforced with
  | cons ha hu hrest =>
    cases hrest with
    | cons hb hv hnil =>
      cases hnil
      have hfirst := runsBy_argument_value [a, b] 0 rfl ha hu
      have hsecond := runsBy_argument_value [a, b] 1 rfl hb hv
      exact runsBy_result_bind hfirst (runsBy_result_bind hsecond .done)

theorem answers_equal {a b : Value} (id : Nat) (hstop : w.stop? (frame.enter "==") = none)
    (hforced : Forced host (frame.enter "==") [a, b] w [u, v] w') :
    Call.Answers host ⟨.native (equal.native id), frame, [a, b]⟩ w (.boolean (u.equals v)) w' := by
  rw [Call.answers_iff_runs]
  change Runs host (Call.runNative host (equal.native id) frame [a, b]) w _ w'
  have henough : ¬ [a, b].length < (equal.native id).arity.required := Nat.lt_irrefl 2
  unfold Call.runNative
  rw [if_neg henough]
  refine runs_bind (runs_stop? hstop) (runs_bind (runs_of_runsBy (runsBy_equal hforced)) ?_)
  exact runs_applyRest_of_isPlain rfl

end Builtin

namespace Expr

/-- A name that stands for a native is applied as the native is, its arguments being pinned. -/
theorem runs_apply_native_iff {n : Native} {own : List Code}
    (hfind : frame.scope.find? x = some (.value (.native n))) (hpos : 0 < n.arity.required)
    (horder : n.order = .savedFirst) :
    ((Expr.apply (.var x) own).eval frame args).Runs host w v w' ↔
      Call.Answers host ⟨.native n, frame, own.map (Value.pin frame.scope) ++ args⟩ w v w' := by
  have hfunc : ((Expr.var x).eval frame []).Runs host w (.native n) w := by
    rw [eval, hfind]
    exact runs_invoke (Call.answers_nil rfl hpos)
  rw [eval, runs_bind_iff hfunc]
  simp only [Value.isReversedNative, horder]
  exact runs_invoke_iff

end Expr

end ChainScript
