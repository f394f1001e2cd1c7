import ChainScript.Proofs.Eval.Currying

/-!
Applications that are given more arguments, as the segments of a chain are. What an application does
with them is what its own partial application does, except where the function is a partial
application that puts later arguments first: its own arguments then stay in front of the later ones.
-/
namespace ChainScript

open Proc

variable {σ : Type} {host : Host σ} {f : Code} {own : List Code} {func p v : Value}
  {frame : Frame} {given args : List Value} {w w' w₁ w₂ : World σ}

/-- The function takes `count` more arguments and no others, in the order they are given in. -/
inductive Value.Takes : Value → Nat → Prop
  | native {n : Native} {count : Nat} (harity : n.arity = .exact count)
      (horder : n.order = .savedFirst) : Takes (.native n) count
  | closure (id : Nat) (l : Lambda Code) (scope : Scope) :
      Takes (.closure id l scope) l.params.length
  | curried (id : Nat) {count : Nat} {func : Value} {saved : List Value}
      (hf : func.Takes (saved.length + count)) :
      Takes (.curried id func saved (saved.length + count) .savedFirst) count

/-- Such a function is none that puts later arguments in front. -/
theorem Value.forward_of_takes {count : Nat} (h : func.Takes count) :
    func.isError = false ∧ func.isReversedNative = false := by
  cases h with
  | native _ horder => simp [isError, isReversedNative, horder]
  | closure id l scope => exact ⟨rfl, rfl⟩
  | curried id hf => exact ⟨rfl, rfl⟩

namespace Call

/-- The body of a function behind its check, and what is left over applied to its result. -/
def checked (inner : Frame) (body : Proc σ Value) (frame : Frame) (rest : List Value) :
    Proc σ Value := do
  if let some e ← Proc.stop? inner then return e
  applyRest (← body) frame rest

/-- What is left over may as well be applied after the body has come to its end. -/
theorem runs_checked_iff {inner : Frame} {body : Proc σ Value} :
    (checked inner body frame args).Runs host w v w' ↔
      (checked inner body frame [] >>= fun u => applyRest u frame args).Runs host w v w' := by
  unfold checked
  rw [bind_bind]
  cases hstop : w.stop? inner with
  | some cause =>
    have hrun : (Proc.stop? inner).Runs host w _ _ := runs_stop?_some hstop
    have herror : applyRest (.error w.next ⟨cause, inner.path⟩) frame args =
        (done (.error w.next ⟨cause, inner.path⟩) : Proc σ Value) := by
      rw [applyRest, Value.isError, Bool.or_true, if_pos rfl]
      rfl
    rw [runs_bind_iff hrun, runs_bind_iff hrun]
    change Runs host (done _) _ v w' ↔ Runs host (applyRest _ frame args) _ v w'
    rw [herror]
  | none =>
    have hrun : (Proc.stop? inner).Runs host w none w := runs_stop? hstop
    rw [runs_bind_iff hrun, runs_bind_iff hrun]
    dsimp only
    rw [bind_bind]
    rfl

/-- A function whose body has all its arguments, whatever else it is given. -/
theorem answers_checked_iff {inner : Frame} {body : Proc σ Value}
    (h : ∀ rest, proc host ⟨func, frame, given ++ rest⟩ = checked inner body frame rest) :
    Answers host ⟨func, frame, given ++ args⟩ w v w' ↔
      (invoke func frame given >>= fun u => applyRest u frame args).Runs host w v w' := by
  have halone : proc host ⟨func, frame, given⟩ = checked inner body frame [] := by
    simpa using h []
  rw [answers_iff_runs, h, runs_checked_iff]
  refine runs_bind_congr fun u w₁ => ?_
  rw [runs_invoke_iff, answers_iff_runs, halone]

/-- A function that takes just the given arguments gets them first, and its result gets the rest. -/
theorem answers_surplus_iff {count : Nat} (hfunc : func.Takes count) (hcount : given.length = count)
    (hgiven : given ≠ []) :
    Answers host ⟨func, frame, given ++ args⟩ w v w' ↔
      (invoke func frame given >>= fun u => applyRest u frame args).Runs host w v w' := by
  induction hfunc generalizing given with
  | @native n count harity horder =>
    subst hcount
    have hproc (rest : List Value) : proc host ⟨.native n, frame, given ++ rest⟩ =
        checked (frame.enter n.name) (nativeBody host n.operation (frame.enter n.name) given)
          frame rest := by
      have henough : ¬ (given ++ rest).length < given.length := by simp
      simp only [proc, runNative, harity, Arity.required, if_neg henough, List.take_left',
        List.drop_left']
      rfl
    exact answers_checked_iff hproc
  | closure id l scope =>
    have hproc (rest : List Value) : proc host ⟨.closure id l scope, frame, given ++ rest⟩ =
        checked (frame.descend l.name) (l.body.eval ((frame.descend l.name).withScope
          ((scope.add l.name (.closure id l scope)).addAll (l.params.zip given))) [])
          frame rest := by
      have henough : ¬ (given ++ rest).length < l.params.length := by simp [hcount]
      have hzip : (l.params ++ []).zip (given ++ rest) = l.params.zip given ++ [].zip rest :=
        List.zip_append hcount.symm
      have hdrop : (given ++ rest).drop l.params.length = rest := by rw [← hcount, List.drop_left]
      rw [List.append_nil, List.zip_nil_left, List.append_nil] at hzip
      simp only [proc, runClosure, if_neg henough, hzip, hdrop]
      rfl
    exact answers_checked_iff hproc
  | @curried id count func saved hf ih =>
    have hwait : (Value.curried id func saved (saved.length + count) .savedFirst).wait? =
        some ⟨func, saved, saved.length + count, .savedFirst⟩ := rfl
    have henough {more : List Value} (h : given.length ≤ more.length) :
        Wait.remaining ⟨func, saved, saved.length + count, .savedFirst⟩ ≤ more.length := by
      simp only [Wait.remaining]
      omega
    rw [answers_enough hwait (by simp [hgiven]) (henough (by simp)), combine, ← List.append_assoc,
      ih (by simp [hcount]) (by simp [hgiven])]
    refine runs_bind_congr fun u w₁ => ?_
    rw [runs_invoke_iff, runs_invoke_iff, answers_enough hwait hgiven (henough (Nat.le_refl _))]
    rfl

end Call

namespace Expr

theorem runs_apply_iff (hfunc : (f.eval frame []).Runs host w func w₁)
    (herror : func.isError = false) :
    ((apply f own).eval frame args).Runs host w v w' ↔
      Call.Answers host ⟨func, frame,
        if func.isReversedNative then args ++ own.map (Value.pin frame.scope)
        else own.map (Value.pin frame.scope) ++ args⟩ w₁ v w' := by
  unfold eval
  rw [runs_bind_iff hfunc, herror]
  exact runs_invoke_iff

/-- The arguments of an application as the function gets them. -/
theorem arguments_eq_combine {wait : Wait} (hwait : func.wait? = some wait)
    (horder : (∃ n, func = .native n) ∨ wait.order = .savedFirst) :
    (if func.isReversedNative then args ++ given else given ++ args) =
      Call.combine wait.order given args := by
  cases func with
  | native n =>
    obtain rfl := Option.some.inj hwait
    cases h : n.order <;> simp [Value.isReversedNative, Call.combine, h]
  | closure id l scope =>
    obtain rfl := Option.some.inj hwait
    rfl
  | curried id func saved arity order =>
    obtain rfl := Option.some.inj hwait
    obtain ⟨n, hn⟩ | rfl := horder
    · cases hn
    · rfl
  | _ => cases hwait

theorem isError_of_wait? {wait : Wait} (hwait : func.wait? = some wait) : func.isError = false := by
  cases func <;> first | rfl | cases hwait

/--
Where the own arguments of an application are too few for its function, later arguments reach the
function in the order in which the partial application would pass them on.
-/
theorem apply_of_few {wait : Wait} (hfunc : (f.eval frame []).Runs host w func w₁)
    (hwait : func.wait? = some wait)
    (horder : (∃ n, func = .native n) ∨ wait.order = .savedFirst) (hown : own ≠ [])
    (hfew : own.length < wait.remaining) (hargs : args ≠ []) :
    let given := own.map (Value.pin frame.scope)
    let p := wait.save w₁.next given
    let w₂ := { w₁ with next := w₁.next + 1 }
    ((apply f own).eval frame []).Runs host w p w₂ ∧
      (∀ v w', ((apply f own).eval frame args).Runs host w v w' ↔
        Call.Answers host ⟨func, frame, Call.combine wait.order given args⟩ w₁ v w') ∧
      ∀ v w', Call.Answers host ⟨p, frame, args⟩ w₂ v w' ↔
        Call.Answers host ⟨func, frame, Call.combine wait.order given args⟩ w₂ v w' := by
  intro given p w₂
  have herror := isError_of_wait? hwait
  have hgiven : given ≠ [] := by simpa [given] using hown
  have hlength : given.length < wait.remaining := by simpa [given] using hfew
  refine ⟨?_, ?_, ?_⟩
  · rw [runs_apply_iff hfunc herror, arguments_eq_combine hwait horder, Call.combine_nil_right]
    exact Call.answers_few hwait hgiven hlength
  · intro v w'
    rw [runs_apply_iff hfunc herror, arguments_eq_combine hwait horder]
  · exact fun v w' => Call.answers_save hwait hargs hlength

/-- Where the own arguments are just those the function takes, its result gets the later ones. -/
theorem apply_of_takes (hfunc : (f.eval frame []).Runs host w func w₁)
    (htakes : func.Takes own.length) (hown : own ≠ []) (hargs : args ≠ [])
    (hp : ((apply f own).eval frame []).Runs host w p w₂) (herror : p.isError = false) :
    ((apply f own).eval frame args).Runs host w v w' ↔
      Call.Answers host ⟨p, frame, args⟩ w₂ v w' := by
  obtain ⟨hfuncError, hforward⟩ := Value.forward_of_takes htakes
  rw [runs_apply_iff hfunc hfuncError, hforward] at hp ⊢
  simp only [Bool.false_eq_true, if_false, List.append_nil] at hp ⊢
  rw [Call.answers_surplus_iff htakes (by simp) (by simpa using hown),
    runs_bind_iff (runs_invoke hp), applyRest, herror, Bool.or_false, if_neg (by simpa using hargs)]
  exact runs_invoke_iff

/--
An application that is given more arguments does with them what its own partial application `p`
does. It passes the same arguments on in the same order, only without taking a number for `p`; and
where nothing depends on which numbers are used, what the two end with differs in its numbers only.
This is so if the own arguments are too few for a native, a function of a script or a partial
application that puts later arguments last, and if they are just those that such a function takes
and `p` is its result.
-/
theorem apply_same_as_partial {wait : Wait} (hfunc : (f.eval frame []).Runs host w func w₁)
    (hwait : func.wait? = some wait) (hown : own ≠ []) (hargs : args ≠ [])
    (hp : ((apply f own).eval frame []).Runs host w p w₂) (herror : p.isError = false) :
    (own.length < wait.remaining → (∃ n, func = .native n) ∨ wait.order = .savedFirst →
      let all := Call.combine wait.order (own.map (Value.pin frame.scope)) args
      w₂ = { w₁ with next := w₁.next + 1 } ∧
      (∀ v w', ((apply f own).eval frame args).Runs host w v w' ↔
        Call.Answers host ⟨func, frame, all⟩ w₁ v w') ∧
      (∀ v w', Call.Answers host ⟨p, frame, args⟩ w₂ v w' ↔
        Call.Answers host ⟨func, frame, all⟩ w₂ v w') ∧
      ∀ move : σ → σ,
        let ρ := Renaming.shift w₁.next 1 move
        host.Respects ρ → ρ.Spares ⟨func, frame, all⟩ w₁ →
          ∀ u w₃, Call.Answers host ⟨p, frame, args⟩ w₂ u w₃ ↔
            ∃ v w', ((apply f own).eval frame args).Runs host w v w' ∧
              u = v.rename ρ.number ∧ w₃ = w'.rename ρ) ∧
    (func.Takes own.length →
      ∀ v w', ((apply f own).eval frame args).Runs host w v w' ↔
        Call.Answers host ⟨p, frame, args⟩ w₂ v w') := by
  refine ⟨?_, fun htakes v w' => apply_of_takes hfunc htakes hown hargs hp herror⟩
  intro hfew horder all
  obtain ⟨hsaved, hdirect, hpartial⟩ := apply_of_few hfunc hwait horder hown hfew hargs
  obtain ⟨rfl, rfl⟩ := runs_unique hp hsaved
  refine ⟨rfl, hdirect, hpartial, ?_⟩
  intro move ρ hhost hspares u w₃
  -- The world in which the number of the partial application has been taken is the renamed one.
  have hnext : ρ.number w₁.next = w₁.next + 1 := if_neg (Nat.lt_irrefl w₁.next)
  simp only [hdirect]
  rw [hpartial, ← Call.answers_rename_iff hhost (Nat.le_refl w₁.next), hspares.1, hspares.2, hnext]

end Expr

namespace Reversed

/-- A host with a function that lists its arguments, forced in order. -/
def listing : Host Unit := fun _ frame args =>
  Attempt.result do return .array (← Attempt.forceAll frame args)

/-- The function takes three arguments, later ones in front of those given first. -/
def list : Value := .native ⟨0, "list", .exact 3, .savedLast, .host 0⟩

/-- The function, and the function with its last argument given. -/
def scope : Scope :=
  (Scope.root.add "list" list).add "ending" (.curried 1 list [.string "c"] 3 .savedLast)

def scene : Frame := Frame.ofScope scope ⟨2, none⟩

def before : World Unit := { World.initial 0 () with next := 3 }

def after : World Unit := { World.initial 0 () with next := 4 }

/--
The own argument of an application of the function itself stands behind those given later, as it
does in the partial application that saves it.
-/
theorem apply_same_as_partial_list :
    let e : Code := .apply (.var "list") [.string "c"]
    let p := Value.curried 3 list [.string "c"] 3 .savedLast
    let all := [Value.string "a", .string "b", .string "c"]
    (e.eval scene []).Runs listing before p after ∧
      (∀ v w', (e.eval scene [.string "a", .string "b"]).Runs listing before v w' ↔
        Call.Answers listing ⟨list, scene, all⟩ before v w') ∧
      (∀ v w', Call.Answers listing ⟨p, scene, [.string "a", .string "b"]⟩ after v w' ↔
        Call.Answers listing ⟨list, scene, all⟩ after v w') ∧
      Call.Answers listing ⟨list, scene, all⟩ before (.array all) before ∧
      Call.Answers listing ⟨list, scene, all⟩ after (.array all) after := by
  intro e p all
  have hlist : (Expr.eval (.var "list") scene []).Runs listing before list before := ⟨1, rfl⟩
  have hp : (e.eval scene []).Runs listing before p after := ⟨1, rfl⟩
  have hsame := Expr.apply_same_as_partial hlist rfl (List.cons_ne_nil _ _)
    (List.cons_ne_nil (Value.string "a") [.string "b"]) hp rfl
  obtain ⟨-, hdirect, hpartial, -⟩ := hsame.1 (by decide) (.inl ⟨_, rfl⟩)
  exact ⟨hp, hdirect, hpartial, ⟨2, rfl⟩, ⟨2, rfl⟩⟩

/--
Where the function is a partial application already, the own argument of the application comes to
stand in front of those given later, although it stands behind them in the partial application that
saves it.
-/
theorem apply_differs_from_partial :
    let e : Code := .apply (.var "ending") [.string "b"]
    let p := Value.curried 3 list [.string "b", .string "c"] 3 .savedLast
    (e.eval scene []).Runs listing before p after ∧
      (e.eval scene [.string "a"]).Runs listing before
        (.array [.string "b", .string "a", .string "c"]) before ∧
      Call.Answers listing ⟨p, scene, [.string "a"]⟩ after
        (.array [.string "a", .string "b", .string "c"]) after :=
  ⟨⟨1, rfl⟩, ⟨3, rfl⟩, ⟨3, rfl⟩⟩

end Reversed

end ChainScript
