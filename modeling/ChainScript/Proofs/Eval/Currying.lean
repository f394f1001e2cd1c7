import ChainScript.Proofs.Eval.Mirrors

/-!
Currying. A function may be given its arguments in as many calls as one likes: all but the last only
save them, and the last does what a single call with all the arguments does.
-/
namespace ChainScript

open Proc

variable {σ : Type} {host : Host σ} {f v : Value} {frame : Frame} {w w' : World σ}

/-- What a function waits for: the arguments saved so far, and how many it takes in which order. -/
structure Wait where
  func : Value
  saved : List Value
  arity : Nat
  order : Order

/-- The number of arguments still to come before the function runs. -/
def Wait.remaining (wait : Wait) : Nat := wait.arity - wait.saved.length

/-- The function with more arguments saved. -/
def Wait.save (wait : Wait) (id : Nat) (args : List Value) : Value :=
  .curried id wait.func (Call.combine wait.order wait.saved args) wait.arity wait.order

/-- What the function waits for when more arguments are saved. -/
def Wait.after (wait : Wait) (args : List Value) : Wait :=
  { wait with saved := Call.combine wait.order wait.saved args }

/-- Functions, and what they wait for. -/
def Value.wait? : Value → Option Wait
  | native n => some ⟨native n, [], n.arity.required, n.order⟩
  | closure id l scope => some ⟨closure id l scope, [], l.params.length, .savedFirst⟩
  | curried _ func saved arity order => some ⟨func, saved, arity, order⟩
  | _ => none

namespace Call

/-- Calls a value with the first chunk of arguments, its result with the second, and so on. -/
def inTurn (frame : Frame) : Value → List (List Value) → Proc σ Value
  | f, [] => return f
  | f, chunk :: rest => do inTurn frame (← invoke f frame chunk) rest

/-- All the arguments in the order in which a function gets them. -/
def arrange (order : Order) (chunks : List (List Value)) : List Value :=
  match order with
  | .savedFirst => chunks.flatten
  | .savedLast => chunks.reverse.flatten

/-- How many more partial applications are built than by a single call with all the arguments. -/
def extra (chunks : List (List Value)) : Nat := (chunks.filter (· ≠ [])).length - 1

theorem combine_nil_left (order : Order) (xs : List Value) : combine order [] xs = xs := by
  cases order <;> simp [combine]

theorem combine_nil_right (order : Order) (xs : List Value) : combine order xs [] = xs := by
  cases order <;> simp [combine]

theorem combine_assoc (order : Order) (xs ys zs : List Value) :
    combine order (combine order xs ys) zs = combine order xs (combine order ys zs) := by
  cases order <;> simp [combine]

theorem length_combine (order : Order) (xs ys : List Value) :
    (combine order xs ys).length = xs.length + ys.length := by
  cases order <;> simp [combine, Nat.add_comm]

theorem wait?_save (wait : Wait) (id : Nat) (args : List Value) :
    (wait.save id args).wait? = some (wait.after args) := rfl

theorem remaining_after (wait : Wait) (args : List Value) :
    (wait.after args).remaining = wait.remaining - args.length := by
  simp only [Wait.remaining, Wait.after, length_combine]
  omega

theorem arrange_cons (order : Order) (chunk : List Value) (rest : List (List Value)) :
    arrange order (chunk :: rest) = combine order chunk (arrange order rest) := by
  cases order <;> simp [arrange, combine]

/-- What a function does with fewer arguments than it waits for. -/
theorem proc_of_few {wait : Wait} {args : List Value} (hf : f.wait? = some wait)
    (h : args.length < wait.remaining) :
    proc host ⟨f, frame, args⟩ =
      if args = [] then done f else fresh >>= fun id => done (wait.save id args) := by
  cases f with
  | native n =>
    obtain rfl := Option.some.inj hf
    have hfew : args.length < n.arity.required := h
    simp only [proc, runNative, if_pos hfew, Wait.save, combine_nil_left]
    cases args <;> rfl
  | closure id l scope =>
    obtain rfl := Option.some.inj hf
    have hfew : args.length < l.params.length := h
    simp only [proc, runClosure, if_pos hfew]
    cases args <;> rfl
  | curried id func saved arity order =>
    obtain rfl := Option.some.inj hf
    cases args with
    | nil => rfl
    | cons a args =>
      have hfew : (combine order saved (a :: args)).length < arity := by
        rw [length_combine]
        simp only [Wait.remaining] at h
        omega
      simp only [proc, runCurried, if_pos hfew]
      rfl
  | _ => cases hf

theorem answers_nil {wait : Wait} (hf : f.wait? = some wait) (h : 0 < wait.remaining) :
    Answers host ⟨f, frame, []⟩ w f w := by
  have hproc : proc host ⟨f, frame, []⟩ = done f := proc_of_few hf h
  rw [answers_iff_runs, hproc]
  exact runs_done

theorem answers_few {wait : Wait} {args : List Value} (hf : f.wait? = some wait) (hne : args ≠ [])
    (h : args.length < wait.remaining) :
    Answers host ⟨f, frame, args⟩ w (wait.save w.next args) { w with next := w.next + 1 } := by
  rw [answers_iff_runs, proc_of_few hf h, if_neg hne]
  exact ⟨0, rfl⟩

/-- With enough arguments, those saved and those given are passed on together. -/
theorem answers_enough {wait : Wait} {args : List Value} (hf : f.wait? = some wait)
    (hne : args ≠ []) (h : wait.remaining ≤ args.length) :
    Answers host ⟨f, frame, args⟩ w v w' ↔
      Answers host ⟨wait.func, frame, combine wait.order wait.saved args⟩ w v w' := by
  cases f with
  | native n =>
    obtain rfl := Option.some.inj hf
    rw [combine_nil_left]
  | closure id l scope =>
    obtain rfl := Option.some.inj hf
    rfl
  | curried id func saved arity order =>
    obtain rfl := Option.some.inj hf
    have henough : ¬ (combine order saved args).length < arity := by
      rw [length_combine]
      simp only [Wait.remaining] at h
      omega
    have hproc : proc host ⟨.curried id func saved arity order, frame, args⟩ =
        invoke func frame (combine order saved args) := by
      cases args with
      | nil => exact (hne rfl).elim
      | cons a args =>
        simp only [proc, runCurried, if_neg henough]
        rfl
    rw [answers_iff_runs, hproc]
    exact runs_invoke_iff
  | _ => cases hf

/-- A function with more arguments saved does with others what it would do with them all. -/
theorem answers_save {wait : Wait} {args more : List Value} {id : Nat}
    (hf : f.wait? = some wait) (hne : more ≠ []) (h : args.length < wait.remaining) :
    Answers host ⟨wait.save id args, frame, more⟩ w v w' ↔
      Answers host ⟨f, frame, combine wait.order args more⟩ w v w' := by
  have hwait := wait?_save wait id args
  have hremaining := remaining_after wait args
  have hall : combine wait.order args more ≠ [] := by
    intro hnil
    have hlength := congrArg List.length hnil
    rw [length_combine, List.length_nil] at hlength
    exact hne (List.length_eq_zero_iff.mp (by omega))
  by_cases hfew : args.length + more.length < wait.remaining
  · have hmore : Answers host ⟨wait.save id args, frame, more⟩ w _ _ :=
      answers_few hwait hne (by omega)
    have hboth : Answers host ⟨f, frame, combine wait.order args more⟩ w _ _ :=
      answers_few hf hall (by rwa [length_combine])
    rw [answers_iff_of_answers hmore, answers_iff_of_answers hboth]
    simp only [Wait.save, Wait.after, combine_assoc]
  · rw [answers_enough hwait hne (by omega), answers_enough hf hall (by rw [length_combine]; omega),
      Wait.after, combine_assoc]

theorem arrange_eq_nil_iff {order : Order} {chunks : List (List Value)} :
    arrange order chunks = [] ↔ chunks.filter (· ≠ []) = [] := by
  cases order <;> simp [arrange, List.flatten_eq_nil_iff]

theorem extra_of_arrange_eq_nil {order : Order} {chunks : List (List Value)}
    (h : arrange order chunks = []) : extra chunks = 0 := by
  rw [extra, arrange_eq_nil_iff.mp h]
  rfl

theorem extra_cons_of_arrange_eq_nil {order : Order} {rest : List (List Value)}
    (h : arrange order rest = []) (chunk : List Value) : extra (chunk :: rest) = 0 := by
  rw [extra, List.filter_cons, arrange_eq_nil_iff.mp h]
  split <;> rfl

theorem extra_cons {order : Order} {chunk : List Value} {rest : List (List Value)}
    (hchunk : chunk ≠ []) (hrest : arrange order rest ≠ []) :
    extra (chunk :: rest) = 1 + extra rest := by
  have hsome : 0 < (rest.filter (· ≠ [])).length :=
    List.length_pos_iff.mpr (mt arrange_eq_nil_iff.mpr hrest)
  rw [extra, extra, List.filter_cons, if_pos (decide_eq_true hchunk), List.length_cons]
  omega

/--
Arguments given in turn have the effect of a single call with all of them, made when numbers have
been used up for the partial applications on the way.
-/
theorem runs_inTurn_iff {wait : Wait} (init : List (List Value)) (last : List Value)
    (hf : f.wait? = some wait) (h : init = [] ∨ init.flatten.length < wait.remaining) :
    (inTurn frame f (init ++ [last])).Runs host w v w' ↔
      Answers host ⟨f, frame, arrange wait.order (init ++ [last])⟩
        { w with next := w.next + extra (init ++ [last]) } v w' := by
  -- Each call but the last only saves its arguments, so the induction goes on with another function
  -- that waits for less.
  induction init generalizing f wait w with
  | nil =>
    have hargs : arrange wait.order [last] = last := by
      cases wait.order <;> simp [arrange]
    have hextra : extra [last] = 0 := by
      have := List.length_filter_le (· ≠ []) [last]
      simp only [extra, List.length_singleton] at this ⊢
      omega
    rw [List.nil_append, hargs, hextra]
    exact runs_invoke_iff
  | cons chunk init ih =>
    have hfew : chunk.length + init.flatten.length < wait.remaining := by simpa using h
    rw [List.cons_append, arrange_cons]
    by_cases hchunk : chunk = []
    · subst hchunk
      have hself : (invoke f frame []).Runs host w f w :=
        runs_invoke (answers_nil hf (by omega))
      rw [inTurn, runs_bind_iff hself, combine_nil_left,
        ih hf (.inr (by simpa using hfew))]
      rfl
    · have hsaved : (invoke f frame chunk).Runs host w (wait.save w.next chunk)
          { w with next := w.next + 1 } := runs_invoke (answers_few hf hchunk (by omega))
      have hwait := wait?_save wait w.next chunk
      have hremaining := remaining_after wait chunk
      rw [inTurn, runs_bind_iff hsaved, ih hwait (.inr (by omega)), Wait.after]
      -- With nothing more to come the saved arguments stay, and no other number is taken.
      by_cases hrest : arrange wait.order (init ++ [last]) = []
      · rw [hrest, combine_nil_right, extra_cons_of_arrange_eq_nil hrest chunk,
          extra_of_arrange_eq_nil hrest, answers_iff_of_answers (answers_nil hwait (by omega)),
          answers_iff_of_answers (answers_few hf hchunk (by omega))]
        rfl
      · rw [answers_save hf hrest (by omega), extra_cons hchunk hrest, Nat.add_assoc]

/--
Arguments given in turn have the result and the effects of a single call with all of them, made when
the numbers for the partial applications on the way have been used up. Where nothing depends on
which numbers are used, it could as well be made at once: what the two build then differs in its
numbers only.
-/
theorem inTurn_same_as_once {wait : Wait} (init : List (List Value)) (last : List Value)
    (hf : f.wait? = some wait) (h : init = [] ∨ init.flatten.length < wait.remaining) :
    (∀ v w', (inTurn frame f (init ++ [last])).Runs host w v w' ↔
        Answers host ⟨f, frame, arrange wait.order (init ++ [last])⟩
          { w with next := w.next + extra (init ++ [last]) } v w') ∧
      ∀ move : σ → σ,
        let ρ := Renaming.shift w.next (extra (init ++ [last])) move
        host.Respects ρ → ρ.Spares ⟨f, frame, arrange wait.order (init ++ [last])⟩ w →
          ∀ u w₁, (inTurn frame f (init ++ [last])).Runs host w u w₁ ↔
            ∃ v w', Answers host ⟨f, frame, arrange wait.order (init ++ [last])⟩ w v w' ∧
              u = v.rename ρ.number ∧ w₁ = w'.rename ρ := by
  refine ⟨fun v w' => runs_inTurn_iff init last hf h, ?_⟩
  intro move ρ hhost hspares u w₁
  -- The world in which the numbers have been used up is the renamed one.
  have hnext : ρ.number w.next = w.next + extra (init ++ [last]) := if_neg (Nat.lt_irrefl w.next)
  rw [runs_inTurn_iff init last hf h, ← answers_rename_iff hhost (Nat.le_refl w.next), hspares.1,
    hspares.2, hnext]

/-- An empty chunk, later arguments in front of earlier ones, and one argument too many. -/
theorem inTurn_same_as_once_equal :
    let f := Value.native ⟨0, "==", .exact 2, .savedLast, .builtin .equal⟩
    let frame := Frame.ofScope .root ⟨0, none⟩
    let w := { World.initial 0 () with next := 1 }
    let ρ := Renaming.shift w.next 1 id
    ([[Value.string "a"], []].flatten.length < 2 ∧ Host.none.Respects ρ ∧
        ρ.Spares ⟨f, frame, [.string "b", .string "b", .string "a"]⟩ w) ∧
      (inTurn frame f [[.string "a"], [], [.string "b", .string "b"]]).Runs Host.none w
        (.boolean true) (w.rename ρ) := by
  intro f frame w ρ
  have hfew : [[Value.string "a"], []].flatten.length < 2 := by decide
  have hhost : Host.none.Respects ρ := Host.respects_none ρ
  have hspares : ρ.Spares ⟨f, frame, [.string "b", .string "b", .string "a"]⟩ w := ⟨rfl, rfl⟩
  have honce := @inTurn_same_as_once Unit Host.none f frame w _ [[.string "a"], []]
    [.string "b", .string "b"] rfl (.inr hfew)
  refine ⟨⟨hfew, hhost, hspares⟩, ?_⟩
  exact (honce.2 id hhost hspares _ _).mpr ⟨.boolean true, w, ⟨4, rfl⟩, rfl, rfl⟩

end Call

end ChainScript
