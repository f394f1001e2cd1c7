import ChainScript.Proofs.Eval.Currying
import ChainScript.Proofs.Program

/-!
The numeric functions of the prelude. Each of them calls its arguments without arguments, in order,
and takes what it gets for numbers, up to the first value that is none. Only `+` does this twice: it
forces all its arguments first, and then adds up what it gets in the same way as if these values
were its arguments.
-/
namespace ChainScript

variable {σ α β : Type} {host : Host σ} {frame : Frame} {args values : List Value} {u v : Value}
  {cs ds : List Call} {a : α} {w w' w₁ : World σ}

namespace Proc

/-- The procedure makes the calls `cs`, one after the other, and ends with the result `a`. -/
inductive RunsBy (host : Host σ) : List Call → Proc σ α → World σ → α → World σ → Prop
  | done {a : α} {w : World σ} : RunsBy host [] (done a) w a w
  | call {c : Call} {cs : List Call} {next : Value → Proc σ α} {v : Value} {a : α}
      {w w₁ w' : World σ} (hc : c.Answers host w v w₁) (hn : RunsBy host cs (next v) w₁ a w') :
      RunsBy host (c :: cs) (call c next) w a w'
  | read {cs : List Call} {next : World σ → Proc σ α} {a : α} {w w' : World σ}
      (hn : RunsBy host cs (next w) w a w') : RunsBy host cs (read next) w a w'
  | write {cs : List Call} {next : Proc σ α} {a : α} {w w₁ w' : World σ}
      (hn : RunsBy host cs next w₁ a w') : RunsBy host cs (write w₁ next) w a w'

variable {p : Proc σ α} {f : α → Proc σ β} {b : β}

theorem runs_of_runsBy (h : RunsBy host cs p w a w') : Runs host p w a w' := by
  induction h with
  | done => exact runs_done
  | call hc _ ih => exact runs_call hc ih
  | read _ ih => exact ih
  | write _ ih => exact ih

theorem runsBy_bind (hp : RunsBy host cs p w a w₁) (hf : RunsBy host ds (f a) w₁ b w') :
    RunsBy host (cs ++ ds) (p >>= f) w b w' := by
  change RunsBy host (cs ++ ds) (p.bind f) w b w'
  induction hp with
  | done => exact hf
  | call hc _ ih => exact .call hc (ih hf)
  | read _ ih => exact .read (ih hf)
  | write _ ih => exact .write (ih hf)

end Proc

open Proc

namespace Attempt

variable {x : Attempt σ α} {f : α → Attempt σ β} {r : Except Value β} {e : Value}

theorem runsBy_ok (hx : RunsBy host cs x.run w (.ok a) w₁)
    (hf : RunsBy host ds (f a).run w₁ r w') : RunsBy host (cs ++ ds) (x >>= f).run w r w' :=
  Proc.runsBy_bind (f := ExceptT.bindCont f) hx hf

theorem runsBy_error (hx : RunsBy host cs x.run w (.error e) w') :
    RunsBy host cs (x >>= f).run w (.error e) w' := by
  have hbind := Proc.runsBy_bind (f := ExceptT.bindCont f) hx .done
  rwa [List.append_nil] at hbind

theorem runsBy_pure {g : α → β} (hx : RunsBy host cs x.run w (.ok a) w') :
    RunsBy host cs (x >>= fun a => pure (g a)).run w (.ok (g a)) w' := by
  have hbind := runsBy_ok (f := fun a => (pure (g a) : Attempt σ β)) hx .done
  rwa [List.append_nil] at hbind

theorem runsBy_fail (frame : Frame) (cause : Cause) (w : World σ) :
    RunsBy host [] (fail frame cause : Attempt σ α).run w
      (.error (.error w.next ⟨cause, frame.path⟩)) { w with next := w.next + 1 } :=
  .read (.write .done)

theorem runsBy_force (hans : Call.Answers host ⟨v, frame, []⟩ w u w') (hu : u.isError = false) :
    RunsBy host [⟨v, frame, []⟩] (force frame v).run w (.ok u) w' := by
  refine .call hans ?_
  change RunsBy host [] (pure (if u.isError then Except.error u else .ok u)) w' _ w'
  rw [hu]
  exact .done

/-- Forces values and takes the results for numbers, one after the other. -/
def readNumbers (frame : Frame) : List Value → Attempt σ (List Float)
  | [] => return []
  | v :: rest => return (← forceAs .number frame v) :: (← readNumbers frame rest)

end Attempt

/-- The calls that force the values. -/
def forcings (frame : Frame) (args : List Value) : List Call := args.map fun v => ⟨v, frame, []⟩

/-- The arguments, forced one after the other in the frame, yield the values, and no errors. -/
inductive Forced (host : Host σ) (frame : Frame) :
    List Value → World σ → List Value → World σ → Prop
  | nil {w : World σ} : Forced host frame [] w [] w
  | cons {v u : Value} {args values : List Value} {w w₁ w' : World σ}
      (hans : Call.Answers host ⟨v, frame, []⟩ w u w₁) (hu : u.isError = false)
      (hrest : Forced host frame args w₁ values w') :
      Forced host frame (v :: args) w (u :: values) w'

theorem length_of_forced (h : Forced host frame args w values w') :
    values.length = args.length := by
  induction h with
  | nil => rfl
  | cons _ _ _ ih => simp [ih]

theorem forced_unique {values' : List Value} (h : Forced host frame args w values w')
    (h' : Forced host frame args w values' w₁) : values = values' ∧ w' = w₁ := by
  induction h generalizing values' with
  | nil =>
    cases h'
    exact ⟨rfl, rfl⟩
  | cons hans _ _ ih =>
    cases h' with
    | cons hans' _ hrest' =>
      obtain ⟨rfl, rfl⟩ := Call.answers_unique hans hans'
      obtain ⟨rfl, rfl⟩ := ih hrest'
      exact ⟨rfl, rfl⟩

/-- Values that answer with themselves are forced to themselves. -/
theorem forced_self {w : World σ}
    (h : ∀ v ∈ values, v.isError = false ∧ Call.Answers host ⟨v, frame, []⟩ w v w) :
    Forced host frame values w values w := by
  induction values with
  | nil => exact .nil
  | cons v rest ih =>
    obtain ⟨hv, hrest⟩ := List.forall_mem_cons.mp h
    exact .cons hv.2 hv.1 (ih hrest)

namespace Attempt

theorem runsBy_forceAll (h : Forced host frame args w values w') :
    RunsBy host (forcings frame args) (forceAll frame args).run w (.ok values) w' := by
  induction h with
  | nil => exact .done
  | cons hans hu _ ih =>
    unfold forceAll
    exact runsBy_ok (runsBy_force hans hu) (runsBy_pure ih)

theorem runsBy_forceAs {x : Float} (hans : Call.Answers host ⟨v, frame, []⟩ w (.number x) w') :
    RunsBy host [⟨v, frame, []⟩] (forceAs .number frame v).run w (.ok x) w' :=
  runsBy_ok (runsBy_force hans rfl) .done

theorem runsBy_forceAs_mismatch (hans : Call.Answers host ⟨v, frame, []⟩ w u w')
    (hu : u.isError = false) (hread : Reader.number.read? u = none) :
    RunsBy host [⟨v, frame, []⟩] (forceAs .number frame v).run w
      (.error (.error w'.next ⟨.typeMismatch "number" u.typeName, frame.path⟩))
      { w' with next := w'.next + 1 } := by
  refine runsBy_ok (runsBy_force hans hu) ?_
  simp only [hread]
  exact runsBy_fail frame _ w'

theorem bind_assoc {γ : Type} (x : Attempt σ α) (f : α → Attempt σ β) (g : β → Attempt σ γ) :
    x >>= f >>= g = x >>= fun a => f a >>= g := by
  change x.run >>= ExceptT.bindCont f >>= ExceptT.bindCont g =
    x.run >>= ExceptT.bindCont fun a => f a >>= g
  rw [bind_bind]
  refine congrArg _ (funext fun r => ?_)
  cases r <;> rfl

theorem readNumbers_cons_bind (v : Value) (rest : List Value) (next : List Float → Attempt σ β) :
    readNumbers frame (v :: rest) >>= next =
      forceAs .number frame v >>= fun x => readNumbers frame rest >>= fun xs => next (x :: xs) := by
  rw [readNumbers, bind_assoc]
  refine congrArg _ (funext fun x => ?_)
  rw [bind_assoc]
  rfl

/-- Numbers are read up to the first value that is none. -/
theorem runsBy_readNumbers (h : Forced host frame args w values w') :
    (∃ xs : List Float, values = xs.map .number ∧
      RunsBy host (forcings frame args) (readNumbers frame args).run w (.ok xs) w') ∨
    ∃ (xs : List Float) (v : Value) (rest : List Value) (w₁ : World σ),
      values = xs.map .number ++ v :: rest ∧ Reader.number.read? v = none ∧
      Forced host frame (args.take (xs.length + 1)) w (values.take (xs.length + 1)) w₁ ∧
      RunsBy host (forcings frame (args.take (xs.length + 1))) (readNumbers frame args).run w
        (.error (.error w₁.next ⟨.typeMismatch "number" v.typeName, frame.path⟩))
        { w₁ with next := w₁.next + 1 } := by
  induction h with
  | nil => exact .inl ⟨[], rfl, .done⟩
  | @cons v u args values w w₁ w' hans hu _ ih =>
    cases hread : Reader.number.read? u with
    | none =>
      refine .inr ⟨[], u, values, w₁, rfl, hread, .cons hans hu .nil, ?_⟩
      exact runsBy_error (runsBy_forceAs_mismatch hans hu hread)
    | some x =>
      obtain rfl : u = .number x := by
        cases u <;> simp_all [Reader.number]
      rcases ih with ⟨xs, rfl, hrun⟩ | ⟨xs, v, rest, w₂, rfl, hv, hforced, hrun⟩
      · refine .inl ⟨x :: xs, rfl, ?_⟩
        exact runsBy_ok (runsBy_forceAs hans) (runsBy_pure hrun)
      · refine .inr ⟨x :: xs, v, rest, w₂, rfl, hv, .cons hans hu hforced, ?_⟩
        exact runsBy_ok (runsBy_forceAs hans) (runsBy_error hrun)

theorem isError_of_runs_force (h : (force frame v).run.Runs host w (.error e) w') :
    e.isError = true := by
  obtain ⟨u, w₁, -, hdone⟩ := runs_bind_inv h
  obtain ⟨hout, -⟩ := runs_unique hdone runs_done
  split at hout
  next hu =>
    obtain rfl := Except.error.inj hout
    exact hu
  · cases hout

theorem isError_of_runs_forceAs {reader : Reader α}
    (h : (forceAs reader frame v).run.Runs host w (.error e) w') : e.isError = true := by
  obtain ⟨r, w₁, hforce, hread⟩ := runs_bind_inv h
  cases r with
  | error e' =>
    obtain rfl := Except.error.inj (runs_unique hread runs_done).1
    exact isError_of_runs_force hforce
  | ok u =>
    dsimp only [ExceptT.bindCont] at hread
    split at hread
    · cases (runs_unique hread runs_done).1
    · obtain rfl := Except.error.inj
        (runs_unique hread (runs_of_runsBy (runsBy_fail frame _ w₁))).1
      rfl

/-- What reading ends with: an error, or a number for each value. -/
theorem isError_or_length_of_runs_readNumbers {r : Except Value (List Float)}
    (h : (readNumbers frame args).run.Runs host w r w') :
    (∃ e, r = .error e ∧ e.isError = true) ∨ ∃ xs, r = .ok xs ∧ xs.length = args.length := by
  induction args generalizing w r w' with
  | nil =>
    obtain ⟨rfl, -⟩ := runs_unique h runs_done
    exact .inr ⟨[], rfl, rfl⟩
  | cons v rest ih =>
    obtain ⟨first, w₁, hfirst, h⟩ := runs_bind_inv h
    cases first with
    | error e =>
      obtain ⟨rfl, -⟩ := runs_unique h runs_done
      exact .inl ⟨e, rfl, isError_of_runs_forceAs hfirst⟩
    | ok x =>
      obtain ⟨later, w₂, hlater, h⟩ := runs_bind_inv h
      rcases ih hlater with ⟨e, rfl, he⟩ | ⟨xs, rfl, hlength⟩
      · obtain ⟨rfl, -⟩ := runs_unique h runs_done
        exact .inl ⟨e, rfl, he⟩
      · obtain ⟨rfl, -⟩ := runs_unique h runs_done
        exact .inr ⟨x :: xs, rfl, by simp [hlength]⟩

theorem result_bind {x : Attempt σ α} {f : α → Attempt σ Value} :
    (x >>= f).result = x.run >>= fun r => Attempt.result (ExceptT.bindCont f r) :=
  bind_bind _ _ _

theorem runsBy_result_bind {x : Attempt σ α} {f : α → Attempt σ Value}
    (hx : RunsBy host cs x.run w (.ok a) w₁) (hf : RunsBy host ds (f a).result w₁ v w') :
    RunsBy host (cs ++ ds) (x >>= f).result w v w' := by
  rw [result_bind]
  exact Proc.runsBy_bind hx hf

theorem runsBy_result_error {x : Attempt σ α} {f : α → Attempt σ Value}
    (hx : RunsBy host cs x.run w (.error v) w') :
    RunsBy host cs (x >>= f).result w v w' := by
  have hbind := Proc.runsBy_bind
    (f := fun r => Attempt.result (ExceptT.bindCont f r)) hx (.done (a := v))
  rwa [← result_bind, List.append_nil] at hbind

end Attempt

namespace Builtin

/--
What a numeric function makes of numbers: a number, or none if it would have to divide by zero.
-/
inductive Reckons : Builtin → List Float → Except Cause Float → Prop
  | sum (xs : List Float) : Reckons add xs (.ok (xs.foldl (· + ·) 0))
  | product (xs : List Float) : Reckons mul xs (.ok (xs.foldl (· * ·) 1))
  | difference (x y : Float) : Reckons sub [x, y] (.ok (x - y))
  | quotient {x y : Float} (hy : (y == 0) = false) : Reckons div [x, y] (.ok (x / y))
  | remainder {x y : Float} (hy : (y == 0) = false) :
      Reckons rem [x, y] (.ok (Number.remainder x y))
  | byZero {op : Builtin} {x y : Float} (hop : op = div ∨ op = rem) (hy : (y == 0) = true) :
      Reckons op [x, y] (.error .divisionByZero)

/--
What a numeric function makes of values, and how many of them it looks at: all if they are numbers,
and otherwise those up to the first that is not.
-/
inductive Judges (op : Builtin) : List Value → Nat → Except Cause Value → Prop
  | numbers {xs : List Float} {r : Except Cause Float} (h : Reckons op xs r) :
      Judges op (xs.map .number) xs.length (r.map .number)
  | mismatch (xs : List Float) {v : Value} (rest : List Value)
      (hv : Reader.number.read? v = none) :
      Judges op (xs.map .number ++ v :: rest) (xs.length + 1)
        (.error (.typeMismatch "number" v.typeName))

/-- The arguments that a function reads when it is given enough. -/
def operands (op : Builtin) (args : List Value) : List Value :=
  match op.arity with
  | .exact k => args.take k
  | .atLeast _ => args

end Builtin

/-- How a body ends: with a value, or with a new error of the frame. -/
def Frame.ending (frame : Frame) (w : World σ) : Except Cause Value → Value × World σ
  | .ok v => (v, w)
  | .error cause => (.error w.next ⟨cause, frame.path⟩, { w with next := w.next + 1 })

namespace Builtin

open Attempt

theorem runsBy_settle (frame : Frame) (w : World σ) (r : Except Cause Value) :
    RunsBy host [] (settle frame r).result w (frame.ending w r).1 (frame.ending w r).2 := by
  cases r with
  | ok v => exact .done
  | error cause => exact .read (.write .done)

theorem sum_eq (frame : Frame) (total : Float) (args : List Value) :
    (sum frame total args : Attempt σ Value) =
      readNumbers frame args >>= fun xs => return .number (xs.foldl (· + ·) total) := by
  induction args generalizing total with
  | nil => rfl
  | cons v rest ih =>
    rw [sum, readNumbers_cons_bind]
    exact congrArg _ (funext fun x => ih (total + x))

theorem product_eq (frame : Frame) (total : Float) (args : List Value) :
    (product frame total args : Attempt σ Value) =
      readNumbers frame args >>= fun xs => return .number (xs.foldl (· * ·) total) := by
  induction args generalizing total with
  | nil => rfl
  | cons v rest ih =>
    rw [product, readNumbers_cons_bind]
    exact congrArg _ (funext fun x => ih (total * x))

/-- Two arguments are read like any others. -/
theorem pair_eq (hargs : 2 ≤ args.length) (f : Float → Float → Attempt σ α) :
    (do
      let x ← argument .number frame args 0
      let y ← argument .number frame args 1
      f x y) =
      readNumbers frame (args.take 2) >>= fun xs => f (xs.headD 0) (xs.tail.headD 0) := by
  match args, hargs with
  | a :: b :: rest, _ =>
    rw [List.take, List.take, List.take_zero, readNumbers_cons_bind]
    refine congrArg _ (funext fun x => ?_)
    rw [readNumbers_cons_bind]
    rfl

/-- Where a divisor is read, zero is an error. -/
theorem dividing_eq (hargs : 2 ≤ args.length) (f : Float → Float → Value) :
    (dividendAndDivisor frame args >>= fun xy => pure (f xy.1 xy.2) : Attempt σ Value) =
      readNumbers frame (args.take 2) >>= fun xs =>
        if xs.tail.headD 0 == 0 then fail frame .divisionByZero
        else pure (f (xs.headD 0) (xs.tail.headD 0)) := by
  rw [← pair_eq hargs fun x y => if y == 0 then fail frame .divisionByZero else pure (f x y),
    dividendAndDivisor, bind_assoc]
  refine congrArg _ (funext fun x => ?_)
  rw [bind_assoc]
  refine congrArg _ (funext fun y => ?_)
  split
  · rfl
  · rfl

theorem exists_reckons_dividing {op : Builtin} {f : Float → Float → Float}
    (hop : op = div ∨ op = rem)
    (hf : ∀ {x y : Float}, (y == 0) = false → op.Reckons [x, y] (.ok (f x y))) (x y : Float) :
    ∃ r, op.Reckons [x, y] r ∧
      (if y == 0 then fail frame .divisionByZero else pure (.number (f x y)) : Attempt σ Value) =
        settle frame (r.map .number) := by
  cases hy : y == 0 with
  | true => exact ⟨_, .byZero hop hy, rfl⟩
  | false => exact ⟨_, hf hy, rfl⟩

/-- The function reads its operands as numbers, and makes of them what it makes of numbers. -/
theorem attempt_eq_readNumbers {op : Builtin} (hop : op ∈ [sub, mul, div, rem])
    (hargs : op.arity.required ≤ args.length) :
    ∃ next : List Float → Attempt σ Value,
      op.attempt frame args = readNumbers frame (op.operands args) >>= next ∧
      ∀ xs : List Float, xs.length = (op.operands args).length →
        ∃ r, op.Reckons xs r ∧ next xs = settle frame (r.map .number) := by
  have hpair {xs : List Float} (hargs : 2 ≤ args.length)
      (hlength : xs.length = (args.take 2).length) : ∃ x y, xs = [x, y] := by
    rw [List.length_take, Nat.min_eq_left hargs] at hlength
    match xs, hlength with
    | [x, y], _ => exact ⟨x, y, rfl⟩
  simp only [List.mem_cons, List.not_mem_nil, or_false] at hop
  rcases hop with rfl | rfl | rfl | rfl
  · refine ⟨_, pair_eq hargs fun x y => pure (Value.number (x - y)), fun xs hlength => ?_⟩
    obtain ⟨x, y, rfl⟩ := hpair hargs hlength
    exact ⟨_, .difference x y, rfl⟩
  · exact ⟨_, product_eq frame 1 args, fun xs _ => ⟨_, .product xs, rfl⟩⟩
  · refine ⟨_, dividing_eq hargs fun x y => .number (x / y), fun xs hlength => ?_⟩
    obtain ⟨x, y, rfl⟩ := hpair hargs hlength
    exact exists_reckons_dividing (.inl rfl) .quotient x y
  · refine ⟨_, dividing_eq hargs fun x y => .number (Number.remainder x y), fun xs hlength => ?_⟩
    obtain ⟨x, y, rfl⟩ := hpair hargs hlength
    exact exists_reckons_dividing (.inr rfl) .remainder x y

/-- What is read as numbers and then reckoned with. -/
theorem exists_judges_of_forced {op : Builtin} {x : Attempt σ Value}
    {next : List Float → Attempt σ Value} (hx : x = readNumbers frame args >>= next)
    (hnext : ∀ xs : List Float, xs.length = args.length →
      ∃ r, op.Reckons xs r ∧ next xs = settle frame (r.map .number))
    (h : Forced host frame args w values w') :
    ∃ n r w₁, op.Judges values n r ∧ Forced host frame (args.take n) w (values.take n) w₁ ∧
      RunsBy host (forcings frame (args.take n)) x.result w (frame.ending w₁ r).1
        (frame.ending w₁ r).2 := by
  subst hx
  rcases runsBy_readNumbers h with ⟨xs, rfl, hrun⟩ | ⟨xs, v, rest, w₁, rfl, hv, hforced, hrun⟩
  · have hlength : xs.length = args.length := by
      rw [← List.length_map, length_of_forced h]
    obtain ⟨r, hreckons, hsettle⟩ := hnext xs hlength
    refine ⟨xs.length, _, w', .numbers hreckons, ?_, ?_⟩
    · rwa [hlength, List.take_length, ← hlength, ← List.length_map, List.take_length]
    · rw [hlength, List.take_length]
      have hresult := runsBy_result_bind hrun (hsettle ▸ runsBy_settle frame w' _)
      rwa [List.append_nil] at hresult
  · exact ⟨xs.length + 1, _, w₁, .mismatch xs rest hv, hforced, runsBy_result_error hrun⟩

theorem isPlain_ending {frame : Frame} {r : Except Cause Float} :
    (frame.ending w (r.map .number)).1.isPlain = true := by
  cases r <;> rfl

theorem isPlain_of_runs_run {op : Builtin} (hop : op ∈ [sub, mul, div, rem])
    (hargs : op.arity.required ≤ args.length) (h : (op.run frame args).Runs host w v w') :
    v.isPlain = true := by
  obtain ⟨next, hattempt, hnext⟩ := attempt_eq_readNumbers hop hargs
  rw [run, hattempt, result_bind] at h
  obtain ⟨r, w₁, hread, h⟩ := runs_bind_inv h
  rcases isError_or_length_of_runs_readNumbers hread with ⟨e, rfl, he⟩ | ⟨xs, rfl, hlength⟩
  · obtain ⟨rfl, -⟩ := runs_unique h runs_done
    cases v <;> first | rfl | cases he
  · obtain ⟨q, -, hsettle⟩ := hnext xs hlength
    change Runs host (Attempt.result (next xs)) w₁ v w' at h
    rw [hsettle] at h
    obtain ⟨rfl, -⟩ := runs_unique h (runs_of_runsBy (runsBy_settle frame w₁ _))
    exact isPlain_ending

theorem argument_take {reader : Reader α} {index k : Nat} (h : index < k) :
    (argument reader frame (args.take k) index : Attempt σ α) =
      argument reader frame args index := by
  rw [argument, argument, List.getElem?_take_of_lt h]

theorem run_take {op : Builtin} (hop : op ∈ [sub, div, rem]) :
    (op.run frame (args.take 2) : Proc σ Value) = op.run frame args := by
  simp only [List.mem_cons, List.not_mem_nil, or_false] at hop
  rcases hop with rfl | rfl | rfl
  all_goals simp only [run, attempt, dividendAndDivisor, argument_take (show 0 < 2 by decide),
    argument_take (show 1 < 2 by decide)]

/-- Unless it is stopped, a call with enough arguments ends as the body does. -/
theorem answers_native_iff {op : Builtin} (hop : op ∈ [add, sub, mul, div, rem]) (id : Nat)
    (hargs : op.arity.required ≤ args.length) (hstop : w.stop? (frame.enter op.name) = none) :
    Call.Answers host ⟨.native (op.native id), frame, args⟩ w v w' ↔
      (op.run (frame.enter op.name) args).Runs host w v w' := by
  have henough : ¬ args.length < (op.native id).arity.required := Nat.not_lt.mpr hargs
  have hgo : w.stop? (frame.enter (op.native id).name) = none := hstop
  have hsub : [sub, div, rem] ⊆ [sub, mul, div, rem] := by decide
  -- What is left over goes to the result, to which it does nothing.
  have hpair (hop : op ∈ [sub, div, rem]) :
      (do applyRest (← op.run (frame.enter op.name) (args.take 2)) frame (args.drop 2)).Runs host
        w v w' ↔ (op.run (frame.enter op.name) args).Runs host w v w' := by
    have hplain {u : Value} {w₁ : World σ}
        (h : (op.run (frame.enter op.name) args).Runs host w u w₁) : u.isPlain = true :=
      isPlain_of_runs_run (hsub hop) hargs h
    rw [run_take hop]
    constructor
    · intro h
      obtain ⟨u, w₁, hrun, hrest⟩ := runs_bind_inv h
      obtain ⟨rfl, rfl⟩ := runs_unique hrest (runs_applyRest_of_isPlain (hplain hrun))
      exact hrun
    · exact fun h => runs_bind h (runs_applyRest_of_isPlain (hplain h))
  rw [Call.answers_iff_runs]
  simp only [Call.proc, Call.runNative]
  rw [if_neg henough, runs_bind_iff (runs_stop? hgo)]
  simp only [List.mem_cons, List.not_mem_nil, or_false] at hop
  rcases hop with rfl | rfl | rfl | rfl | rfl
  · exact Iff.rfl
  · exact hpair (by decide)
  · exact Iff.rfl
  · exact hpair (by decide)
  · exact hpair (by decide)

/-- Once its arguments are forced, `+` goes on with what they yield, unless a text comes first. -/
theorem runsBy_run_add (h : Forced host frame args w values w₁)
    (htext : ∀ s rest, values ≠ .string s :: rest)
    (hsum : RunsBy host cs (sum frame 0 values).result w₁ v w') :
    RunsBy host (forcings frame args ++ cs) (add.run frame args) w v w' := by
  refine runsBy_result_bind (runsBy_forceAll h) ?_
  split
  next s rest => exact (htext s rest rfl).elim
  · exact hsum

theorem exists_judges_of_forced_twice {again : List Value} {w₂ : World σ}
    (h : Forced host frame args w values w₁) (htext : ∀ s rest, values ≠ .string s :: rest)
    (hagain : Forced host frame values w₁ again w₂) :
    ∃ n r w₃, add.Judges again n r ∧ Forced host frame (values.take n) w₁ (again.take n) w₃ ∧
      RunsBy host (forcings frame args ++ forcings frame (values.take n)) (add.run frame args) w
        (frame.ending w₃ r).1 (frame.ending w₃ r).2 := by
  obtain ⟨n, r, w₃, hjudges, hforced, hsum⟩ :=
    exists_judges_of_forced (sum_eq frame 0 values) (fun xs _ => ⟨_, .sum xs, rfl⟩) hagain
  exact ⟨n, r, w₃, hjudges, hforced, runsBy_run_add h htext hsum⟩

theorem isError_of_mem_forced (h : Forced host frame args w values w') (hv : v ∈ values) :
    v.isError = false := by
  induction h with
  | nil => cases hv
  | cons _ hu _ ih =>
    rcases List.mem_cons.mp hv with rfl | hv
    · exact hu
    · exact ih hv

/--
The numeric functions call each argument once and in order, up to the first that yields no number,
and end with what they make of the numbers or with the type of that value; they do not call a value
to obtain a number. Only `+` calls the values that its arguments yield once more, up to the first
that yields no number then, and makes its result of what it gets the second time. That is the same
if these values answer with themselves, as all do but functions that wait for no arguments.
-/
theorem numeric_forces (host : Host σ) (frame : Frame) (args : List Value) (w : World σ) :
    (∀ op ∈ [sub, mul, div, rem], op.arity.required ≤ args.length → ∀ values w',
      Forced host frame (op.operands args) w values w' →
        ∃ n r w₁, op.Judges values n r ∧
          Forced host frame ((op.operands args).take n) w (values.take n) w₁ ∧
          RunsBy host (forcings frame ((op.operands args).take n)) (op.run frame args) w
            (frame.ending w₁ r).1 (frame.ending w₁ r).2) ∧
    (∀ values w₁, Forced host frame args w values w₁ → (∀ s rest, values ≠ .string s :: rest) →
      (∀ again w₂, Forced host frame values w₁ again w₂ →
        ∃ n r w₃, add.Judges again n r ∧
          Forced host frame (values.take n) w₁ (again.take n) w₃ ∧
          RunsBy host (forcings frame args ++ forcings frame (values.take n)) (add.run frame args) w
            (frame.ending w₃ r).1 (frame.ending w₃ r).2) ∧
      ((∀ v ∈ values, v.isPlain = true ∨ ∃ wait, v.wait? = some wait ∧ 0 < wait.remaining) →
        ∃ n r, add.Judges values n r ∧
          RunsBy host (forcings frame args ++ forcings frame (values.take n)) (add.run frame args) w
            (frame.ending w₁ r).1 (frame.ending w₁ r).2)) ∧
    ∀ op ∈ [add, sub, mul, div, rem], ∀ id, op.arity.required ≤ args.length →
      w.stop? (frame.enter op.name) = none → ∀ v w',
        Call.Answers host ⟨.native (op.native id), frame, args⟩ w v w' ↔
          (op.run (frame.enter op.name) args).Runs host w v w' := by
  refine ⟨?_, ?_, fun op hop id hargs hstop v w' => answers_native_iff hop id hargs hstop⟩
  · intro op hop hargs values w' hforced
    obtain ⟨next, hattempt, hnext⟩ := attempt_eq_readNumbers hop hargs
    exact exists_judges_of_forced hattempt hnext hforced
  · intro values w₁ hforced htext
    refine ⟨fun again w₂ => exists_judges_of_forced_twice hforced htext, fun hself => ?_⟩
    have hanswers : ∀ v ∈ values, v.isError = false ∧ Call.Answers host ⟨v, frame, []⟩ w₁ v w₁ := by
      intro v hv
      refine ⟨isError_of_mem_forced hforced hv, ?_⟩
      rcases hself v hv with hplain | ⟨wait, hwait, hremaining⟩
      · exact Call.answers_of_isPlain hplain
      · exact Call.answers_nil hwait hremaining
    -- To force such values once more yields the same and leaves the world as it is.
    obtain ⟨n, r, w₃, hjudges, hread, hrun⟩ :=
      exists_judges_of_forced_twice hforced htext (forced_self hanswers)
    have hsame : Forced host frame (values.take n) w₁ (values.take n) w₁ :=
      forced_self fun v hv => hanswers v (List.mem_of_mem_take hv)
    obtain ⟨-, rfl⟩ := forced_unique hread hsame
    exact ⟨n, r, hjudges, hrun⟩

theorem eq_of_judges_first {op : Builtin} {rest : List Value} {n : Nat} {r : Except Cause Value}
    (hv : Reader.number.read? v = none) (h : op.Judges (v :: rest) n r) :
    n = 1 ∧ r = .error (.typeMismatch "number" v.typeName) := by
  generalize hvalues : v :: rest = values at h
  cases h with
  | @numbers xs r _ =>
    cases xs with
    | nil => cases hvalues
    | cons x xs =>
      cases hvalues
      cases hv
  | mismatch xs rest' hv' =>
    cases xs with
    | nil =>
      cases hvalues
      exact ⟨rfl, rfl⟩
    | cons x xs =>
      cases hvalues
      cases hv

/-- The arguments of `+ (@ f => 5) 1`: the first yields a function that takes no arguments. -/
def deferred : List Value :=
  [.thunk none (.lambda "f" [] (.number 5)) Program.firstFrame.scope, .number 1]

/-- What these arguments yield. -/
def ready : List Value :=
  [.closure 19 ⟨"f", [], .number 5⟩ Program.firstFrame.scope, .number 1]

theorem forced_deferred :
    Forced Host.none Program.firstFrame deferred Program.firstWorld ready
      { Program.firstWorld with next := 20 } :=
  .cons ⟨2, rfl⟩ rfl (.cons ⟨1, rfl⟩ rfl .nil)

/-- A function is no number. -/
theorem numeric_forces_deferred :
    ∃ w', RunsBy Host.none (forcings Program.firstFrame (deferred.take 1))
      (sub.run Program.firstFrame deferred) Program.firstWorld
      (.error 20 ⟨.typeMismatch "number" "function", Program.firstFrame.path⟩) w' := by
  obtain ⟨n, r, w₁, hjudges, hread, hrun⟩ :=
    (numeric_forces Host.none Program.firstFrame deferred Program.firstWorld).1 sub (by decide)
      (by decide) ready _ forced_deferred
  obtain ⟨rfl, rfl⟩ := eq_of_judges_first rfl hjudges
  have hfirst : Forced Host.none Program.firstFrame (deferred.take 1) Program.firstWorld
      (ready.take 1) { Program.firstWorld with next := 20 } := .cons ⟨2, rfl⟩ rfl .nil
  obtain ⟨-, rfl⟩ := forced_unique hread hfirst
  exact ⟨_, hrun⟩

/-- The sum is that of what the function yields, although the function is no number. -/
theorem add_calls_function :
    ∃ values w₁ w', Forced Host.none Program.firstFrame deferred Program.firstWorld values w₁ ∧
      (∀ s rest, values ≠ .string s :: rest) ∧ (∃ v ∈ values, Reader.number.read? v = none) ∧
      (add.run Program.firstFrame deferred).Runs Host.none Program.firstWorld
        (.number (0 + 5 + 1)) w' :=
  ⟨ready, _, _, forced_deferred, nofun, ⟨_, List.mem_cons_self, rfl⟩, 3, rfl⟩

end Builtin

end ChainScript
