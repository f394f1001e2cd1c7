import ChainScript.Proofs.Eval.Scoping
import ChainScript.Proofs.Value.Equal

/-!
Answers from a cache. A memo has one cache, whose keys are the values of its parameters alone: what
it remembers is what its body yielded at some call with the same keys, in the scope of that call.
-/
namespace ChainScript

open Proc

variable {σ : Type} {host : Host σ} {w w' : World σ} {start : Proc σ Value} {w₀ : World σ}
  {mark : Nat} {params : List String} {body : Code} {frame : Frame} {args values : List Value}
  {result : Value}

/--
The body of a memo was evaluated in the run of `start` from `w₀` and yielded `result`: in the scope
of the call that asked for it, with its parameters bound to values with the given keys.
-/
def Memo.Computed (host : Host σ) (start : Proc σ Value) (w₀ : World σ) (params : List String)
    (body : Code) (keys : List Memo.Key) (result : Value) : Prop :=
  ∃ (scope : Scope) (values : List Value) (frame : Frame) (w w' : World σ),
    Memo.Key.ofValues values = keys ∧
    Reaches host start w₀ ⟨.thunk none body (scope.addAll (params.zip values)), frame, []⟩ w ∧
    Call.Answers host ⟨.thunk none body (scope.addAll (params.zip values)), frame, []⟩ w result w' ∧
    result.isError = false

/-- Only the given memos. -/
def Policy.holding (σ : Type) (given : Memos) : Policy σ :=
  { Policy.sealed σ with
    memo := given
    stored_of_known := fun _ _ _ => trivial }

/-- Only the given memos, and no results but those remembered at the start or computed since. -/
def Policy.recalling (host : Host σ) (start : Proc σ Value) (w₀ : World σ) (given : Memos) :
    Policy σ :=
  { Policy.holding σ given with
    stored := fun mark keys v => w₀.stored? mark keys = some v ∨
      ∃ params body, given mark params body ∧ Memo.Computed host start w₀ params body keys v
    known := fun c w v w' => Reaches host start w₀ c w ∧ c.Answers host w v w'
    stored_of_known := fun {_ params body scope values frame w _ w'} hmemo hknown herror =>
      .inr ⟨params, body, hmemo, scope, values, frame, w, w', rfl, hknown.1, hknown.2, herror⟩ }

theorem Expr.storedOr_runs_of_stored {rest : Proc σ Value}
    (h : w.stored? mark (Memo.Key.ofValues values) = some result) :
    (storedOr mark values rest).Runs host w result w := by
  refine ⟨0, ?_⟩
  unfold storedOr
  simp only [exec, h]
  rfl

/-- A memo that remembers a result goes on with it at once. -/
theorem Expr.memo_runs_iff_of_stored {v : Value} {w₁ : World σ}
    (hforce : (forceParams frame params).Runs host w₁ (.ok values) w)
    (h : w.stored? mark (Memo.Key.ofValues values) = some result) :
    (eval (.memo mark params body) frame args).Runs host w₁ v w' ↔
      (applyRest result frame args).Runs host w v w' := by
  rw [eval]
  constructor
  · intro hrun
    obtain ⟨r, w₂, hr, hafter⟩ := runs_bind_inv hrun
    obtain ⟨rfl, rfl⟩ := runs_unique hr hforce
    dsimp only at hafter
    obtain ⟨u, w₃, hu, hrest⟩ := runs_bind_inv hafter
    obtain ⟨rfl, rfl⟩ := runs_unique hu (storedOr_runs_of_stored h)
    exact hrest
  · intro hrun
    exact runs_bind hforce (runs_bind (storedOr_runs_of_stored h) hrun)

theorem Policy.holding_within_recalling {given : Memos} :
    (Policy.holding σ given).Within (Policy.recalling host start w₀ given) :=
  ⟨fun h => h, fun h => h, fun h => h, fun h => h⟩

theorem World.obeys_recalling {given : Memos} (hw : w₀.Obeys (Policy.holding σ given)) :
    w₀.Obeys (Policy.recalling host start w₀ given) := by
  intro mark keys v hv
  obtain ⟨hobeys, hitem, -⟩ := hw mark keys v hv
  exact ⟨Value.obeys_of_within Policy.holding_within_recalling hobeys, hitem, .inl hv⟩

namespace Program

variable {registry : Registry} {program : Program} {next next' : Nat} {given : Memos}

/--
In every world of a run, the memos remember only what they remembered at the start or what a body
has yielded since.
-/
theorem obeys_recalling_of_passes (hloaded : program.Loaded given)
    (hargs : ∀ a ∈ program.args, a.Obeys (Policy.holding σ given))
    (hw : w₀.Obeys (Policy.holding σ given)) (hframe : frame.OverPrelude)
    (hpass : Passes host (program.start frame) w₀ w) :
    w.Obeys (Policy.recalling host (program.start frame) w₀ given) := by
  have hprelude : (Policy.recalling host (program.start frame) w₀ given).HasPrelude :=
    fun op id => ⟨op, id, rfl⟩
  have hargs' : ∀ a ∈ program.args,
      a.Obeys (Policy.recalling host (program.start frame) w₀ given) :=
    fun a ha => Value.obeys_of_within Policy.holding_within_recalling (hargs a ha)
  have hw' : w₀.Obeys (Policy.recalling host (program.start frame) w₀ given) :=
    World.obeys_recalling hw
  have hstart := ensures_start hloaded (fun _ _ _ h => h) hprelude hframe hargs' hw'
  exact inv_of_passes Call.ensures_proc (fun _ _ _ _ hreach hans => ⟨hreach, hans⟩) hstart hw'
    hpass fun _ _ hask => hask.2

/--
The calls in a run are of functions with given memos, and whatever these answer from their caches is
what their own bodies have yielded, for parameters with the same keys and in the scope of the call
that asked for it; with that answer they go on at once, without evaluating the body. Away from NaN,
parameters have the same keys just if they are equal, as the two zeros are.
-/
theorem memo_recalls_computed (hreg : registry.Loaded next)
    (hprogram : program.OfSource registry next next') :
    ∃ given : Memos, given.Numbered 0 next' ∧ program.Loaded given ∧
      (∀ mark params body, program.HasMemo mark params body → given mark params body) ∧
      (∀ values values', Value.areDefinite values = true → Value.areDefinite values' = true →
        (Memo.Key.ofValues values = Memo.Key.ofValues values' ↔
          Value.equalsAll values values' = true)) ∧
      ∀ (frame : Frame) (w₀ : World σ), frame.OverPrelude →
        (∀ a ∈ program.args, a.Obeys (Policy.holding σ given)) →
        w₀.Obeys (Policy.holding σ given) →
        (∀ c w, Reaches host (program.start frame) w₀ c w → c.Obeys (Policy.holding σ given)) ∧
        ∀ w, Passes host (program.start frame) w₀ w →
          ∀ mark params body values result, given mark params body →
            w.stored? mark (Memo.Key.ofValues values) = some result →
            (w₀.stored? mark (Memo.Key.ofValues values) = some result ∨
              Memo.Computed host (program.start frame) w₀ params body (Memo.Key.ofValues values)
                result) ∧
            ∀ caller args w₁, (Expr.forceParams caller params).Runs host w₁ (.ok values) w →
              ∀ v w', (Expr.eval (.memo mark params body) caller args).Runs host w₁ v w' ↔
                (applyRest result caller args).Runs host w v w' := by
  obtain ⟨given, hnumbered, hloaded⟩ := loaded_of_ofSource hreg hprogram
  refine ⟨given, hnumbered, hloaded, fun _ _ _ h => given_of_hasMemo h hloaded,
    fun _ _ => Memo.Key.ofValues_eq_iff, ?_⟩
  intro frame w₀ hframe hargs hw
  have hprelude : (Policy.holding σ given).HasPrelude := fun op id => ⟨op, id, rfl⟩
  refine ⟨fun c w hreach => (obeys_of_reaches hloaded (fun _ _ _ _ => trivial) (fun _ _ _ h => h)
    hprelude hframe hargs hw hreach).1, ?_⟩
  intro w hpass mark params body values result hmemo hstored
  refine ⟨?_, fun caller args w₁ hforce v w' => Expr.memo_runs_iff_of_stored hforce hstored⟩
  have hobeys := obeys_recalling_of_passes hloaded hargs hw hframe hpass
  obtain ⟨-, -, hold | ⟨params', body', hmemo', hcomputed⟩⟩ := hobeys mark _ result hstored
  · exact .inl hold
  · obtain ⟨rfl, rfl⟩ := hnumbered.unique hmemo hmemo'
    exact .inr hcomputed

end Program

/--
The call is one of a memo function that its cache answers with `remembered`, while evaluating the
body afresh in the scope of this call ends with `fresh`.
-/
def Memo.Hit (host : Host σ) (c : Call) (w : World σ) (remembered fresh : Value) : Prop :=
  ∃ (id : Nat) (name : String) (params : List String) (mark : Nat) (body : Code) (scope : Scope)
    (caller inner : Frame) (args values : List Value) (w₁ w₂ : World σ),
    c = ⟨.closure id ⟨name, params, .memo mark params body⟩ scope, caller, args⟩ ∧
    inner = (caller.descend name).withScope
      ((scope.add name c.callee).addAll (params.zip args)) ∧
    (Expr.forceParams inner params).Runs host w (.ok values) w₁ ∧
    w₁.stored? mark (Memo.Key.ofValues values) = some remembered ∧
    Call.Answers host ⟨.thunk none body (inner.scope.addAll (params.zip values)), inner, []⟩ w₁
      fresh w₂

/-- What a memo function remembers for a call, and what its body would yield. -/
def Memo.compare? (host : Host σ) (fuel : Nat) (c : Call) (w : World σ) :
    Option (Value × Value) :=
  match c with
  | ⟨.closure id ⟨name, params, .memo mark params' body⟩ scope, caller, args⟩ =>
    let inner := (caller.descend name).withScope
      ((scope.add name (.closure id ⟨name, params, .memo mark params' body⟩ scope)).addAll
        (params.zip args))
    if params' = params then
      match (Expr.forceParams inner params).exec (Call.answer host fuel) w with
      | some (.ok values, w₁) =>
        match w₁.stored? mark (Memo.Key.ofValues values),
          Call.answer host fuel
            ⟨.thunk none body (inner.scope.addAll (params.zip values)), inner, []⟩ w₁ with
        | some remembered, some (fresh, _) => some (remembered, fresh)
        | _, _ => none
      | _ => none
    else none
  | _ => none

theorem Memo.hit_of_compare? {fuel : Nat} {c : Call} {remembered fresh : Value}
    (h : compare? host fuel c w = some (remembered, fresh)) : Hit host c w remembered fresh := by
  unfold compare? at h
  split at h
  next id name params mark params' body scope caller args =>
    split at h
    next heq =>
      subst heq
      dsimp only at h
      split at h
      next values w₁ hforce =>
        split at h
        next r v w₂ hstored hfresh =>
          obtain ⟨rfl, rfl⟩ : r = remembered ∧ v = fresh := by simpa using h
          exact ⟨id, name, _, mark, body, scope, caller, _, args, values, w₁, w₂, rfl, rfl,
            ⟨fuel, hforce⟩, hstored, fuel, hfresh⟩
        next => cases h
      next => cases h
    next => cases h
  next => cases h

namespace Proc

variable {α : Type} {p : Proc σ α}

/-- The calls that a procedure makes, each with the world that it is made in. -/
def calls (answer : Call → World σ → Option (Value × World σ)) :
    Proc σ α → World σ → List (Call × World σ)
  | done _, _ => []
  | call c next, w =>
    (c, w) :: match answer c w with
      | none => []
      | some (v, w') => calls answer (next v) w'
  | read next, w => calls answer (next w) w
  | write w' next, _ => calls answer next w'

theorem makes_of_mem_calls {fuel : Nat} {c : Call}
    (h : (c, w') ∈ p.calls (Call.answer host fuel) w) : Makes host p w c w' := by
  induction p generalizing w with
  | done a => cases h
  | call d next ih =>
    rw [calls] at h
    rcases List.mem_cons.mp h with h | h
    · cases h
      exact ⟨next, .refl⟩
    · split at h
      next => cases h
      next v w₁ hd =>
        obtain ⟨rest, hrest⟩ := ih v h
        exact ⟨rest, .call ⟨fuel, hd⟩ hrest⟩
  | read next ih =>
    obtain ⟨rest, hrest⟩ := ih w h
    exact ⟨rest, .read hrest⟩
  | write w₁ next ih =>
    obtain ⟨rest, hrest⟩ := ih h
    exact ⟨rest, .write hrest⟩

end Proc

namespace Memo

/-- Two functions come from one memo, and each has captured a value of its own. -/
def capturing : String := "let f x => (@ memo g y => + x y); (f 'a') 'b'; (f 'c') 'b'"

def capturingCode : Source :=
  match Expr.ofSource capturing with
  | .ok e => e
  | .error _ => .empty

/-- Whether the call is one of a memo that remembers `ab` where its body would yield `cb`. -/
def isStale : Option (Call × World Unit) → Bool
  | some (c, w) =>
    match compare? Host.none 40 c w with
    | some (.string r, .string v) => r = "ab" && v = "cb"
    | _ => false
  | none => false

theorem isStale_capturing :
    isStale
      ((Proc.calls (Call.answer Host.none 40)
        (Program.start Program.firstFrame (.fragment (capturingCode.allot 0).1))
        Program.firstWorld)[5]?) = true := by
  decide +kernel

theorem ofSource_capturing : Expr.ofSource capturing = .ok capturingCode := by
  have hstale := isStale_capturing
  unfold capturingCode at hstale ⊢
  cases h : Expr.ofSource capturing with
  | ok e => rfl
  | error cause =>
    rw [h] at hstale
    cases hstale

/-- A memo that captures a variable answers with what another closure has captured. -/
theorem memo_not_transparent :
    ∃ program next' c w, Program.OfSource [] 0 program next' ∧ Program.firstFrame.OverPrelude ∧
      Reaches Host.none (program.start Program.firstFrame) Program.firstWorld c w ∧
      Hit Host.none c w (.string "ab") (.string "cb") ∧
      (Value.string "ab").equals (.string "cb") = false := by
  have hprogram : Program.OfSource [] 0 (.fragment (capturingCode.allot 0).1)
      (capturingCode.allot 0).2 := .fragment ofSource_capturing
  have hstale := isStale_capturing
  unfold isStale at hstale
  split at hstale
  next c w hcall =>
    split at hstale
    next r v hcompare =>
      obtain ⟨rfl, rfl⟩ : r = "ab" ∧ v = "cb" := by simpa using hstale
      have hmade := makes_of_mem_calls (List.mem_of_getElem? hcall)
      exact ⟨_, _, c, w, hprogram, Program.overPrelude_firstFrame, ⟨[], .made hmade⟩,
        hit_of_compare? hcompare, by decide⟩
    next => cases hstale
  next => cases hstale

/-- In that run, too, what a memo remembers is what its body has yielded. -/
theorem memo_recalls_computed_capturing :
    ∃ given : Memos, given.Numbered 0 (capturingCode.allot 0).2 ∧
      ∀ w, Passes Host.none (Program.start Program.firstFrame (.fragment (capturingCode.allot 0).1))
          Program.firstWorld w →
        ∀ mark params body values result, given mark params body →
          w.stored? mark (Key.ofValues values) = some result →
          Computed Host.none
            (Program.start Program.firstFrame (.fragment (capturingCode.allot 0).1))
            Program.firstWorld params body (Key.ofValues values) result := by
  obtain ⟨given, hnumbered, -, -, -, hrecall⟩ :=
    Program.memo_recalls_computed (Registry.loaded_nil 0) (.fragment ofSource_capturing)
  refine ⟨given, hnumbered, ?_⟩
  intro w hpass mark params body values result hmemo hstored
  have hworld : Program.firstWorld.Obeys (Policy.holding Unit given) :=
    World.obeys_of_caches_eq_nil rfl
  obtain ⟨-, hpasses⟩ := hrecall _ _ Program.overPrelude_firstFrame (by simp [Program.args]) hworld
  obtain ⟨hold | hcomputed, -⟩ := hpasses w hpass mark params body values result hmemo hstored
  · simp [World.stored?, World.cache, Program.firstWorld, World.initial, Table.get?] at hold
  · exact hcomputed

end Memo

end ChainScript
