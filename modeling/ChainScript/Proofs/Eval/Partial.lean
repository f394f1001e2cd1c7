import ChainScript.Proofs.Eval.Currying
import ChainScript.Proofs.Eval.Like
import ChainScript.Proofs.Program

/-!
Partial applications. They are made by calls that save arguments, and each such call answers with
what it has made. So whatever is evaluated, a function that waits for arguments is a native or a
script function that has some of its arguments but not all, and never another one that waits.
-/
namespace ChainScript

open Proc

variable {σ : Type} {host : Host σ} {v : Value} {s : Scope} {m : Module} {frame frame' : Frame}
  {args args' : List Value} {c : Call} {w w' : World σ}

/-- The functions that are no partial applications, with the number and order of their arguments. -/
inductive Value.Whole : Value → Nat → Order → Prop
  | native (n : Native) : Whole (.native n) n.arity.required n.order
  | closure (id : Nat) (l : Lambda Code) (scope : Scope) :
      Whole (.closure id l scope) l.params.length .savedFirst

/-- What is waited for is what a native or script function takes, and some of it is there. -/
structure Wait.IsFlat (wait : Wait) : Prop where
  func : wait.func.Whole wait.arity wait.order
  some : 0 < wait.saved.length
  few : wait.saved.length < wait.arity

/-- At least one argument is still to come, and it is not for want of a smaller number. -/
theorem Wait.remaining_of_isFlat {wait : Wait} (h : wait.IsFlat) :
    1 ≤ wait.remaining ∧ wait.saved.length + wait.remaining = wait.arity := by
  have hfew := h.few
  unfold remaining
  omega

/-- What is asked of each value by itself. -/
def Value.IsFlat : Value → Prop
  | curried _ func saved arity order => Wait.IsFlat ⟨func, saved, arity, order⟩
  | _ => True

/-- Every partial application inside the value is flat. -/
def Value.Flat (v : Value) : Prop := ∀ u : Value, u.Inside v → u.IsFlat

def Scope.Flat (s : Scope) : Prop := ∀ u : Value, u.InScope s → u.IsFlat

def Module.Flat (m : Module) : Prop := ∀ u : Value, u.InModule m → u.IsFlat

/-- All that the memos remember is flat. -/
def World.Flat (w : World σ) : Prop :=
  ∀ mark keys v, w.stored? mark keys = some v → v.Flat

structure Call.Flat (c : Call) : Prop where
  callee : c.callee.Flat
  args : ∀ a ∈ c.args, a.Flat
  scope : c.frame.scope.Flat

/-- Only flat values are alike to themselves, and to nothing else. -/
def Likeness.flat : Likeness where
  path p q := p = q
  waiting func saved arity order := Wait.IsFlat ⟨func, saved, arity, order⟩
  path_refl _ := rfl
  path_push h _ := h ▸ rfl
  waiting_native hne hfew := ⟨.native _, List.length_pos_iff.mpr hne, hfew⟩
  waiting_closure hne hfew := ⟨.closure _ _ _, List.length_pos_iff.mpr hne, hfew⟩
  waiting_combine := by
    rintro func saved arity order args ⟨hfunc, hsome, -⟩ hfew
    have hmore : 0 < (Call.combine order saved args).length := by
      rw [Call.length_combine]
      exact Nat.add_pos_left hsome _
    exact ⟨hfunc, hmore, hfew⟩

theorem Likeness.isStrict_flat : Likeness.flat.IsStrict := fun _ _ h => h

theorem Likeness.admits_flat_iff {u : Value} : Likeness.flat.Admits u ↔ u.IsFlat := by
  cases u <;> rfl

theorem Value.isFlat_of_like (h : v.Like .flat v) : v.IsFlat := by
  cases h with
  | curried id hfunc herror hlength hsaved hwaiting => exact hwaiting
  | _ => trivial

theorem Value.flat_iff : v.Flat ↔ v.Like .flat v :=
  ⟨fun h => like_self v fun u hu => Likeness.admits_flat_iff.mpr (h u hu),
    fun h _ hu => isFlat_of_like (like_of_inside hu h)⟩

theorem Scope.flat_iff : s.Flat ↔ s.Like .flat s :=
  ⟨fun h => like_self s fun u hu => Likeness.admits_flat_iff.mpr (h u hu),
    fun h _ hu => Value.isFlat_of_like (like_of_inside hu h)⟩

theorem Module.flat_iff : m.Flat ↔ m.Like .flat m :=
  ⟨fun h => like_self m fun u hu => Likeness.admits_flat_iff.mpr (h u hu),
    fun h _ hu => Value.isFlat_of_like (like_of_inside hu h)⟩

theorem Value.flat_all_iff : (∀ a ∈ args, a.Flat) ↔ List.Forall₂ (Like .flat) args args := by
  rw [List.forall₂_same]
  exact forall₂_congr fun _ _ => flat_iff

theorem Frame.like_flat_iff : frame.Like .flat frame' ↔ frame.scope.Flat ∧ frame' = frame := by
  constructor
  · rintro ⟨hscope, hpath, hsignal, hdepth, hmax⟩
    have heq := Scope.eq_of_like Likeness.isStrict_flat hscope
    refine ⟨Scope.flat_iff.mpr (heq ▸ hscope), ?_⟩
    cases frame
    cases frame'
    simp_all [Likeness.flat]
  · rintro ⟨hscope, rfl⟩
    exact ⟨Scope.flat_iff.mp hscope, rfl, rfl, rfl, rfl⟩

theorem Call.flat_iff : c.Flat ↔ c.Like .flat c := by
  constructor
  · rintro ⟨hcallee, hargs, hscope⟩
    exact ⟨Value.flat_iff.mp hcallee, Frame.like_flat_iff.mpr ⟨hscope, rfl⟩,
      Value.flat_all_iff.mp hargs⟩
  · rintro ⟨hcallee, hframe, hargs⟩
    exact ⟨Value.flat_iff.mpr hcallee, Value.flat_all_iff.mpr hargs,
      (Frame.like_flat_iff.mp hframe).1⟩

namespace World

theorem flat_of_caches (hw : w.Flat) (h : w'.caches = w.caches) : w'.Flat := by
  intro mark keys v hv
  refine hw mark keys v ?_
  rwa [stored?, cache, ← h]

theorem flat_store {mark : Nat} {keys : List Memo.Key} (hw : w.Flat) (hv : v.Flat) :
    (w.store mark keys v).Flat := by
  intro mark' keys' v' hv'
  rw [stored?_store] at hv'
  split at hv'
  · exact Option.some.inj hv' ▸ hv
  · exact hw mark' keys' v' hv'

theorem flat_of_caches_eq_nil (h : w.caches = []) : w.Flat := by
  intro mark keys v hv
  simp [stored?, cache, h, Table.get?] at hv

end World

/-- Flat worlds, none of which gets lost. -/
def Setting.flat (σ : Type) : Setting σ :=
  { Likeness.flat with
    world := World.Flat
    lost := fun _ => False
    world_of_caches := World.flat_of_caches
    like_stored := fun hw h => Value.flat_iff.mp (hw _ _ _ h)
    store := by
      intro w w' mark keys v v' _ _ hw' hv
      obtain rfl := Value.eq_of_like Likeness.isStrict_flat hv
      exact .inr ⟨rfl, World.flat_store hw' (Value.flat_iff.mpr hv)⟩ }

/-- Calls of what is flat yield what is flat. -/
def Contract.flat (σ : Type) : Contract σ where
  inv := World.Flat
  ask c w := c.Flat ∧ w.Flat
  grant v w := v.Flat ∧ w.Flat
  known _ _ _ _ := True
  inv_of_grant h := h.2

theorem Setting.contract_flat : (Setting.flat σ).contract = Contract.flat σ := by
  unfold contract Contract.flat
  simp only [Call.flat_iff, Value.flat_iff]
  rfl

/-- The functions of the host keep the contract. -/
def Host.KeepsFlat (host : Host σ) : Prop :=
  ∀ (key : Nat) (frame : Frame) (args : List Value) (w : World σ), frame.scope.Flat →
    (∀ a ∈ args, a.Flat) → w.Flat →
      Ensures (Contract.flat σ) (Contract.flat σ).grant (host key frame args) w

theorem Host.suits_flat (hhost : host.KeepsFlat) : host.Suits (Setting.flat σ) := by
  intro key frame frame' args args' hframe hargs w hw
  obtain ⟨hscope, rfl⟩ := Frame.like_flat_iff.mp hframe
  have heq : args = args' := by
    rw [← List.forall₂_eq_eq_eq]
    exact hargs.imp fun _ _ => Value.eq_of_like Likeness.isStrict_flat
  subst heq
  have h := hhost key frame' args w hscope (Value.flat_all_iff.mpr hargs) hw
  rw [← Setting.contract_flat] at h
  exact alikeAt_of_ensures Likeness.isStrict_flat h

theorem Host.keepsFlat_none : Host.none.KeepsFlat :=
  fun _ _ _ _ _ _ hw => ensures_pure ⟨Value.flat_iff.mpr (Value.array_like_iff.mpr .nil), hw⟩

namespace Draft

/-- The imports are flat, and all else that has been collected is functions. -/
structure Flat (draft : Draft) : Prop where
  imports : ∀ e ∈ draft.imports, e.2.Flat
  decls : ∀ x v, (x, Decl.value v) ∉ draft.decls

variable {draft : Draft}

theorem flat_addImport (h : draft.Flat) (hm : m.Flat) (name : String) :
    (draft.addImport name m).Flat := by
  refine ⟨fun e he => ?_, h.decls⟩
  rcases Table.mem_insert he with rfl | he
  · exact hm
  · exact h.imports e he

theorem flat_addFunction (h : draft.Flat) (l : Lambda Code) : (draft.addFunction l).Flat := by
  refine ⟨h.imports, fun x v hmem => ?_⟩
  rcases Table.mem_insert hmem with heq | hmem
  · cases heq
  · exact h.decls x v hmem

end Draft

namespace Script

variable {registry : Registry} {script : Script} {draft draft' : Draft} {next next' : Nat}

theorem flat_of_collect (hreg : ∀ e ∈ registry, e.2.Flat) (hdraft : draft.Flat)
    (h : (collect registry.importer script draft : StateM Nat _).run next = (.ok draft', next')) :
    draft'.Flat := by
  induction script generalizing draft next with
  | nil =>
    have hdone : (Except.ok draft, next) = (.ok draft', next') := h
    cases hdone
    exact hdraft
  | cons declaration rest ih =>
    cases declaration with
    | imports path name =>
      simp only [collect, Registry.importer, StateT.run_bind] at h
      cases hget : Table.get? path registry with
      | none =>
        rw [hget] at h
        cases h
      | some module =>
        rw [hget] at h
        exact ih (Draft.flat_addImport hdraft (hreg _ (Table.mem_of_get? hget)) name) h
    | defines lambda => exact ih (Draft.flat_addFunction hdraft (lambda.allot next).1) h

/-- A script that imports flat modules is loaded as a flat module. -/
theorem flat_of_load {source : String} (hreg : ∀ e ∈ registry, e.2.Flat)
    (h : (load registry.importer source : StateM Nat _).run next = (.ok m, next')) : m.Flat := by
  obtain ⟨script, draft, after, -, hcollect, rfl, rfl⟩ := load_eq_ok_iff.mp h
  have hempty : Draft.empty.Flat := ⟨by simp [Draft.empty], by simp [Draft.empty]⟩
  obtain ⟨himports, hdecls⟩ := flat_of_collect hreg hempty hcollect
  intro u hu
  cases hu with
  | imported he hu => exact himports _ he u hu
  | declared he hu => exact (hdecls _ _ he).elim

end Script

theorem Module.alike_call {S : Setting σ} {m' : Module} (hm : m.Like S.toLikeness m')
    (hframe : frame.Like S.toLikeness frame') (hargs : S.LikeAll args args') (name : String) :
    Alike S S.Like (m.call frame name args) (m'.call frame' name args') := by
  have hspace := Module.like_space hm hframe.scope
  unfold Module.call
  dsimp only
  obtain ⟨ha, hb⟩ | ⟨a, b, ha, hb, hab⟩ := Option.rel_cases (Namespace.like_resolve? hspace name)
  · rw [ha, hb]
    exact alike_fail hframe _
  · rw [ha, hb]
    exact alike_realized hab (Frame.like_withScope hframe (.module hm hframe.scope)) hargs

/-- A call of what is flat keeps the contract. -/
theorem Call.ensures_flat (hhost : host.KeepsFlat) (h : (Contract.flat σ).ask c w) :
    Ensures ((Contract.flat σ).under fun _ => True) (Contract.flat σ).grant (c.proc host) w := by
  have halike := Setting.calls_of_suits (Host.suits_flat hhost) c c (Call.flat_iff.mp h.1)
  rw [← Setting.contract_flat]
  exact ensures_of_alikeAt (fun _ h => h) (halike w h.2) h.2

namespace Program

variable {registry : Registry} {program : Program} {next next' : Nat}

theorem ensures_flat_start (hreg : ∀ e ∈ registry, e.2.Flat)
    (hprogram : program.OfSource registry next next') (hargs : ∀ a ∈ program.args, a.Flat)
    (hscope : frame.scope.Flat) (hw : w.Flat) :
    Ensures ((Contract.flat σ).under fun _ => True) (Contract.flat σ).grant (program.start frame)
      w := by
  have hframe : frame.Like .flat frame := Frame.like_flat_iff.mpr ⟨hscope, rfl⟩
  have halike : Alike (Setting.flat σ) (Setting.flat σ).Like (program.start frame)
      (program.start frame) := by
    cases hprogram with
    | script name args h =>
      have hm := Module.flat_iff.mp (Script.flat_of_load hreg h)
      exact Module.alike_call hm hframe (Value.flat_all_iff.mp hargs) name
    | fragment h => exact Expr.alike_eval _ hframe .nil
  rw [← Setting.contract_flat]
  exact ensures_of_alikeAt (fun _ h => h) (halike w hw) hw

/--
Wherever the evaluation of a program gets to, partial applications are flat: in every call with its
scope and its arguments, in every answer, and in what the memos remember.
-/
theorem partials_stay_flat (hhost : host.KeepsFlat) (hreg : ∀ e ∈ registry, e.2.Flat)
    (hprogram : program.OfSource registry next next') (hargs : ∀ a ∈ program.args, a.Flat)
    (hscope : frame.scope.Flat) (hw : w.Flat) :
    (∀ c w', Reaches host (program.start frame) w c w' →
      c.Flat ∧ ∀ v w'', c.Answers host w' v w'' → v.Flat) ∧
    (∀ w', Passes host (program.start frame) w w' → w'.Flat) ∧
    (∀ v w', (program.start frame).Runs host w v w' → v.Flat) ∧
    ∀ wait : Wait, wait.IsFlat →
      1 ≤ wait.remaining ∧ wait.saved.length + wait.remaining = wait.arity := by
  have hstart := ensures_flat_start (w := w) hreg hprogram hargs hscope hw
  have hproc := fun c w => Call.ensures_flat (c := c) (w := w) hhost
  have hknown : ∀ c w₁ u w₂, Reaches host (program.start frame) w c w₁ → c.Answers host w₁ u w₂ →
      (Contract.flat σ).known c w₁ u w₂ := fun _ _ _ _ _ _ => trivial
  refine ⟨fun c w' hreach => ?_, fun w' hpass => ?_, fun v w' hrun => ?_,
    fun wait => Wait.remaining_of_isFlat⟩
  · obtain ⟨cs, hstack⟩ := hreach
    have hask := ask_of_stack hproc hknown hstart hstack
    refine ⟨hask.1, fun v w'' hans => ?_⟩
    exact (grant_of_answers hproc hknown ⟨cs, hstack⟩ hask hans).1
  · exact inv_of_passes hproc hknown hstart hw hpass fun _ _ hask => hask.2
  · exact (post_of_runs hproc hknown hstart hrun).1

end Program

namespace Waiting

/-- Arguments that the function has been given before come behind those that follow. -/
def func : Native := ⟨1, "f", .exact 3, .savedLast, .host 0⟩

def source : String := "let g => f 'a'; g 'b'"

def parsed : Source :=
  .compound [.bind (.name "g") (.apply (.var "f") [.string "a"]), .apply (.var "g") [.string "b"]]

def isParsed : Except LoadError Source → Bool
  | .ok (.compound [.bind (.name "g") (.apply (.var "f") [.string "a"]),
      .apply (.var "g") [.string "b"]]) => true
  | _ => false

theorem ofSource_eq : Expr.ofSource source = .ok parsed := by
  have h : isParsed (Expr.ofSource source) = true := by decide +kernel
  unfold isParsed at h
  split at h
  next heq => exact heq
  next => cases h

def program : Program := .fragment (parsed.allot 0).1

def place : Frame := .ofScope (Scope.root.add "f" (.native func)) ⟨0, none⟩

def world : World Unit := { World.initial 0 () with next := 2 }

end Waiting

open Waiting in
/-- Two of the three arguments are given one by one. -/
theorem Program.partials_stay_flat_twice :
    ∃ w', (program.start place).Runs Host.none world
        (.curried 3 (.native func) [.string "b", .string "a"] 3 .savedLast) w' ∧
      (Value.curried 3 (.native func) [.string "b", .string "a"] 3 .savedLast).Flat := by
  have hscope : place.scope.Flat :=
    Scope.flat_iff.mpr (Scope.like_add .root (.native func) "f")
  have hrun : (program.start place).Runs Host.none world
      (.curried 3 (.native func) [.string "b", .string "a"] 3 .savedLast) _ := ⟨4, rfl⟩
  have hprogram : program.OfSource [] 0 (parsed.allot 0).2 := .fragment ofSource_eq
  have hworld : world.Flat := World.flat_of_caches_eq_nil rfl
  have hflat := Program.partials_stay_flat Host.keepsFlat_none (List.forall_mem_nil _) hprogram
    (List.forall_mem_nil _) hscope hworld
  exact ⟨_, hrun, hflat.2.2.1 _ _ hrun⟩

end ChainScript
