import ChainScript.Proofs.Eval.Termination

/-!
Evaluated data. Evaluation yields no code that is still to be run, and it buries no error in an
array, in a module that it builds, or among the results that memos remember.
-/
namespace ChainScript

open Proc

variable {σ : Type} {p : Policy σ} {host : Host σ} {u v : Value} {w w' : World σ}

mutual
/-- The value `u` is the given one, or is found inside it. -/
inductive Value.Inside (u : Value) : Value → Prop
  | self : Value.Inside u u
  | item {items : List Value} {v : Value} (hv : v ∈ items) (h : Value.Inside u v) :
      Value.Inside u (.array items)
  | member {space : Namespace} (h : Value.InNamespace u space) : Value.Inside u (.module space)
  | captured {id : Nat} {l : Lambda Code} {scope : Scope} (h : Value.InScope u scope) :
      Value.Inside u (.closure id l scope)
  | func {id : Nat} {func : Value} {saved : List Value} {arity : Nat} {order : Order}
      (h : Value.Inside u func) : Value.Inside u (.curried id func saved arity order)
  | saved {id : Nat} {func v : Value} {saved : List Value} {arity : Nat} {order : Order}
      (hv : v ∈ saved) (h : Value.Inside u v) : Value.Inside u (.curried id func saved arity order)
  | pinned {id : Option Nat} {code : Code} {scope : Scope} (h : Value.InScope u scope) :
      Value.Inside u (.thunk id code scope)
inductive Value.InNamespace (u : Value) : Namespace → Prop
  | module {m : Module} {scope : Scope} (h : Value.InModule u m) : Value.InNamespace u ⟨m, scope⟩
  | scope {m : Module} {scope : Scope} (h : Value.InScope u scope) : Value.InNamespace u ⟨m, scope⟩
inductive Value.InScope (u : Value) : Scope → Prop
  | bound {names : List (String × Value)} {e : String × Value} {outer : Scope} (he : e ∈ names)
      (h : Value.Inside u e.2) : Value.InScope u (.bound names outer)
  | module {m : Module} {outer : Scope} (h : Value.InModule u m) : Value.InScope u (.module m outer)
  | members {space : Namespace} {outer : Scope} (h : Value.InNamespace u space) :
      Value.InScope u (.members space outer)
  | outer {scope : Scope} (h : Value.InScope u scope.outer) : Value.InScope u scope
inductive Value.InModule (u : Value) : Module → Prop
  | imported {id : Nat} {imports : List (String × Module)} {decls : List (String × Decl)}
      {e : String × Module} (he : e ∈ imports) (h : Value.InModule u e.2) :
      Value.InModule u ⟨id, imports, decls⟩
  | declared {id : Nat} {imports : List (String × Module)} {decls : List (String × Decl)}
      {x : String} {v : Value} (he : (x, Decl.value v) ∈ decls) (h : Value.Inside u v) :
      Value.InModule u ⟨id, imports, decls⟩
end

mutual
theorem Value.obeys_of_inside {v : Value} (h : u.Inside v) (hv : v.Obeys p) : u.Obeys p :=
  match h, hv with
  | .self, hv => hv
  | .item hmem h, .array hitems _ => Value.obeys_of_inside h (hitems _ hmem)
  | .member h, .module hs => Namespace.obeys_of_inside h hs
  | .captured h, .closure _ _ hs => Scope.obeys_of_inside h hs
  | .func h, .curried _ hf _ _ => Value.obeys_of_inside h hf
  | .saved hmem h, .curried _ _ hs _ => Value.obeys_of_inside h (hs _ hmem)
  | .pinned h, .thunk _ _ hs => Scope.obeys_of_inside h hs
theorem Namespace.obeys_of_inside {s : Namespace} (h : u.InNamespace s) (hs : s.Obeys p) :
    u.Obeys p :=
  match h, hs with
  | .module h, .mk hm _ => Module.obeys_of_inside h hm
  | .scope h, .mk _ hs => Scope.obeys_of_inside h hs
theorem Scope.obeys_of_inside {s : Scope} (h : u.InScope s) (hs : s.Obeys p) : u.Obeys p :=
  match h, hs with
  | .bound he h, .bound hn _ => Value.obeys_of_inside h (hn _ he)
  | .module h, .module hm _ => Module.obeys_of_inside h hm
  | .members h, .members hs _ => Namespace.obeys_of_inside h hs
  | .outer h, hs => Scope.obeys_of_inside h (Scope.obeys_outer hs)
theorem Module.obeys_of_inside {m : Module} (h : u.InModule m) (hm : m.Obeys p) : u.Obeys p :=
  match h, hm with
  | .imported he h, .mk hi _ => Module.obeys_of_inside h (hi _ he)
  | .declared he h, .mk _ hd =>
    match hd _ he with
    | .value hv _ => Value.obeys_of_inside h hv
end

/-- The outcome of an evaluation, and not an error. -/
def Value.IsItem (v : Value) : Prop := v.isEvaluated = true ∧ v.isError = false

/-- An outcome of an evaluation in which all arrays and modules have members that are items. -/
structure Value.IsData (v : Value) : Prop where
  evaluated : v.isEvaluated = true
  items : ∀ items, Inside (.array items) v → ∀ u ∈ items, u.IsItem
  members : ∀ space, Inside (.module space) v →
    ∀ x u, (x, Decl.value u) ∈ space.module.decls → u.IsItem

/--
Only natives of the prelude, results that are evaluated, and nothing but items in arrays, modules
and caches, as under the strict policy; but functions may wait for any number of arguments.
-/
def Policy.data (σ : Type) : Policy σ :=
  { Policy.strict σ with
    item := Value.IsItem
    waiting := fun _ _ _ _ => True
    item_of_result := fun he herror => ⟨he, herror⟩
    result_of_item := fun h => h.1
    waiting_native := fun _ _ _ => trivial
    waiting_closure := fun _ _ => trivial
    waiting_combine := fun _ _ => trivial }

theorem Value.isData_of_obeys (hv : v.Obeys (Policy.data σ)) (he : v.isEvaluated = true) :
    v.IsData := by
  refine ⟨he, ?_, ?_⟩
  · intro items hinside u hu
    cases obeys_of_inside hinside hv with
    | array _ hitem => exact hitem u hu
  · intro space hinside x u hu
    cases obeys_of_inside hinside hv with
    | module hspace =>
      obtain ⟨⟨_, hd⟩, _⟩ := hspace
      cases hd _ hu with
      | value _ hitem => exact hitem

/-- Whatever a memo remembers is data and not an error. -/
def World.RemembersData (w : World σ) : Prop :=
  ∀ mark keys u, w.stored? mark keys = some u → u.IsData ∧ u.isError = false

theorem World.remembersData_of_obeys (hw : w.Obeys (Policy.data σ)) : w.RemembersData := by
  intro mark keys u hu
  obtain ⟨hobeys, hitem, -⟩ := hw mark keys u hu
  exact ⟨Value.isData_of_obeys hobeys hitem.1, hitem.2⟩

namespace Expr

variable {frame : Frame} {args : List Value}

/-- All that a module built by a collector declares is values that are data and not errors. -/
theorem collector_module {items : List Code} (hs : frame.scope.Obeys (Policy.data σ))
    (hw : w.Obeys (Policy.data σ))
    (h : ((collector items).eval frame args).Runs host w v w') :
    v.isError = true ∨ ∃ space, v = .module space ∧ space.module.imports = [] ∧
      ∀ e ∈ space.module.decls, ∃ u, e.2 = .value u ∧ u.IsData ∧ u.isError = false := by
  unfold eval at h
  obtain ⟨⟨last, bound⟩, w₁, hitems, h⟩ := runs_bind_inv h
  have hcode : ∀ e ∈ items, e.CodeIn (Policy.data σ) fun _ _ _ => True :=
    fun _ _ _ _ _ _ => ⟨trivial, trivial⟩
  have hempty : (Policy.data σ).Yields (.array []) w :=
    (Policy.data σ).yields_of_isEvaluated hw (.array (by simp) (by simp)) rfl
  have hensures := ensures_evalItems items (.array []) [] frame w hcode hempty (by simp) hs
    fun c hc => hc
  obtain ⟨-, hbound⟩ := Call.post_of_runs (fun _ _ _ _ => trivial) hensures hitems
  dsimp only at h
  split at h
  next herror =>
    obtain ⟨rfl, -⟩ := runs_unique h runs_done
    exact .inl herror
  next =>
    obtain ⟨id, w₂, -, h⟩ := runs_bind_inv h
    refine .inr ⟨_, (runs_unique h (runs_applyRest_of_isPlain rfl)).1, rfl, ?_⟩
    intro e he
    obtain ⟨⟨x, u⟩, hu, rfl⟩ := List.mem_map.mp he
    obtain ⟨hobeys, hitem⟩ := hbound _ (Table.mem_ofList hu)
    exact ⟨u, Value.declOfValue_eq hobeys, Value.isData_of_obeys hobeys hitem.1, hitem.2⟩

/--
Evaluation yields data, from a scope and arguments whose values have only data inside. At no point
on the way does a memo remember anything else, and all that a collector declares is data.
-/
theorem eval_yields_data (code : Code) (hs : frame.scope.Obeys (Policy.data σ))
    (hargs : ∀ a ∈ args, a.Obeys (Policy.data σ)) (hw : w.Obeys (Policy.data σ)) :
    (∀ id v w', Call.Answers host ⟨.code id code, frame, args⟩ w v w' →
      v.IsData ∧ v.Obeys (Policy.data σ) ∧ w'.Obeys (Policy.data σ) ∧ w'.RemembersData) ∧
    (∀ w', Passes host (code.eval frame args) w w' → w'.RemembersData) ∧
    ∀ items, code = .collector items →
      ∀ id v w', Call.Answers host ⟨.code id code, frame, args⟩ w v w' →
        v.isError = true ∨ ∃ space, v = .module space ∧ space.module.imports = [] ∧
          ∀ e ∈ space.module.decls, ∃ u, e.2 = .value u ∧ u.IsData ∧ u.isError = false := by
  have hcode : code.CodeIn (Policy.data σ) fun _ _ _ => True := fun _ _ _ _ => ⟨trivial, trivial⟩
  have hensures := ensures_eval code frame args w hcode hw hs hargs fun c hc => hc
  refine ⟨?_, ?_, ?_⟩
  · intro id v w' hans
    obtain ⟨hw', hv, he⟩ :=
      Call.post_of_runs (fun _ _ _ _ => trivial) hensures (Call.answers_iff_runs.mp hans)
    exact ⟨Value.isData_of_obeys hv he, hv, hw', World.remembersData_of_obeys hw'⟩
  · intro w' hpass
    have hinv := inv_of_passes (k := (Policy.data σ).contract) Call.ensures_proc
      (fun _ _ _ _ _ _ => trivial) hensures hw hpass fun _ _ hask => hask.2
    exact World.remembersData_of_obeys hinv
  · rintro items rfl id v w' hans
    exact collector_module hs hw (Call.answers_iff_runs.mp hans)

/-- A collector with a memo for an array. -/
theorem eval_yields_data_collector :
    ∃ v w', Call.Answers Host.none
        ⟨.code 0 (.collector [.bind (.name "x") (.memo 1 [] (.array [.string "a"]))]),
          Program.firstFrame, []⟩ Program.firstWorld v w' ∧
      v.isError = false ∧ v.IsData ∧ w'.stored? 1 [] = some (.array [.string "a"]) ∧
        w'.RemembersData := by
  have hprelude : (Policy.data Unit).HasPrelude := fun op id => ⟨op, id, rfl⟩
  have hscope := Frame.obeys_of_overPrelude hprelude Program.overPrelude_firstFrame
  have hworld : Program.firstWorld.Obeys (Policy.data Unit) := World.obeys_of_caches_eq_nil rfl
  have hans : Call.Answers Host.none
      ⟨.code 0 (.collector [.bind (.name "x") (.memo 1 [] (.array [.string "a"]))]),
        Program.firstFrame, []⟩ Program.firstWorld _ _ := ⟨3, rfl⟩
  obtain ⟨hdata, -, -, hremembers⟩ :=
    (eval_yields_data _ hscope (List.forall_mem_nil _) hworld).1 0 _ _ hans
  exact ⟨_, _, hans, rfl, hdata, rfl, hremembers⟩

end Expr

end ChainScript
