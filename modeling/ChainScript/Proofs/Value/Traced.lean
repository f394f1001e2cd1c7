import ChainScript.Proofs.Eval.Data

/-!
Traced values: all errors inside of them are among those given, and all native functions belong to
the prelude. What is taken out of traced values is traced, and so is what is built from them.
-/
namespace ChainScript

/-- A collection of errors: their numbers and their failures. -/
abbrev Errors : Type := Nat → Failure → Prop

variable {given : Errors}

/-- What is asked of each value by itself. -/
def Value.IsTraced (given : Errors) : Value → Prop
  | error id failure => given id failure
  | native n => ∃ op, n.operation = .builtin op
  | _ => True

def Value.Traced (given : Errors) (v : Value) : Prop :=
  ∀ u : Value, u.Inside v → u.IsTraced given

def Namespace.Traced (given : Errors) (space : Namespace) : Prop :=
  ∀ u : Value, u.InNamespace space → u.IsTraced given

def Scope.Traced (given : Errors) (s : Scope) : Prop :=
  ∀ u : Value, u.InScope s → u.IsTraced given

def Module.Traced (given : Errors) (m : Module) : Prop :=
  ∀ u : Value, u.InModule m → u.IsTraced given

def Binding.Traced (given : Errors) : Binding → Prop
  | value v => v.Traced given
  | function _ scope => scope.Traced given

/-- All that the memos remember is traced. -/
def World.Traced {σ : Type} (given : Errors) (w : World σ) : Prop :=
  ∀ mark keys v, w.stored? mark keys = some v → v.Traced given

namespace Value

theorem exists_of_isError {v : Value} (h : v.isError = true) :
    ∃ id failure, v = error id failure := by
  cases v with
  | error id failure => exact ⟨id, failure, rfl⟩
  | _ => cases h

theorem traced_number (x : Float) : (number x).Traced given := by
  intro u hu
  cases hu
  trivial

theorem traced_string (s : String) : (string s).Traced given := by
  intro u hu
  cases hu
  trivial

theorem traced_boolean (b : Bool) : (boolean b).Traced given := by
  intro u hu
  cases hu
  trivial

theorem traced_error {id : Nat} {failure : Failure} (h : given id failure) :
    (error id failure).Traced given := by
  intro u hu
  cases hu
  exact h

theorem traced_array {items : List Value} (h : ∀ v ∈ items, v.Traced given) :
    (array items).Traced given := by
  intro u hu
  cases hu with
  | self => trivial
  | item hv hu => exact h _ hv u hu

theorem traced_module {space : Namespace} (h : space.Traced given) :
    (module space).Traced given := by
  intro u hu
  cases hu with
  | self => trivial
  | member hu => exact h u hu

theorem traced_closure {scope : Scope} (h : scope.Traced given) (id : Nat)
    (l : Lambda ChainScript.Code) : (closure id l scope).Traced given := by
  intro u hu
  cases hu with
  | self => trivial
  | captured hu => exact h u hu

theorem traced_curried {func : Value} {saved : List Value} (hf : func.Traced given)
    (hs : ∀ v ∈ saved, v.Traced given) (id arity : Nat) (order : Order) :
    (curried id func saved arity order).Traced given := by
  intro u hu
  cases hu with
  | self => trivial
  | func hu => exact hf u hu
  | saved hv hu => exact hs _ hv u hu

theorem traced_thunk {scope : Scope} (h : scope.Traced given) (id : Option Nat)
    (e : ChainScript.Code) : (thunk id e scope).Traced given := by
  intro u hu
  cases hu with
  | self => trivial
  | pinned hu => exact h u hu

theorem traced_pin {scope : Scope} (h : scope.Traced given) (e : ChainScript.Code) :
    (pin scope e).Traced given := by
  rw [pin]
  cases e with
  | number x => exact traced_number x
  | string s => exact traced_string s
  | empty => exact traced_array (by simp)
  | _ => exact traced_thunk h none _

end Value

namespace Scope

variable {s : Scope} {names : List (String × Value)}

theorem ne_root_of_inScope {u : Value} {s : Scope} (h : u.InScope s) : s ≠ root :=
  match h with
  | .bound _ _ => nofun
  | .module _ => nofun
  | .members _ => nofun
  | .outer h => by
    have houter := ne_root_of_inScope h
    rintro rfl
    exact houter rfl

theorem traced_root : root.Traced given :=
  fun _ hu => (ne_root_of_inScope hu rfl).elim

theorem traced_outer (h : s.Traced given) : s.outer.Traced given :=
  fun u hu => h u (.outer hu)

theorem traced_bound (hn : ∀ e ∈ names, e.2.Traced given) (hs : s.Traced given) :
    (bound names s).Traced given := by
  intro u hu
  cases hu with
  | bound he hu => exact hn _ he u hu
  | outer hu => exact hs u hu

theorem traced_moduleLevel {m : Module} (hm : m.Traced given) (hs : s.Traced given) :
    (Scope.module m s).Traced given := by
  intro u hu
  cases hu with
  | module hu => exact hm u hu
  | outer hu => exact hs u hu

theorem traced_members {space : Namespace} (hspace : space.Traced given) (hs : s.Traced given) :
    (members space s).Traced given := by
  intro u hu
  cases hu with
  | members hu => exact hspace u hu
  | outer hu => exact hs u hu

theorem traced_add {v : Value} (hs : s.Traced given) (hv : v.Traced given) (x : String) :
    (s.add x v).Traced given :=
  traced_bound (by simpa using hv) hs

theorem traced_addAll (hs : s.Traced given) (hn : ∀ e ∈ names, e.2.Traced given) :
    (s.addAll names).Traced given := by
  rw [addAll]
  split
  · exact hs
  · exact traced_bound (fun e he => hn e (Table.mem_ofList he)) hs

end Scope

theorem Namespace.traced_mk {m : Module} {s : Scope} (hm : m.Traced given) (hs : s.Traced given) :
    Namespace.Traced given ⟨m, s⟩ := by
  intro u hu
  cases hu with
  | module hu => exact hm u hu
  | scope hu => exact hs u hu

theorem Module.traced_space {m : Module} {s : Scope} (hm : m.Traced given) (hs : s.Traced given) :
    (m.space s).Traced given :=
  Namespace.traced_mk hm (Scope.traced_moduleLevel hm hs)

/-- A module of functions has no values inside. -/
theorem Module.traced_of_loaded {memos : Memos} {m : Module} (h : m.Loaded memos) :
    m.Traced given := by
  induction h with
  | mk _ hd ih =>
    intro u hu
    cases hu with
    | imported he hu => exact ih _ he u hu
    | declared he hu =>
      obtain ⟨l, hl, -⟩ := hd _ he
      cases hl

/-- The module of a collector has the values that were bound. -/
theorem Module.traced_ofBound {bound : List (String × Value)} (h : ∀ e ∈ bound, e.2.Traced given)
    (id : Nat) :
    Module.Traced given
      ⟨id, [], (Table.ofList bound).map fun (name, v) => (name, Decl.ofValue v)⟩ := by
  intro u hu
  cases hu with
  | imported he _ => cases he
  | @declared _ _ _ x v he hu =>
    obtain ⟨⟨y, v'⟩, hmem, heq⟩ := List.mem_map.mp he
    have hv : v' = v := by
      rw [Prod.mk.injEq] at heq
      have hdecl := heq.2
      unfold Decl.ofValue at hdecl
      split at hdecl <;> cases hdecl
      rfl
    subst hv
    exact h _ (Table.mem_ofList hmem) u hu

theorem Module.traced_resolve? {m : Module} {s : Scope} {x : String} {b : Binding}
    (hm : m.Traced given) (hs : s.Traced given) (h : m.resolve? x s = some b) :
    b.Traced given := by
  obtain ⟨id, imports, decls⟩ := m
  rw [resolve?] at h
  split at h
  next l hl =>
    cases h
    exact hs
  next v hv =>
    cases h
    exact fun u hu => hm u (.declared (Table.mem_of_get? hv) hu)
  next =>
    obtain ⟨imported, himported, rfl⟩ := Option.map_eq_some_iff.mp h
    have himport : imported.Traced given :=
      fun u hu => hm u (.imported (Table.mem_of_get? himported) hu)
    exact Value.traced_module (Module.traced_space himport (Scope.traced_outer hs))

theorem Namespace.traced_resolve? {space : Namespace} {x : String} {b : Binding}
    (hspace : space.Traced given) (h : space.resolve? x = some b) : b.Traced given := by
  obtain ⟨m, s⟩ := space
  exact Module.traced_resolve? (fun u hu => hspace u (.module hu))
    (fun u hu => hspace u (.scope hu)) h

theorem Scope.traced_find? {s : Scope} {x : String} {b : Binding} (hs : s.Traced given)
    (h : s.find? x = some b) : b.Traced given := by
  fun_induction Scope.find? x s with
  | case1 => cases h
  | case2 names outer ih =>
    rcases Option.or_eq_some_iff.mp h with h | ⟨_, h⟩
    · obtain ⟨v, hv, rfl⟩ := Option.map_eq_some_iff.mp h
      exact fun u hu => hs u (.bound (Table.mem_of_get? hv) hu)
    · exact ih (traced_outer hs) h
  | case3 m outer ih =>
    rcases Option.or_eq_some_iff.mp h with h | ⟨_, h⟩
    · exact Module.traced_resolve? (fun u hu => hs u (.module hu)) hs h
    · exact ih (traced_outer hs) h
  | case4 space outer ih =>
    rcases Option.or_eq_some_iff.mp h with h | ⟨_, h⟩
    · exact Namespace.traced_resolve? (fun u hu => hs u (.members hu)) h
    · exact ih (traced_outer hs) h

/-- There is nothing in the prelude but its own natives. -/
theorem Frame.traced_of_overPrelude {frame : Frame} (h : frame.OverPrelude) :
    frame.scope.Traced given := by
  obtain ⟨base, h⟩ := h
  rw [h]
  refine Scope.traced_addAll Scope.traced_root ?_
  intro e he
  rcases List.mem_append.mp he with he | he
  · obtain ⟨i, op, rfl⟩ := List.mem_mapIdx.mp he
    intro u hu
    cases hu
    exact ⟨_, rfl⟩
  · simp only [List.mem_cons, List.not_mem_nil, or_false] at he
    rcases he with rfl | rfl | rfl <;> exact Value.traced_boolean _

namespace World

variable {σ : Type} {w w' : World σ}

theorem traced_of_caches (h : w.Traced given) (hcaches : w'.caches = w.caches) :
    w'.Traced given := by
  intro mark keys v hv
  refine h mark keys v ?_
  rwa [stored?, cache, ← hcaches]

theorem traced_store {mark : Nat} {keys : List Memo.Key} {v : Value} (hw : w.Traced given)
    (hv : v.Traced given) : (w.store mark keys v).Traced given := by
  intro mark' keys' v' hv'
  rw [stored?_store] at hv'
  split at hv'
  · obtain rfl := Option.some.inj hv'
    exact hv
  · exact hw mark' keys' v' hv'

end World

end ChainScript
