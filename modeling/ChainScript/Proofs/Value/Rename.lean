import ChainScript.Frame
import ChainScript.Proofs.Table
import ChainScript.Value.Text

/-!
Renaming. The numbers that tell values apart mean nothing in themselves: a renamed value looks like
the value, and renamed values are equal when the values are.
-/
namespace ChainScript

mutual
/-- The value with `f` applied to all numbers that tell values apart. -/
def Value.rename (f : Nat → Nat) : Value → Value
  | .number x => .number x
  | .string s => .string s
  | .boolean b => .boolean b
  | .array items => .array (Value.renameAll f items)
  | .error id failure => .error (f id) failure
  | .module space => .module (space.rename f)
  | .native n => .native { n with id := f n.id }
  | .closure id lambda scope => .closure (f id) lambda (scope.rename f)
  | .curried id func saved arity order =>
    .curried (f id) (func.rename f) (Value.renameAll f saved) arity order
  | .thunk id code scope => .thunk (id.map f) code (scope.rename f)
  | .code id code => .code (f id) code
def Value.renameAll (f : Nat → Nat) : List Value → List Value
  | [] => []
  | v :: rest => v.rename f :: Value.renameAll f rest
def Namespace.rename (f : Nat → Nat) : Namespace → Namespace
  | ⟨module, scope⟩ => ⟨module.rename f, scope.rename f⟩
def Scope.rename (f : Nat → Nat) : Scope → Scope
  | .root => .root
  | .bound names outer => .bound (Scope.renameNames f names) (outer.rename f)
  | .module module outer => .module (module.rename f) (outer.rename f)
  | .members space outer => .members (space.rename f) (outer.rename f)
def Scope.renameNames (f : Nat → Nat) : List (String × Value) → List (String × Value)
  | [] => []
  | (x, v) :: rest => (x, v.rename f) :: Scope.renameNames f rest
def Module.rename (f : Nat → Nat) : Module → Module
  | ⟨id, imports, decls⟩ => ⟨f id, Module.renameImports f imports, Module.renameDecls f decls⟩
def Module.renameImports (f : Nat → Nat) : List (String × Module) → List (String × Module)
  | [] => []
  | (x, m) :: rest => (x, m.rename f) :: Module.renameImports f rest
def Module.renameDecls (f : Nat → Nat) : List (String × Decl) → List (String × Decl)
  | [] => []
  | (x, d) :: rest => (x, d.rename f) :: Module.renameDecls f rest
def Decl.rename (f : Nat → Nat) : Decl → Decl
  | .lambda lambda => .lambda lambda
  | .value v => .value (v.rename f)
end

variable {f : Nat → Nat}

def Binding.rename (f : Nat → Nat) : Binding → Binding
  | .value v => .value (v.rename f)
  | .function lambda scope => .function lambda (scope.rename f)

def Frame.rename (f : Nat → Nat) (frame : Frame) : Frame :=
  frame.withScope (frame.scope.rename f)

namespace Value

variable {v : Value}

@[simp] theorem renameAll_eq_map (vs : List Value) : renameAll f vs = vs.map (rename f) := by
  induction vs with
  | nil => rfl
  | cons v rest ih => rw [renameAll, ih, List.map_cons]

@[simp] theorem isError_rename : (v.rename f).isError = v.isError := by cases v <;> rfl

@[simp] theorem typeName_rename : (v.rename f).typeName = v.typeName := by cases v <;> rfl

@[simp] theorem isReversedNative_rename : (v.rename f).isReversedNative = v.isReversedNative := by
  cases v <;> rfl

@[simp] theorem identity?_rename : (v.rename f).identity? = v.identity?.map f := by
  cases v with
  | code id e => cases e <;> rfl
  | module space => obtain ⟨⟨id, imports, decls⟩, scope⟩ := space; rfl
  | _ => rfl

@[simp] theorem rename_eq_number_iff {x : Float} : v.rename f = number x ↔ v = number x := by
  cases v <;> simp [rename]

@[simp] theorem rename_eq_string_iff {s : String} : v.rename f = string s ↔ v = string s := by
  cases v <;> simp [rename]

@[simp] theorem rename_eq_boolean_iff {b : Bool} : v.rename f = boolean b ↔ v = boolean b := by
  cases v <;> simp [rename]

theorem exists_array_of_rename {items : List Value} (h : v.rename f = array items) :
    ∃ xs, v = array xs := by
  cases v <;> simp [rename] at h ⊢

theorem exists_code_of_rename {id : Nat} {e : Code} (h : v.rename f = code id e) :
    ∃ id, v = code id e := by
  cases v <;> simp [rename] at h ⊢
  exact h.2

mutual
theorem text_rename (f : Nat → Nat) : (v : Value) → (v.rename f).text = v.text
  | .array items => by simp only [rename, text, textAll_rename f items]
  | .curried _ func _ _ _ => by simp only [rename, text, text_rename f func]
  | .number _ | .string _ | .boolean _ | .error _ _ | .module _ | .native _ | .closure _ _ _
  | .thunk _ _ _ | .code _ _ => rfl
theorem textAll_rename (f : Nat → Nat) : (vs : List Value) → textAll (renameAll f vs) = textAll vs
  | [] => rfl
  | v :: rest => by simp only [renameAll, textAll, text_rename f v, textAll_rename f rest]
end

/-- Values are told apart in the same way after a renaming. -/
theorem equals_rename (hf : f.Injective) (v w : Value) :
    (v.rename f).equals (w.rename f) = v.equals w := by
  apply equals.induct (fun v w => (v.rename f).equals (w.rename f) = v.equals w)
    (fun xs ys => equalsAll (renameAll f xs) (renameAll f ys) = equalsAll xs ys)
  case case1 | case2 | case3 | case5 | case7 => intros; rfl
  case case4 =>
    intro xs ys ih
    simpa only [rename, equals] using ih
  case case6 =>
    -- Two values compared by identity: none of the other cases applies to the renamed ones either.
    intro v w hn hs hb ha hc
    rw [equals.eq_6 v w hn hs hb ha hc, equals.eq_6]
    · simp only [identity?_rename, Option.isSome_map, (Option.map_injective hf).eq_iff]
    · simpa using hn
    · simpa using hs
    · simpa using hb
    · intro xs ys hx hy
      obtain ⟨xs, rfl⟩ := exists_array_of_rename hx
      obtain ⟨ys, rfl⟩ := exists_array_of_rename hy
      exact ha xs ys rfl rfl
    · intro id x id' y hx hy
      obtain ⟨id, rfl⟩ := exists_code_of_rename hx
      obtain ⟨id', rfl⟩ := exists_code_of_rename hy
      exact hc id x id' y rfl rfl
  case case8 =>
    intro x xs y ys ih ihs
    simp only [renameAll, equalsAll, ih, ihs]
  case case9 =>
    intro xs ys hnil hcons
    cases xs with
    | nil =>
      cases ys with
      | nil => exact (hnil rfl rfl).elim
      | cons y ys => rfl
    | cons x xs =>
      cases ys with
      | nil => rfl
      | cons y ys => exact (hcons x xs y ys rfl rfl).elim

@[simp] theorem pin_rename (scope : Scope) (code : Code) :
    (pin scope code).rename f = pin (scope.rename f) code := by
  cases code <;> rfl

end Value

theorem Decl.ofValue_rename (v : Value) :
    Decl.ofValue (v.rename f) = (Decl.ofValue v).rename f := by
  cases v with
  | code id e => cases e <;> rfl
  | _ => rfl

theorem Scope.renameNames_eq (names : List (String × Value)) :
    Scope.renameNames f names = Table.mapValues (Value.rename f) names := by
  induction names with
  | nil => rfl
  | cons entry rest ih => rw [Scope.renameNames, ih]; rfl

theorem Module.renameImports_eq (imports : List (String × Module)) :
    Module.renameImports f imports = Table.mapValues (Module.rename f) imports := by
  induction imports with
  | nil => rfl
  | cons entry rest ih => rw [Module.renameImports, ih]; rfl

theorem Module.renameDecls_eq (decls : List (String × Decl)) :
    Module.renameDecls f decls = Table.mapValues (Decl.rename f) decls := by
  induction decls with
  | nil => rfl
  | cons entry rest ih => rw [Module.renameDecls, ih]; rfl

theorem Scope.outer_rename (scope : Scope) : (scope.rename f).outer = scope.outer.rename f := by
  cases scope <;> rfl

theorem Module.resolve?_rename (x : String) (m : Module) (scope : Scope) :
    (m.rename f).resolve? x (scope.rename f) = (m.resolve? x scope).map (Binding.rename f) := by
  obtain ⟨id, imports, decls⟩ := m
  simp only [rename, resolve?, renameDecls_eq, renameImports_eq, Table.get?_mapValues,
    Scope.outer_rename]
  cases Table.get? x decls with
  | some d => cases d <;> rfl
  | none => cases Table.get? x imports <;> rfl

@[simp] theorem Namespace.resolve?_rename (x : String) (space : Namespace) :
    (space.rename f).resolve? x = (space.resolve? x).map (Binding.rename f) := by
  obtain ⟨m, scope⟩ := space
  exact Module.resolve?_rename x m scope

namespace Scope

/-- A name stands for what it stood for, renamed. -/
@[simp] theorem find?_rename (x : String) (scope : Scope) :
    (scope.rename f).find? x = (scope.find? x).map (Binding.rename f) := by
  fun_induction Scope.find? x scope with
  | case1 => rfl
  | case2 names outer ih =>
    rw [rename, find?, renameNames_eq, Table.get?_mapValues, ih]
    cases Table.get? x names <;> rfl
  | case3 m outer ih =>
    -- The members of the level are closed over the level itself, so this has to be renamed as well.
    have hresolve := Module.resolve?_rename (f := f) x m (.module m outer)
    rw [rename] at hresolve
    rw [rename, find?, hresolve, ih, Option.map_or]
  | case4 space outer ih => rw [rename, find?, Namespace.resolve?_rename, ih, Option.map_or]

@[simp] theorem addAll_rename (scope : Scope) (names : List (String × Value)) :
    (scope.addAll names).rename f =
      (scope.rename f).addAll (Table.mapValues (Value.rename f) names) := by
  unfold addAll
  rw [Table.mapValues, List.isEmpty_map]
  split
  · rfl
  · rw [rename, renameNames_eq, ← Table.ofList_mapValues]
    rfl

theorem addAll_zip_rename (scope : Scope) (names : List String) (values : List Value) :
    (scope.addAll (names.zip values)).rename f =
      (scope.rename f).addAll (names.zip (values.map (Value.rename f))) := by
  rw [addAll_rename, Table.mapValues, List.zip_map_right]

end Scope

/-- A module of values, renamed. -/
theorem Module.space_rename (id : Nat) (names : Table String Value) (scope : Scope) :
    (Module.space ⟨id, [], names.map fun e => (e.1, Decl.ofValue e.2)⟩ scope).rename f =
      Module.space ⟨f id, [], (names.mapValues (.rename f)).map fun e => (e.1, Decl.ofValue e.2)⟩
        (scope.rename f) := by
  have hdecls : Table.mapValues (Decl.rename f) (names.map fun e => (e.1, Decl.ofValue e.2)) =
      (names.mapValues (.rename f)).map fun e => (e.1, Decl.ofValue e.2) := by
    simp only [Table.mapValues, List.map_map, Function.comp_def, Prod.map, Decl.ofValue_rename]
  simp only [space, Namespace.rename, Scope.rename, rename, renameDecls_eq, hdecls, renameImports]

@[simp] theorem Frame.scope_rename (frame : Frame) :
    (frame.rename f).scope = frame.scope.rename f := rfl

end ChainScript
