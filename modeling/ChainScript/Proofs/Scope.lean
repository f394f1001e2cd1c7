import ChainScript.Proofs.Table
import ChainScript.Scope

/-!
Scopes layer by layer. The names in sight are those of all the layers, the innermost first, and a
name stands for what the innermost layer that has it says.
-/
namespace ChainScript

namespace Module

variable {m : Module} {x : String} {scope : Scope} {b : Binding}

/-- What a name stands for as a member of a module seen from `scope`. Declarations hide imports. -/
inductive Member (m : Module) (x : String) (scope : Scope) : Binding → Prop
  | function {l} (h : Table.get? x m.decls = some (.lambda l)) :
      Member m x scope (.function l scope)
  | value {v} (h : Table.get? x m.decls = some (.value v)) : Member m x scope (.value v)
  | imported {m'} (hd : Table.get? x m.decls = none) (hi : Table.get? x m.imports = some m') :
      Member m x scope (.value (.module ⟨m', .module m' scope.outer⟩))

theorem resolve?_eq_some_iff : m.resolve? x scope = some b ↔ m.Member x scope b := by
  constructor
  · intro h
    rw [resolve?] at h
    split at h
    next hd =>
      obtain rfl := Option.some.inj h
      exact .function hd
    next hd =>
      obtain rfl := Option.some.inj h
      exact .value hd
    next hd =>
      obtain ⟨m', hi, rfl⟩ := Option.map_eq_some_iff.mp h
      exact .imported hd hi
  · intro h
    cases h with
    | function h => simp [resolve?, h]
    | value h => simp [resolve?, h]
    | imported hd hi => simp [resolve?, hd, hi]

theorem mem_names_iff (scope : Scope) : x ∈ m.names ↔ (m.resolve? x scope).isSome = true := by
  rw [names, List.mem_append, Table.mem_keys_iff, Table.mem_keys_iff, resolve?]
  cases Table.get? x m.decls with
  | none => simp
  | some d => cases d <;> simp

end Module

namespace Scope

/--
What can be put in front of a scope: one name, several names at once, a module whose members see the
scope, or the members of a module that keep to a scope of their own.
-/
inductive Layer where
  | one (name : String) (value : Value)
  | many (entries : List (String × Value))
  | module (m : Module)
  | members (space : Namespace)

/-- The scope with one more layer in front. -/
def push (scope : Scope) : Layer → Scope
  | .one name value => scope.add name value
  | .many entries => scope.addAll entries
  | .module m => module m scope
  | .members space => members space scope

/-- The scope made of layers, the outermost first. -/
def build (layers : List Layer) : Scope := layers.foldl push root

namespace Layer

variable {layer : Layer} {outer : Scope} {x : String} {b : Binding}

def names : Layer → List String
  | one name _ => [name]
  | many entries => entries.map (·.1)
  | module m => m.names
  | members space => space.module.names

/-- What a layer in front of `outer` says that a name stands for. -/
inductive Binds (outer : Scope) (x : String) : Layer → Binding → Prop
  | one {v} : Binds outer x (one x v) (.value v)
  | many {entries v} (h : Table.IsLast x v entries) : Binds outer x (many entries) (.value v)
  | module {m b} (h : m.Member x (.module m outer) b) : Binds outer x (module m) b
  | members {space b} (h : space.module.Member x space.scope b) : Binds outer x (members space) b

/-- What a layer has for a name. -/
def own? (outer : Scope) (x : String) : Layer → Option Binding
  | one name value => if name = x then some (.value value) else none
  | many entries => (Table.get? x (Table.ofList entries)).map .value
  | module m => m.resolve? x (.module m outer)
  | members space => space.resolve? x

theorem own?_eq_some_iff : layer.own? outer x = some b ↔ layer.Binds outer x b := by
  cases layer with
  | one name value =>
    constructor
    · intro h
      rw [own?] at h
      split at h
      next hname =>
        obtain rfl := hname
        obtain rfl := Option.some.inj h
        exact .one
      · cases h
    · intro h
      cases h with
      | one => exact if_pos rfl
  | many entries =>
    constructor
    · intro h
      obtain ⟨v, hv, rfl⟩ := Option.map_eq_some_iff.mp h
      exact .many (Table.get?_ofList_eq_some_iff.mp hv)
    · intro h
      cases h with
      | many h =>
        rw [own?, Table.get?_ofList_eq_some_iff.mpr h]
        rfl
  | module m =>
    refine Module.resolve?_eq_some_iff.trans ⟨.module, fun h => ?_⟩
    cases h with
    | module h => exact h
  | members space =>
    refine Module.resolve?_eq_some_iff.trans ⟨.members, fun h => ?_⟩
    cases h with
    | members h => exact h

theorem mem_names_iff (outer : Scope) : x ∈ layer.names ↔ (layer.own? outer x).isSome = true := by
  cases layer with
  | one name value =>
    rw [names, List.mem_singleton, own?]
    split <;> simp_all [eq_comm]
  | many entries => rw [names, own?, Option.isSome_map, ← Table.mem_keys_iff, Table.mem_keys_ofList]
  | module m => exact Module.mem_names_iff _
  | members space => exact Module.mem_names_iff _

end Layer

variable {scope : Scope} {layer : Layer} {layers inner : List Layer} {x : String} {b : Binding}

theorem build_append_singleton (layers : List Layer) (layer : Layer) :
    build (layers ++ [layer]) = (build layers).push layer :=
  List.foldl_append

section Find

theorem find?_addAll (scope : Scope) (names : List (String × Value)) (x : String) :
    (scope.addAll names).find? x =
      ((Table.get? x (Table.ofList names)).map Binding.value).or (scope.find? x) := by
  unfold addAll
  split
  next hnil =>
    obtain rfl := List.isEmpty_iff.mp hnil
    rfl
  · rfl

/-- A layer has the answer or leaves it to those around it. -/
theorem find?_push (scope : Scope) (layer : Layer) (x : String) :
    (scope.push layer).find? x = (layer.own? scope x).or (scope.find? x) := by
  cases layer with
  | one name value =>
    rw [push, add, find?, Layer.own?, Table.get?, Table.get?]
    split <;> rfl
  | many entries => exact find?_addAll scope entries x
  | module m => rfl
  | members space => rfl

theorem find?_push_of_mem (h : x ∈ layer.names) :
    (scope.push layer).find? x = layer.own? scope x := by
  obtain ⟨b, hb⟩ := Option.isSome_iff_exists.mp ((Layer.mem_names_iff scope).mp h)
  rw [find?_push, hb, Option.some_or]

theorem find?_push_of_not_mem (h : x ∉ layer.names) :
    (scope.push layer).find? x = scope.find? x := by
  rw [Layer.mem_names_iff scope, Option.not_isSome_iff_eq_none] at h
  rw [find?_push, h, Option.none_or]

/-- Layers without the name make no difference. -/
theorem find?_build_append (layers : List Layer) (h : ∀ layer ∈ inner, x ∉ layer.names) :
    (build (layers ++ inner)).find? x = (build layers).find? x := by
  induction inner using List.reverseRecOn with
  | nil => rw [List.append_nil]
  | append_singleton inner layer ih =>
    rw [← List.append_assoc, build_append_singleton, find?_push_of_not_mem (h layer (by simp))]
    exact ih fun l hl => h l (by simp [hl])

/-- A name stands for what the innermost layer that has it says. -/
theorem find?_build_eq_some_iff : (build layers).find? x = some b ↔
    ∃ before layer inner, layers = before ++ layer :: inner ∧ layer.Binds (build before) x b ∧
      ∀ l ∈ inner, x ∉ l.names := by
  constructor
  · intro h
    induction layers using List.reverseRecOn with
    | nil => cases h
    | append_singleton layers layer ih =>
      rw [build_append_singleton] at h
      by_cases hx : x ∈ layer.names
      · rw [find?_push_of_mem hx] at h
        exact ⟨layers, layer, [], rfl, Layer.own?_eq_some_iff.mp h, by simp⟩
      · rw [find?_push_of_not_mem hx] at h
        obtain ⟨before, found, inner, rfl, hbinds, hinner⟩ := ih h
        refine ⟨before, found, inner ++ [layer], by simp, hbinds, ?_⟩
        intro l hl
        rcases List.mem_append.mp hl with hl | hl
        · exact hinner l hl
        · exact List.mem_singleton.mp hl ▸ hx
  · rintro ⟨before, layer, inner, rfl, hbinds, hinner⟩
    have hown := Layer.own?_eq_some_iff.mpr hbinds
    have hx : x ∈ layer.names := by simp [Layer.mem_names_iff (build before), hown]
    rw [List.append_cons, find?_build_append _ hinner, build_append_singleton,
      find?_push_of_mem hx, hown]

theorem isSome_find?_build :
    ((build layers).find? x).isSome = true ↔ ∃ layer ∈ layers, x ∈ layer.names := by
  induction layers using List.reverseRecOn with
  | nil => simp [build, find?]
  | append_singleton layers layer ih =>
    simp [build_append_singleton, find?_push, ih, Layer.mem_names_iff (build layers), or_comm]

end Find

section Known

variable {names seen : List String}

theorem nodup_note (h : seen.Nodup) (x : String) : (note seen x).Nodup := by
  rw [note]
  split
  · exact h
  next hx =>
    refine List.nodup_append.mpr ⟨h, by simp, ?_⟩
    intro y hy z hz
    obtain rfl := List.mem_singleton.mp hz
    rintro rfl
    exact hx (List.contains_iff_mem.mpr hy)

theorem nodup_known (scope : Scope) : scope.known.Nodup := by
  rw [known]
  induction scope.levels.flatten using List.reverseRecOn with
  | nil => exact List.nodup_nil
  | append_singleton names x ih =>
    rw [List.foldl_append]
    exact nodup_note ih x

/-- Names that are noted behind others are those that are new. -/
theorem foldl_note (seen names : List String) :
    names.foldl note seen = seen ++ (names.foldl note []).filter (· ∉ seen) := by
  induction names using List.reverseRecOn with
  | nil => simp
  | append_singleton names x ih =>
    simp only [List.foldl_append, List.foldl_cons, List.foldl_nil, ih]
    by_cases hs : x ∈ seen <;> by_cases hn : x ∈ names.foldl note [] <;> simp [note, hs, hn]

theorem mem_foldl_note (names : List String) : x ∈ names.foldl note [] ↔ x ∈ names := by
  induction names using List.reverseRecOn generalizing x with
  | nil => simp
  | append_singleton names y ih =>
    rw [List.foldl_append, List.foldl_cons, List.foldl_nil, note]
    split
    next hy =>
      have hy : y ∈ names := ih.mp (List.contains_iff_mem.mp hy)
      rw [ih, List.mem_append, List.mem_singleton]
      refine ⟨.inl, fun hx => ?_⟩
      rcases hx with hx | rfl
      · exact hx
      · exact hy
    · simp [ih]

/-- A layer puts its own names in front. -/
theorem exists_levels_push (scope : Scope) (layer : Layer) :
    ∃ own, (scope.push layer).levels.flatten = own ++ scope.levels.flatten ∧
      ∀ x, x ∈ own ↔ x ∈ layer.names := by
  cases layer with
  | many entries =>
    refine ⟨Table.keys (Table.ofList entries), ?_, fun x => Table.mem_keys_ofList⟩
    rw [push, addAll]
    split
    next hnil =>
      obtain rfl := List.isEmpty_iff.mp hnil
      rfl
    · rfl
  | _ => exact ⟨_, rfl, fun x => Iff.rfl⟩

theorem exists_levels_build (layers inner : List Layer) :
    ∃ own, (build (layers ++ inner)).levels.flatten = own ++ (build layers).levels.flatten ∧
      ∀ x, x ∈ own ↔ ∃ layer ∈ inner, x ∈ layer.names := by
  induction inner using List.reverseRecOn with
  | nil => exact ⟨[], by simp, by simp⟩
  | append_singleton inner layer ih =>
    obtain ⟨own, hown, hmem⟩ := ih
    obtain ⟨front, hfront, hmem'⟩ := exists_levels_push (build (layers ++ inner)) layer
    refine ⟨front ++ own, ?_, ?_⟩
    · rw [← List.append_assoc, build_append_singleton, hfront, hown, List.append_assoc]
    · intro x
      simp [hmem, hmem', or_comm]

/-- The names of inner layers come first, then the others in the order they had. -/
theorem known_build_append (layers inner : List Layer) :
    ∃ front, (build (layers ++ inner)).known =
        front ++ (build layers).known.filter (fun x => ∀ layer ∈ inner, x ∉ layer.names) ∧
      ∀ x, x ∈ front ↔ ∃ layer ∈ inner, x ∈ layer.names := by
  obtain ⟨own, hown, hmem⟩ := exists_levels_build layers inner
  have hfront : ∀ x, x ∈ own.foldl note [] ↔ ∃ layer ∈ inner, x ∈ layer.names :=
    fun x => (mem_foldl_note own).trans (hmem x)
  refine ⟨own.foldl note [], ?_, hfront⟩
  rw [known, hown, List.foldl_append, foldl_note, known]
  congr 1
  refine List.filter_congr ?_
  intro x _
  simp [hfront]

theorem mem_known_build : x ∈ (build layers).known ↔ ∃ layer ∈ layers, x ∈ layer.names := by
  obtain ⟨front, hfront, hmem⟩ := known_build_append [] layers
  have hknown : (build layers).known = front := by simpa [build, known, levels] using hfront
  rw [hknown, hmem]

end Known

/--
The names in sight are those that stand for something, each once and those of inner layers first. A
name stands for what the innermost layer that has it says: the last value under the name among names
that were put there together, and the declaration rather than the import of a module.
-/
theorem known_agrees_find? (layers : List Layer) :
    (build layers).known.Nodup ∧
    (∀ x, x ∈ (build layers).known ↔ ((build layers).find? x).isSome = true) ∧
    (∀ inner, ∃ front, (build (layers ++ inner)).known =
        front ++ (build layers).known.filter (fun x => ∀ layer ∈ inner, x ∉ layer.names) ∧
      ∀ x, x ∈ front ↔ ∃ layer ∈ inner, x ∈ layer.names) ∧
    ∀ x b, (build layers).find? x = some b ↔
      ∃ before layer inner, layers = before ++ layer :: inner ∧ layer.Binds (build before) x b ∧
        ∀ l ∈ inner, x ∉ l.names := by
  refine ⟨nodup_known _, ?_, known_build_append layers, fun x b => find?_build_eq_some_iff⟩
  intro x
  rw [mem_known_build, isSome_find?_build]

example (u v : Value) :
    let scope := build [.one "a" u, .many [("b", u), ("c", u), ("b", v)], .one "c" v]
    scope.known = ["c", "b", "a"] ∧ scope.find? "b" = some (.value v) := by
  exact ⟨rfl, rfl⟩

end Scope

end ChainScript
