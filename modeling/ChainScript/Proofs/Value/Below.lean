import ChainScript.Proofs.World.Rename

/-!
Values whose numbers are all below a bound. Then no renaming that moves the numbers from the bound
on changes them, which is what the bound is for.
-/
namespace ChainScript

variable {σ α : Type} {n n' k : Nat} {u v : Value} {scope : Scope} {args : List Value}

/-- Moves the numbers from `n` on up by one. -/
def bump (n k : Nat) : Nat := if k < n then k else k + 1

/-- What is renamed does not change if numbers from `n` on are moved. -/
def Below (rename : (Nat → Nat) → α → α) (n : Nat) (a : α) : Prop :=
  ∀ m, n ≤ m → rename (bump m) a = a

theorem below_mono {rename : (Nat → Nat) → α → α} {a : α} (h : Below rename n a) (hn : n ≤ n') :
    Below rename n' a :=
  fun m hm => h m (Nat.le_trans hn hm)

theorem bump_eq_self_iff : (∀ m, n ≤ m → bump m k = k) ↔ k < n := by
  constructor
  · intro h
    have hk := h n (Nat.le_refl n)
    unfold bump at hk
    split at hk
    next hlt => exact hlt
    next => omega
  · intro h m hm
    exact if_pos (Nat.lt_of_lt_of_le h hm)

abbrev Value.Below (v : Value) (n : Nat) : Prop := ChainScript.Below Value.rename n v

abbrev Scope.Below (scope : Scope) (n : Nat) : Prop := ChainScript.Below Scope.rename n scope

abbrev Namespace.Below (space : Namespace) (n : Nat) : Prop :=
  ChainScript.Below Namespace.rename n space

abbrev Binding.Below (b : Binding) (n : Nat) : Prop := ChainScript.Below Binding.rename n b

theorem map_rename_eq_iff {rename : (Nat → Nat) → α → α} {f : Nat → Nat} {as : List α} :
    as.map (rename f) = as ↔ ∀ a ∈ as, rename f a = a := by
  have hid := List.map_inj_left (l := as) (f := rename f) (g := id)
  rwa [List.map_id] at hid

namespace Value

theorem map_rename_of_below (h : ∀ a ∈ args, a.Below n) {m : Nat} (hm : n ≤ m) :
    args.map (rename (bump m)) = args :=
  map_rename_eq_iff.mpr fun a ha => h a ha m hm

theorem below_array_iff : (array args).Below n ↔ ∀ a ∈ args, a.Below n := by
  constructor
  · intro h a ha m hm
    have hitems := array.inj (h m hm)
    rw [renameAll_eq_map] at hitems
    exact map_rename_eq_iff.mp hitems a ha
  · intro h m hm
    rw [rename, renameAll_eq_map, map_rename_of_below h hm]

theorem below_number (x : Float) : (number x).Below n := fun _ _ => rfl

theorem below_string (s : String) : (string s).Below n := fun _ _ => rfl

theorem below_boolean (b : Bool) : (boolean b).Below n := fun _ _ => rfl

theorem below_error_iff {failure : Failure} : (error k failure).Below n ↔ k < n := by
  rw [← bump_eq_self_iff]
  simp [Value.Below, ChainScript.Below, rename]

theorem below_closure_iff {l : Lambda Code} :
    (closure k l scope).Below n ↔ k < n ∧ scope.Below n := by
  rw [← bump_eq_self_iff]
  simp [Value.Below, Scope.Below, ChainScript.Below, rename, imp_and, forall_and]

theorem below_curried_iff {arity : Nat} {order : Order} :
    (curried k u args arity order).Below n ↔ k < n ∧ u.Below n ∧ ∀ a ∈ args, a.Below n := by
  rw [← bump_eq_self_iff, ← below_array_iff]
  simp [Value.Below, ChainScript.Below, rename, imp_and, forall_and]

theorem below_thunk_iff {code : ChainScript.Code} :
    (thunk none code scope).Below n ↔ scope.Below n := by
  simp [Value.Below, Scope.Below, ChainScript.Below, rename]

theorem below_of_thunk {id : Option Nat} {code : ChainScript.Code}
    (h : (thunk id code scope).Below n) : scope.Below n :=
  fun m hm => (thunk.inj (h m hm)).2.2

theorem below_module_iff {space : Namespace} : (module space).Below n ↔ space.Below n := by
  simp [Value.Below, Namespace.Below, ChainScript.Below, rename]

theorem below_pin {e : ChainScript.Code} (h : scope.Below n) : (pin scope e).Below n := by
  intro m hm
  rw [pin_rename, h m hm]

end Value

namespace Scope

variable {b : Binding} {x : String} {names : List (String × Value)}

theorem below_find? (h : scope.Below n) (hb : scope.find? x = some b) : b.Below n := by
  intro m hm
  have hfind := find?_rename (f := bump m) x scope
  rw [h m hm, hb] at hfind
  exact (Option.some.inj hfind).symm

theorem mapValues_of_below (h : ∀ e ∈ names, e.2.Below n) {m : Nat} (hm : n ≤ m) :
    Table.mapValues (Value.rename (bump m)) names = names := by
  unfold Table.mapValues
  conv_rhs => rw [← List.map_id names]
  refine List.map_congr_left fun e he => ?_
  exact Prod.ext rfl (h e he m hm)

theorem below_add (h : scope.Below n) (hv : v.Below n) : (scope.add x v).Below n := by
  intro m hm
  rw [add, rename, renameNames, renameNames, h m hm, hv m hm]

theorem below_addAll (h : scope.Below n) (hnames : ∀ e ∈ names, e.2.Below n) :
    (scope.addAll names).Below n := by
  intro m hm
  rw [addAll_rename, h m hm, mapValues_of_below hnames hm]

theorem below_members {space : Namespace} (hspace : space.Below n) (h : scope.Below n) :
    (members space scope).Below n := by
  intro m hm
  rw [rename, hspace m hm, h m hm]

end Scope

theorem Namespace.below_resolve? {space : Namespace} {b : Binding} {x : String}
    (h : space.Below n) (hb : space.resolve? x = some b) : b.Below n := by
  intro m hm
  have hresolve := Namespace.resolve?_rename (f := bump m) x space
  rw [h m hm, hb] at hresolve
  exact (Option.some.inj hresolve).symm

/-- A new module of values. -/
theorem Module.below_space {names : Table String Value} (hk : k < n)
    (hnames : ∀ e ∈ names, e.2.Below n) (h : scope.Below n) :
    (Module.space ⟨k, [], names.map fun e => (e.1, Decl.ofValue e.2)⟩ scope).Below n := by
  intro m hm
  rw [Module.space_rename, h m hm, Scope.mapValues_of_below hnames hm,
    bump_eq_self_iff.mpr hk m hm]

theorem Binding.below_value_iff : (Binding.value v).Below n ↔ v.Below n := by
  simp [Binding.Below, Value.Below, ChainScript.Below, rename]

theorem Binding.below_function_iff {l : Lambda Code} :
    (Binding.function l scope).Below n ↔ scope.Below n := by
  simp [Binding.Below, Scope.Below, ChainScript.Below, rename]

namespace World

/-- The numbers in what the memos remember are all used up. -/
def Numbered (w : World σ) : Prop :=
  ∀ m, w.next ≤ m → (w.rename (Renaming.shift m 1 id)).caches = w.caches

variable {w w' : World σ} {mark : Nat} {values : List Value}

theorem numbered_of_caches (h : w.Numbered) (hcaches : w'.caches = w.caches)
    (hnext : w.next ≤ w'.next) : w'.Numbered := by
  intro m hm
  have hold := h m (Nat.le_trans hnext hm)
  simp only [rename] at hold ⊢
  rw [hcaches]
  exact hold

theorem numbered_of_caches_eq_nil (h : w.caches = []) : w.Numbered := by
  intro m _
  simp only [rename, h]
  rfl

/-- A renaming of the caches alone does not change what they have for what it does not change. -/
theorem stored?_of_numbered (h : w.Numbered) (hvalues : ∀ u ∈ values, u.Below w.next)
    (hv : w.stored? mark (Memo.Key.ofValues values) = some v) : v.Below w.next := by
  intro m hm
  have hkeys := Memo.Key.ofValues_map_rename (f := bump m) values
  rw [Value.map_rename_of_below hvalues hm] at hkeys
  have hstored := stored?_rename (Renaming.shift m 1 id) w mark (Memo.Key.ofValues values)
  have hcache : (w.rename (Renaming.shift m 1 id)).stored? mark (Memo.Key.ofValues values) =
      w.stored? mark (Memo.Key.ofValues values) := by
    rw [stored?, stored?, cache, cache, h m hm]
  change World.stored? _ mark ((Memo.Key.ofValues values).map (.rename (bump m))) =
    (w.stored? mark _).map (.rename (bump m)) at hstored
  rw [← hkeys, hcache, hv] at hstored
  exact (Option.some.inj hstored).symm

theorem numbered_store (h : w.Numbered) (hvalues : ∀ u ∈ values, u.Below w.next)
    (hv : v.Below w.next) : (w.store mark (Memo.Key.ofValues values) v).Numbered := by
  intro m hm
  have hkeys := Memo.Key.ofValues_map_rename (f := bump m) values
  rw [Value.map_rename_of_below hvalues hm] at hkeys
  have hstore := store_rename (Renaming.shift m 1 id) w mark (Memo.Key.ofValues values) v
  change World.store _ mark ((Memo.Key.ofValues values).map (.rename (bump m)))
    (v.rename (bump m)) = _ at hstore
  rw [← hkeys, hv m hm] at hstore
  rw [← hstore]
  simp only [store, cache, h m hm]

end World

end ChainScript
