import ChainScript.World
import ChainScript.Proofs.Value.Rename

/-!
Renaming the values that memos remember. A renamed world remembers for renamed arguments the
renamed results, and it goes on from the renamed number.
-/
namespace ChainScript

namespace Memo

mutual
def Key.rename (f : Nat → Nat) : Key → Key
  | .number bits => .number bits
  | .string s => .string s
  | .boolean b => .boolean b
  | .array items => .array (Key.renameAll f items)
  | .identity id => .identity (id.map f)
def Key.renameAll (f : Nat → Nat) : List Key → List Key
  | [] => []
  | k :: rest => k.rename f :: Key.renameAll f rest
end

namespace Key

variable {f : Nat → Nat}

theorem renameAll_eq_map (keys : List Key) : renameAll f keys = keys.map (rename f) := by
  induction keys with
  | nil => rfl
  | cons k rest ih => rw [renameAll, ih, List.map_cons]

mutual
theorem eq_of_rename (hf : f.Injective) : (j k : Key) → j.rename f = k.rename f → j = k
  | .array xs, k, h => by
    cases k with
    | array ys => rw [eq_of_renameAll hf xs ys (Key.array.inj h)]
    | _ => simp [rename] at h
  | .identity a, k, h => by
    cases k with
    | identity b => rw [Option.map_injective hf (Key.identity.inj h)]
    | _ => simp [rename] at h
  | .number _, k, h | .string _, k, h | .boolean _, k, h => by
    cases k <;> simp_all [rename]
theorem eq_of_renameAll (hf : f.Injective) :
    (js ks : List Key) → renameAll f js = renameAll f ks → js = ks
  | [], [], _ => rfl
  | [], _ :: _, h | _ :: _, [], h => by simp [renameAll] at h
  | j :: js, k :: ks, h => by
    obtain ⟨hj, hjs⟩ := List.cons.inj h
    rw [eq_of_rename hf j k hj, eq_of_renameAll hf js ks hjs]
end

theorem rename_injective (hf : f.Injective) : (rename f).Injective :=
  fun j k h => eq_of_rename hf j k h

mutual
theorem ofValue_rename (f : Nat → Nat) : (v : Value) → ofValue (v.rename f) = (ofValue v).rename f
  | .array items => congrArg Key.array (ofValues_rename f items)
  | .number _ | .string _ | .boolean _ => rfl
  | .error _ _ | .module _ | .native _ | .closure _ _ _ | .curried _ _ _ _ _ | .thunk _ _ _
  | .code _ _ => congrArg Key.identity Value.identity?_rename
theorem ofValues_rename (f : Nat → Nat) :
    (vs : List Value) → ofValues (Value.renameAll f vs) = renameAll f (ofValues vs)
  | [] => rfl
  | v :: rest => by
    rw [Value.renameAll, ofValues, ofValues, renameAll, ofValue_rename f v, ofValues_rename f rest]
end

@[simp] theorem ofValues_map_rename (vs : List Value) :
    ofValues (vs.map (Value.rename f)) = (ofValues vs).map (rename f) := by
  rw [← Value.renameAll_eq_map, ofValues_rename, renameAll_eq_map]

end Key

namespace Trie

variable {κ κ' α β : Type}

mutual
/-- The trie with its keys and values mapped. -/
def map (f : κ → κ') (g : α → β) : Trie κ α → Trie κ' β
  | node value children => node (value.map g) (mapAll f g children)
def mapAll (f : κ → κ') (g : α → β) : List (κ × Trie κ α) → List (κ' × Trie κ' β)
  | [] => []
  | (k, t) :: rest => (f k, map f g t) :: mapAll f g rest
end

variable {f : κ → κ'} (g : α → β)

theorem mapAll_eq_map (children : List (κ × Trie κ α)) :
    mapAll f g children = children.map (Prod.map f (map f g)) := by
  induction children with
  | nil => rfl
  | cons entry rest ih => rw [mapAll, ih, List.map_cons]; rfl

theorem value?_map (t : Trie κ α) : (t.map f g).value? = t.value?.map g := by
  cases t
  rfl

theorem children_map (t : Trie κ α) :
    (t.map f g).children = t.children.map (Prod.map f (map f g)) := by
  cases t
  exact mapAll_eq_map g _

variable [DecidableEq κ] [DecidableEq κ']

theorem get?_map (hf : f.Injective) (keys : List κ) (t : Trie κ α) :
    get? (keys.map f) (t.map f g) = (get? keys t).map g := by
  induction keys generalizing t with
  | nil => exact value?_map g t
  | cons k keys ih =>
    rw [List.map_cons, get?, get?, children_map, Table.get?_map hf]
    cases Table.get? k t.children with
    | none => rfl
    | some child => exact ih child

theorem insert_map (hf : f.Injective) (value : α) (keys : List κ) (t : Trie κ α) :
    insert (g value) (keys.map f) (t.map f g) = (insert value keys t).map f g := by
  induction keys generalizing t with
  | nil => rw [List.map_nil, insert, insert, children_map, map, mapAll_eq_map]; rfl
  | cons k keys ih =>
    have hchild : ((Table.get? k t.children).map (map f g)).getD empty =
        ((Table.get? k t.children).getD empty).map f g := by
      cases Table.get? k t.children <;> rfl
    simp only [List.map_cons, insert, children_map, Table.get?_map hf, hchild, ih, value?_map, map,
      mapAll_eq_map, Table.insert_map hf]

end Trie

end Memo

/--
A way to rename that keeps numbers apart and respects how new ones are taken, from `cut` on. What it
does to the state of the host is left open.
-/
structure Renaming (σ : Type) where
  number : Nat → Nat
  state : σ → σ
  cut : Nat
  injective : number.Injective
  number_succ : ∀ n, cut ≤ n → number (n + 1) = number n + 1

namespace Renaming

variable {σ : Type}

/-- Moves the numbers from `cut` on up by `gap`. -/
def shift (cut gap : Nat) (state : σ → σ) : Renaming σ where
  number n := if n < cut then n else n + gap
  state := state
  cut := cut
  injective m n h := by
    dsimp only at h
    split at h <;> split at h <;> omega
  number_succ n hn := by
    rw [if_neg (by omega), if_neg (by omega)]
    omega

end Renaming

namespace World

variable {σ : Type} (ρ : Renaming σ)

def rename (w : World σ) : World σ :=
  { w with
    next := ρ.number w.next
    caches := Table.mapValues (.map (.rename ρ.number) (.rename ρ.number)) w.caches
    host := ρ.state w.host }

theorem cache_rename (w : World σ) (mark : Nat) :
    (w.rename ρ).cache mark = (w.cache mark).map (.rename ρ.number) (.rename ρ.number) := by
  simp only [cache, rename, Table.get?_mapValues]
  cases Table.get? mark w.caches <;> rfl

@[simp] theorem stored?_rename (w : World σ) (mark : Nat) (keys : List Memo.Key) :
    (w.rename ρ).stored? mark (keys.map (.rename ρ.number)) =
      (w.stored? mark keys).map (.rename ρ.number) := by
  rw [stored?, cache_rename, Memo.Trie.get?_map _ (Memo.Key.rename_injective ρ.injective), stored?]

@[simp] theorem store_rename (w : World σ) (mark : Nat) (keys : List Memo.Key) (result : Value) :
    (w.rename ρ).store mark (keys.map (.rename ρ.number)) (result.rename ρ.number) =
      (w.store mark keys result).rename ρ := by
  rw [store, cache_rename, Memo.Trie.insert_map _ (Memo.Key.rename_injective ρ.injective), store]
  simp only [rename, Table.insert_mapValues]

@[simp] theorem stop?_rename (w : World σ) (frame : Frame) :
    (w.rename ρ).stop? (frame.rename ρ.number) = w.stop? frame := rfl

end World

end ChainScript
