import Mathlib.Data.Finset.Card
import ChainScript.Proofs.Table
import ChainScript.World

/-!
What a memo remembers after a result has been stored, and how much it remembers. A trie that has
been filled step by step is a finite map on lists of keys.
-/
namespace ChainScript

namespace Memo.Trie

variable {κ α : Type} [DecidableEq κ]

@[simp] theorem get?_empty (ks : List κ) : get? ks (empty : Trie κ α) = none := by
  cases ks <;> rfl

/-- An insertion shows under its own list of keys and under no other. -/
@[simp] theorem get?_insert (value : α) (ks js : List κ) (t : Trie κ α) :
    get? js (insert value ks t) = if ks = js then some value else get? js t := by
  induction ks generalizing js t with
  | nil => cases js <;> simp [insert, get?, value?, children]
  | cons k ks ih =>
    obtain ⟨value?, children⟩ := t
    cases js with
    | nil => simp [insert, get?, Trie.value?]
    | cons j js =>
      simp only [insert, get?, Trie.children, Table.get?_insert, List.cons.injEq]
      by_cases hk : k = j
      · subst hk
        simp only [if_true, Option.bind_some, ih, true_and]
        cases Table.get? k children <;> simp
      · simp [hk]

section Keys

variable {κ α : Type} {t : Trie κ α} {children : Table κ (Trie κ α)} {ks : List κ}

mutual
/-- The lists of keys that have a value. -/
def keys : Trie κ α → List (List κ)
  | node value children => value.toList.map (fun _ => []) ++ keysAll children
def keysAll : List (κ × Trie κ α) → List (List κ)
  | [] => []
  | (k, t) :: rest => (keys t).map (k :: ·) ++ keysAll rest
end

/-- Each key stands once among the children, at every level. -/
inductive Distinct : Trie κ α → Prop
  | node {value : Option α} {children : Table κ (Trie κ α)} (hk : (Table.keys children).Nodup)
      (hc : ∀ e ∈ children, Distinct e.2) : Distinct (node value children)

mutual
theorem length_keys (t : Trie κ α) : (keys t).length = size t := by
  obtain ⟨value, children⟩ := t
  simp [keys, size, length_keysAll children]
theorem length_keysAll (children : List (κ × Trie κ α)) :
    (keysAll children).length = sizeAll children := by
  match children with
  | [] => rfl
  | (k, t) :: rest => simp [keysAll, sizeAll, length_keys t, length_keysAll rest]
end

theorem mem_keysAll : ks ∈ keysAll children ↔ ∃ e ∈ children, ∃ js ∈ keys e.2, e.1 :: js = ks := by
  induction children with
  | nil => simp [keysAll]
  | cons entry rest ih =>
    obtain ⟨k, t⟩ := entry
    simp [keysAll, ih]

theorem nodup_keysAll (hk : (Table.keys children).Nodup)
    (hc : ∀ e ∈ children, (keys e.2).Nodup) : (keysAll children).Nodup := by
  induction children with
  | nil => exact List.nodup_nil
  | cons entry rest ih =>
    obtain ⟨k, t⟩ := entry
    obtain ⟨hnew, hrest⟩ := List.nodup_cons.mp hk
    rw [keysAll]
    refine List.nodup_append.mpr ⟨?_, ih hrest fun e he => hc e (List.mem_cons_of_mem _ he), ?_⟩
    · have hnodup := hc _ List.mem_cons_self
      exact List.pairwise_map.mpr (hnodup.imp fun hne heq => hne (List.cons.inj heq).2)
    · -- What comes later begins with another key.
      intro js hjs js' hjs' heq
      obtain ⟨_, -, rfl⟩ := List.mem_map.mp hjs
      obtain ⟨e, he, _, -, rfl⟩ := mem_keysAll.mp hjs'
      obtain ⟨rfl, -⟩ := List.cons.inj heq
      exact hnew (List.mem_map.mpr ⟨e, he, rfl⟩)

theorem nodup_keys (ht : t.Distinct) : (keys t).Nodup := by
  induction ht with
  | @node value children hk _ ih =>
    rw [keys]
    refine List.nodup_append.mpr ⟨?_, nodup_keysAll hk ih, ?_⟩
    · cases value <;> simp
    · intro js hjs js' hjs' heq
      obtain ⟨_, -, rfl⟩ := List.mem_map.mp hjs
      obtain ⟨e, -, _, -, rfl⟩ := mem_keysAll.mp hjs'
      cases heq

theorem distinct_empty : (empty : Trie κ α).Distinct :=
  .node List.nodup_nil (by simp)

variable [DecidableEq κ]

theorem mem_keys_iff (ht : t.Distinct) : ks ∈ keys t ↔ (get? ks t).isSome = true := by
  induction ks generalizing t with
  | nil =>
    obtain ⟨value, children⟩ := t
    cases value <;> simp [keys, get?, value?, mem_keysAll]
  | cons k ks ih =>
    obtain @⟨value, children, hk, hc⟩ := ht
    simp only [keys, List.mem_append, mem_keysAll, get?, Trie.children]
    constructor
    · rintro (hnil | ⟨⟨k', child⟩, hchild, js, hjs, heq⟩)
      · simp at hnil
      · cases heq
        rw [(Table.get?_eq_some_iff hk).mpr hchild, Option.bind_some]
        exact (ih (hc _ hchild)).mp hjs
    · intro hsome
      cases hget : Table.get? k children with
      | none => simp [hget] at hsome
      | some child =>
        rw [hget, Option.bind_some] at hsome
        have hchild := Table.mem_of_get? hget
        exact .inr ⟨_, hchild, ks, (ih (hc _ hchild)).mpr hsome, rfl⟩

theorem distinct_insert (ht : t.Distinct) (value : α) (ks : List κ) :
    (insert value ks t).Distinct := by
  induction ks generalizing t with
  | nil =>
    obtain ⟨hk, hc⟩ := ht
    exact .node hk hc
  | cons k ks ih =>
    obtain ⟨hk, hc⟩ := ht
    refine .node (Table.nodup_keys_insert hk k _) ?_
    intro e he
    rcases Table.mem_insert he with rfl | he
    · refine ih ?_
      cases hget : Table.get? k _ with
      | none => exact distinct_empty
      | some child => exact hc _ (Table.mem_of_get? hget)
    · exact hc e he

end Keys

section Entries

/-- The trie of a list of entries, stored one after the other. -/
def ofList (entries : List (List κ × α)) : Trie κ α :=
  entries.foldl (fun t (ks, v) => t.insert v ks) empty

variable (entries : List (List κ × α))

theorem ofList_append_singleton (ks : List κ) (v : α) :
    ofList (entries ++ [(ks, v)]) = insert v ks (ofList entries) :=
  List.foldl_append

theorem distinct_ofList : (ofList entries).Distinct := by
  induction entries using List.reverseRecOn with
  | nil => exact distinct_empty
  | append_singleton entries entry ih =>
    rw [ofList_append_singleton]
    exact distinct_insert ih entry.2 entry.1

/-- The levels of a trie do not show: it answers like a flat table with the same entries. -/
theorem get?_ofList (ks : List κ) :
    get? ks (ofList entries) = Table.get? ks (Table.ofList entries) := by
  induction entries using List.reverseRecOn with
  | nil => exact get?_empty ks
  | append_singleton entries entry ih =>
    have hlast : Table.ofList (entries ++ [entry]) =
        Table.insert entry.1 entry.2 (Table.ofList entries) :=
      Table.insertAll_append entries [entry] []
    rw [ofList_append_singleton, get?_insert, ih, hlast, Table.get?_insert]

theorem size_ofList : (ofList entries).size = (entries.map (·.1)).toFinset.card := by
  have hnodup := nodup_keys (distinct_ofList entries)
  have hkeys : (keys (ofList entries)).toFinset = (entries.map (·.1)).toFinset := by
    ext ks
    rw [List.mem_toFinset, List.mem_toFinset, mem_keys_iff (distinct_ofList entries), get?_ofList,
      ← Table.mem_keys_iff, Table.mem_keys_ofList]
  rw [← hkeys, List.toFinset_card_of_nodup hnodup, length_keys]

/--
A trie is a finite map on lists of keys. It gives each list the value stored last under this very
list, storing a value under a list changes nothing for any other, be it longer or shorter, and the
size is the number of different lists.
-/
theorem ofList_finite_map :
    (∀ ks v, get? ks (ofList entries) = some v ↔ Table.IsLast ks v entries) ∧
    (∀ ks, get? ks (ofList entries) = none ↔ ks ∉ entries.map (·.1)) ∧
    (∀ (t : Trie κ α) ks js v, get? js (insert v ks t) = if ks = js then some v else get? js t) ∧
    (ofList entries).size = (entries.map (·.1)).toFinset.card := by
  refine ⟨?_, ?_, fun t ks js v => get?_insert v ks js t, size_ofList entries⟩
  · intro ks v
    rw [get?_ofList, Table.get?_ofList_eq_some_iff]
  · intro ks
    rw [get?_ofList, Table.get?_ofList_eq_none_iff]

end Entries

end Memo.Trie

namespace World

variable {σ : Type}

/-- What is stored shows for its memo and keys, and nowhere else. -/
@[simp] theorem stored?_store (w : World σ) (mark mark' : Nat) (keys keys' : List Memo.Key)
    (result : Value) :
    (w.store mark keys result).stored? mark' keys' =
      if mark = mark' ∧ keys = keys' then some result else w.stored? mark' keys' := by
  simp only [stored?, store, cache, Table.get?_insert]
  by_cases hm : mark = mark'
  · subst hm
    simp
  · simp [hm]

end World

end ChainScript
