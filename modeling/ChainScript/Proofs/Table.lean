import Mathlib.Data.List.Induction
import ChainScript.Table

/-! What is in a table, and what becomes of it when its keys and values are mapped. -/
namespace ChainScript.Table

variable {κ α : Type} [DecidableEq κ] {table : Table κ α} {k : κ} {v : α} {e : κ × α}

theorem mem_of_get? (h : get? k table = some v) : (k, v) ∈ table := by
  induction table with
  | nil => simp [get?] at h
  | cons entry rest ih =>
    obtain ⟨k', v'⟩ := entry
    rw [get?] at h
    split at h
    · subst k'
      obtain rfl := Option.some.inj h
      exact List.mem_cons_self
    · exact List.mem_cons_of_mem _ (ih h)

theorem exists_get?_of_mem_keys (h : k ∈ keys table) : ∃ v, get? k table = some v := by
  induction table with
  | nil => cases h
  | cons entry rest ih =>
    obtain ⟨k', v'⟩ := entry
    rw [get?]
    split
    · exact ⟨v', rfl⟩
    next hne =>
      refine ih ?_
      rcases List.mem_cons.mp h with rfl | hrest
      · exact (hne rfl).elim
      · exact hrest

theorem mem_keys_iff : k ∈ keys table ↔ (get? k table).isSome = true := by
  rw [Option.isSome_iff_exists]
  refine ⟨exists_get?_of_mem_keys, ?_⟩
  rintro ⟨v, hv⟩
  exact List.mem_map_of_mem (mem_of_get? hv)

theorem mem_insert (h : e ∈ insert k v table) : e = (k, v) ∨ e ∈ table := by
  induction table with
  | nil => simpa [insert] using h
  | cons entry rest ih =>
    obtain ⟨k', v'⟩ := entry
    rw [insert] at h
    split at h
    · rcases List.mem_cons.mp h with h | h
      · exact .inl h
      · exact .inr (List.mem_cons_of_mem _ h)
    · rcases List.mem_cons.mp h with h | h
      · exact .inr (h ▸ List.mem_cons_self)
      · exact (ih h).imp id (List.mem_cons_of_mem _)

/-- A key that is there already keeps its place, and a new one goes to the end. -/
theorem keys_insert (k : κ) (v : α) (table : Table κ α) :
    keys (insert k v table) = if k ∈ keys table then keys table else keys table ++ [k] := by
  induction table with
  | nil => rfl
  | cons entry rest ih =>
    obtain ⟨k', v'⟩ := entry
    by_cases hk : k' = k
    · subst hk
      simp [insert, keys]
    · rw [keys, insert, if_neg hk, List.map_cons, ← keys, ih]
      have hcons : keys ((k', v') :: rest) = k' :: keys rest := rfl
      rw [hcons]
      by_cases hmem : k ∈ keys rest
      · simp [hmem]
      · simp [hmem, Ne.symm hk]

theorem nodup_keys_insert (h : (keys table).Nodup) (k : κ) (v : α) :
    (keys (insert k v table)).Nodup := by
  rw [keys_insert]
  split
  · exact h
  next hk =>
    refine List.nodup_append.mpr ⟨h, by simp, ?_⟩
    intro a ha b hb
    obtain rfl := List.mem_singleton.mp hb
    rintro rfl
    exact hk ha

/-- Where each key stands once, an entry can be found by its key. -/
theorem get?_eq_some_iff (h : (keys table).Nodup) : get? k table = some v ↔ (k, v) ∈ table := by
  refine ⟨mem_of_get?, ?_⟩
  intro hmem
  induction table with
  | nil => cases hmem
  | cons entry rest ih =>
    obtain ⟨k', v'⟩ := entry
    obtain ⟨hk', hrest⟩ := List.nodup_cons.mp h
    rcases List.mem_cons.mp hmem with heq | hmem
    · cases heq
      simp [get?]
    · have hne : k' ≠ k := by
        rintro rfl
        exact hk' (List.mem_map.mpr ⟨_, hmem, rfl⟩)
      rw [get?, if_neg hne]
      exact ih hrest hmem

theorem mem_ofList {entries : List (κ × α)} (h : e ∈ ofList entries) : e ∈ entries := by
  suffices hfold : ∀ table : Table κ α,
      e ∈ entries.foldl (fun t entry => insert entry.1 entry.2 t) table →
        e ∈ table ∨ e ∈ entries by
    rcases hfold [] h with h | h
    · cases h
    · exact h
  clear h
  induction entries with
  | nil => exact fun table h => .inl h
  | cons entry rest ih =>
    intro table h
    rcases ih _ h with h | h
    · rcases mem_insert h with rfl | h
      · exact .inr List.mem_cons_self
      · exact .inl h
    · exact .inr (List.mem_cons_of_mem _ h)

section Map

variable {κ' β : Type} [DecidableEq κ'] {f : κ → κ'} (hf : f.Injective) (g : α → β)

include hf

theorem get?_map (k : κ) (table : Table κ α) :
    get? (f k) (table.map (Prod.map f g)) = (get? k table).map g := by
  induction table with
  | nil => rfl
  | cons entry rest ih =>
    simp only [List.map_cons, get?, Prod.map_fst, Prod.map_snd, hf.eq_iff, ih]
    split <;> rfl

theorem insert_map (k : κ) (v : α) (table : Table κ α) :
    insert (f k) (g v) (table.map (Prod.map f g)) = (insert k v table).map (Prod.map f g) := by
  induction table with
  | nil => rfl
  | cons entry rest ih =>
    simp only [List.map_cons, insert, Prod.map_fst, Prod.map_snd, hf.eq_iff, ih]
    split <;> rfl

theorem ofList_map (entries : List (κ × α)) :
    ofList (entries.map (Prod.map f g)) = (ofList entries).map (Prod.map f g) := by
  suffices hfold : ∀ table : Table κ α,
      (entries.map (Prod.map f g)).foldl (fun t entry => insert entry.1 entry.2 t)
          (table.map (Prod.map f g)) =
        (entries.foldl (fun t entry => insert entry.1 entry.2 t) table).map (Prod.map f g) from
    hfold []
  induction entries with
  | nil => exact fun table => rfl
  | cons entry rest ih =>
    intro table
    simp only [List.map_cons, List.foldl_cons, Prod.map_fst, Prod.map_snd, insert_map hf g]
    exact ih _

end Map

section MapValues

variable {β : Type} (g : α → β)

/-- The table with `g` applied to its values. -/
def mapValues (table : Table κ α) : Table κ β := table.map (Prod.map id g)

omit [DecidableEq κ] in
@[simp] theorem keys_mapValues (table : Table κ α) : keys (table.mapValues g) = keys table := by
  simp [keys, mapValues]

@[simp] theorem get?_mapValues (k : κ) (table : Table κ α) :
    get? k (table.mapValues g) = (get? k table).map g :=
  get?_map Function.injective_id g k table

@[simp] theorem insert_mapValues (k : κ) (v : α) (table : Table κ α) :
    insert k (g v) (table.mapValues g) = (insert k v table).mapValues g :=
  insert_map Function.injective_id g k v table

@[simp] theorem ofList_mapValues (entries : List (κ × α)) :
    ofList (mapValues g entries) = (ofList entries).mapValues g :=
  ofList_map Function.injective_id g entries

end MapValues

section InsertAll

variable {entries : List (κ × α)}

/-- The table with the entries added one after the other. -/
def insertAll (entries : List (κ × α)) (table : Table κ α) : Table κ α :=
  entries.foldl (fun table (k, v) => insert k v table) table

theorem insertAll_append (entries more : List (κ × α)) (table : Table κ α) :
    insertAll (entries ++ more) table = insertAll more (insertAll entries table) :=
  List.foldl_append

/-- Entries of a later table hide those of an earlier one. -/
theorem get?_insertAll (entries : List (κ × α)) (table : Table κ α) (k : κ) :
    get? k (insertAll entries table) = (get? k (ofList entries)).or (get? k table) := by
  induction entries generalizing table with
  | nil => rfl
  | cons entry rest ih =>
    obtain ⟨key, value⟩ := entry
    have hone : get? k (ofList ((key, value) :: rest)) =
        (get? k (ofList rest)).or (get? k [(key, value)]) := ih [(key, value)]
    have hfirst : get? k (insert key value table) =
        (get? k [(key, value)]).or (get? k table) := by
      rw [get?_insert, get?]
      split <;> rfl
    rw [hone, Option.or_assoc, ← hfirst]
    exact ih (insert key value table)

/-- The keys of an earlier table come first, and then the new ones of a later table. -/
theorem keys_insertAll (entries : List (κ × α)) (table : Table κ α) :
    keys (insertAll entries table) =
      keys table ++ (keys (ofList entries)).filter (· ∉ keys table) := by
  induction entries generalizing table with
  | nil => simp [insertAll, ofList, keys]
  | cons entry rest ih =>
    obtain ⟨key, value⟩ := entry
    -- The rest is added twice: to the table, and to the first entry alone.
    have hone : keys (ofList ((key, value) :: rest)) =
        key :: (keys (ofList rest)).filter (· ∉ [key]) := ih [(key, value)]
    have hfirst : keys (insertAll ((key, value) :: rest) table) =
        keys (insert key value table) ++
          (keys (ofList rest)).filter (· ∉ keys (insert key value table)) :=
      ih (insert key value table)
    rw [hfirst, hone, keys_insert, List.filter_cons, List.filter_filter]
    by_cases hkey : key ∈ keys table
    · simp only [hkey, if_true, not_true_eq_false, decide_false, Bool.false_eq_true, if_false]
      congr 1
      refine List.filter_congr ?_
      intro k hk
      by_cases hkk : k = key <;> simp [hkk, hkey]
    · simp only [hkey, if_false, not_false_eq_true, decide_true, if_true, List.append_assoc,
        List.singleton_append]
      congr 2
      refine List.filter_congr ?_
      intro k hk
      simp [Bool.and_comm]

/-- A table of entries gives each key its last value. -/
theorem get?_ofList (entries : List (κ × α)) (k : κ) :
    get? k (ofList entries) = (entries.reverse.find? (·.1 = k)).map (·.2) := by
  induction entries using List.reverseRecOn with
  | nil => rfl
  | append_singleton rest entry ih =>
    obtain ⟨key, value⟩ := entry
    have hlast : ofList (rest ++ [(key, value)]) = insert key value (ofList rest) :=
      insertAll_append rest [(key, value)] []
    rw [hlast, get?_insert, ih, List.reverse_append, List.reverse_singleton,
      List.singleton_append, List.find?_cons]
    by_cases hkey : key = k <;> simp [hkey]

/-- A table of entries lists its keys in the order in which they first come. -/
theorem keys_ofList (entries : List (κ × α)) :
    keys (ofList entries) = (entries.map (·.1)).eraseDups := by
  induction entries using List.reverseRecOn with
  | nil => rfl
  | append_singleton rest entry ih =>
    obtain ⟨key, value⟩ := entry
    have hlast : ofList (rest ++ [(key, value)]) = insert key value (ofList rest) :=
      insertAll_append rest [(key, value)] []
    rw [hlast, keys_insert, ih, List.map_append, List.eraseDups_append]
    by_cases hkey : key ∈ rest.map (·.1) <;> simp [hkey, List.removeAll, List.eraseDups_cons]

theorem mem_keys_ofList : k ∈ keys (ofList entries) ↔ k ∈ entries.map (·.1) := by
  rw [keys_ofList, List.mem_eraseDups]

/-- The last of the entries with the key `k` has the value `v`. -/
def IsLast (k : κ) (v : α) (entries : List (κ × α)) : Prop :=
  ∃ before after, entries = before ++ (k, v) :: after ∧ k ∉ after.map (·.1)

theorem get?_ofList_eq_some_iff : get? k (ofList entries) = some v ↔ IsLast k v entries := by
  rw [get?_ofList, Option.map_eq_some_iff]
  constructor
  · rintro ⟨⟨k', v'⟩, hfind, rfl⟩
    obtain ⟨hk, after, before, hsplit, hafter⟩ := List.find?_eq_some_iff_append.mp hfind
    obtain rfl : k' = k := by simpa using hk
    refine ⟨before.reverse, after.reverse, by simpa using congrArg List.reverse hsplit, ?_⟩
    intro hmem
    obtain ⟨e, he, hek⟩ := List.mem_map.mp hmem
    simpa [hek] using hafter e (List.mem_reverse.mp he)
  · rintro ⟨before, after, rfl, hafter⟩
    have hsplit : (before ++ (k, v) :: after).reverse =
        after.reverse ++ (k, v) :: before.reverse := by simp
    refine ⟨(k, v), List.find?_eq_some_iff_append.mpr ⟨by simp, _, _, hsplit, ?_⟩, rfl⟩
    intro e he
    have hne : e.1 ≠ k := by
      rintro rfl
      exact hafter (List.mem_map_of_mem (List.mem_reverse.mp he))
    simpa using hne

theorem get?_ofList_eq_none_iff : get? k (ofList entries) = none ↔ k ∉ entries.map (·.1) := by
  rw [← mem_keys_ofList, mem_keys_iff, Option.not_isSome_iff_eq_none]

end InsertAll

end ChainScript.Table
