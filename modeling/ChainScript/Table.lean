/-!
Tables: finite maps that remember the order in which their keys first came. Each key stands at most
once in a table built by `insert`.
-/
namespace ChainScript

abbrev Table (κ α : Type) := List (κ × α)

namespace Table

variable {κ α : Type} [DecidableEq κ]

/-- Replaces the entry of a key where it stands, or adds the key at the end. -/
def insert (key : κ) (value : α) : Table κ α → Table κ α
  | [] => [(key, value)]
  | (k, v) :: rest => if k = key then (key, value) :: rest else (k, v) :: insert key value rest

/-- The value of a key. -/
def get? (key : κ) : Table κ α → Option α
  | [] => none
  | (k, v) :: rest => if k = key then some v else get? key rest

@[simp] theorem get?_insert (key k : κ) (value : α) (table : Table κ α) :
    get? k (insert key value table) = if key = k then some value else get? k table := by
  induction table with
  | nil => rfl
  | cons entry rest ih =>
    obtain ⟨k', v⟩ := entry
    by_cases h : k' = key
    · subst h
      simp only [insert, if_true, get?]
      split <;> rfl
    · simp only [insert, if_neg h, get?, ih]
      by_cases hk : k' = k
      · simp [hk, show key ≠ k from fun e => h (hk.trans e.symm)]
      · simp [hk]

/-- The table of a list of entries, in which later entries replace earlier ones. -/
def ofList (entries : List (κ × α)) : Table κ α :=
  entries.foldl (fun table (k, v) => insert k v table) []

def keys (table : Table κ α) : List κ := table.map (·.1)

end Table

end ChainScript
