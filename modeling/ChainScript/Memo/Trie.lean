import ChainScript.Table

/-! Tries: finite maps on lists of keys, with one level per place in the list. -/
namespace ChainScript.Memo

inductive Trie (κ α : Type) where
  | node (value : Option α) (children : List (κ × Trie κ α))

namespace Trie

variable {κ α : Type} [DecidableEq κ]

def empty : Trie κ α := node none []

def value? : Trie κ α → Option α
  | node value _ => value

def children : Trie κ α → Table κ (Trie κ α)
  | node _ children => children

/-- The value stored under a list of keys. -/
def get? : List κ → Trie κ α → Option α
  | [], t => t.value?
  | k :: ks, t => (Table.get? k t.children).bind (get? ks)

/-- Stores a value under a list of keys, in place of the one that was there. -/
def insert (value : α) : List κ → Trie κ α → Trie κ α
  | [], t => node (some value) t.children
  | k :: ks, t =>
    let child := (Table.get? k t.children).getD empty
    node t.value? (Table.insert k (insert value ks child) t.children)

mutual
/-- The number of stored values. -/
def size : Trie κ α → Nat
  | node value children => value.toList.length + sizeAll children
def sizeAll : List (κ × Trie κ α) → Nat
  | [] => 0
  | (_, t) :: rest => size t + sizeAll rest
end

end Trie

end ChainScript.Memo
