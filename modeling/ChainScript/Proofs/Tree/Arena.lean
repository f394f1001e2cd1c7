import ChainScript.Tree.Arena
import Mathlib.Data.List.Range
import Mathlib.Data.List.Nodup

/-!
Trees laid out in arenas. Grafting a tree makes its nodes one after the other, as a parser does that
goes through the tree from left to right. Links between parents and children are kept by every node
that is made; the nodes of a grafted tree are its preorder listing, so a walk from the root meets
them by number.
-/
namespace ChainScript

open Grammar

namespace Arena

variable {a : Arena} {cursor : Option Nat} {c : Content} {i p : Nat}

/-- A node that takes children. -/
def IsInner (a : Arena) (p : Nat) : Prop :=
  ∃ parent n children, a.node? p = some ⟨parent, .node n children⟩

theorem node?_eq_none_iff : a.node? i = none ↔ a.size ≤ i := Array.getElem?_eq_none_iff

theorem IsInner.lt_size (h : a.IsInner p) : p < a.size := by
  obtain ⟨parent, n, children, hp⟩ := h
  by_contra hle
  simp [node?_eq_none_iff.mpr (Nat.le_of_not_lt hle)] at hp

theorem IsInner.cursor_lt_size (h : a.IsInner p) : ∀ q ∈ some p, q < a.size := by
  rintro q ⟨⟩
  exact h.lt_size

theorem lt_size_of_parent? (h : a.parent? i = some p) : i < a.size := by
  by_contra hle
  simp [parent?, node?_eq_none_iff.mpr (Nat.le_of_not_lt hle)] at h

@[simp] theorem Node.adopt_parent (i : Nat) (x : Node) : (x.adopt i).parent = x.parent := by
  unfold Node.adopt
  split <;> rfl

@[simp] theorem size_push : (a.push cursor c).size = a.size + 1 := by
  cases cursor <;> simp [push, size]

/-- Making a node changes one other: its parent. -/
theorem node?_push (h : ∀ p ∈ cursor, p < a.size) :
    (a.push cursor c).node? i =
      if i = a.size then some ⟨cursor, c⟩
      else if cursor = some i then (a.node? i).map (·.adopt a.size)
      else a.node? i := by
  cases cursor with
  | none => simp [push, node?, size, Array.getElem?_push]
  | some p =>
    have hp : p ≠ a.nodes.size := Nat.ne_of_lt (h p rfl)
    simp only [push, node?, size, Array.getElem?_modify, Array.getElem?_push, Option.some.injEq]
    split <;> split <;> simp_all

theorem parent?_push (h : ∀ p ∈ cursor, p < a.size) :
    (a.push cursor c).parent? i = if i = a.size then cursor else a.parent? i := by
  simp only [parent?, node?_push h]
  split
  · rfl
  · split
    · cases a.node? i <;> simp
    · rfl

theorem children_push (h : a.IsInner p) :
    (a.push (some p) c).children i =
      if i = a.size then (Node.mk (some p) c).children
      else if p = i then a.children i ++ [a.size]
      else a.children i := by
  simp only [children, node?_push h.cursor_lt_size, Option.some.injEq]
  split
  · rfl
  · split
    · rename_i hpi
      obtain ⟨parent, n, children, hn⟩ := hpi ▸ h
      simp [hn, Node.adopt, Node.children]
    · rfl

theorem IsInner.push (h : a.IsInner i) (hc : ∀ p ∈ cursor, p < a.size) :
    (a.push cursor c).IsInner i := by
  obtain ⟨parent, n, children, hi⟩ := h
  have hne : i ≠ a.size := Nat.ne_of_lt (IsInner.lt_size ⟨parent, n, children, hi⟩)
  rw [IsInner, node?_push hc, if_neg hne, hi]
  split
  · exact ⟨parent, n, children ++ [a.size], rfl⟩
  · exact ⟨parent, n, children, rfl⟩

theorem isInner_push_node (hc : ∀ p ∈ cursor, p < a.size) (n : Nonterminal) :
    (a.push cursor (.node n [])).IsInner a.size :=
  ⟨cursor, n, [], by rw [node?_push hc, if_pos rfl]⟩

/-- Children and parents agree, children come after their parent, and all but the first have one. -/
structure Linked (a : Arena) : Prop where
  mem_children_iff : ∀ p i, i ∈ a.children p ↔ a.parent? i = some p
  lt_of_parent? : ∀ p i, a.parent? i = some p → p < i
  sorted : ∀ p, (a.children p).Pairwise (· < ·)
  orphan : ∀ i < a.size, a.parent? i = none → i = 0

namespace Linked

theorem lt_size (h : a.Linked) (hi : i ∈ a.children p) : i < a.size :=
  lt_size_of_parent? ((h.mem_children_iff p i).mp hi)

/-- The new node is the last child of its parent. -/
theorem push (h : a.Linked) (hp : a.IsInner p) (hc : (Node.mk (some p) c).children = []) :
    (a.push (some p) c).Linked := by
  have hlt := hp.cursor_lt_size
  have hnew : a.parent? a.size = none := by
    simp [parent?, node?_eq_none_iff.mpr (Nat.le_refl a.size)]
  constructor
  · intro q i
    rw [children_push hp, parent?_push hlt, hc]
    by_cases hq : q = a.size
    · have hold : a.parent? i ≠ some a.size := by
        intro hi
        have := h.lt_of_parent? _ _ hi
        have := lt_size_of_parent? hi
        omega
      have := hp.lt_size
      grind
    · have hmem := h.mem_children_iff q i
      grind
  · intro q i hi
    rw [parent?_push hlt] at hi
    split at hi
    · obtain rfl : p = q := by simpa using hi
      have := hp.lt_size
      omega
    · exact h.lt_of_parent? q i hi
  · intro q
    rw [children_push hp, hc]
    split
    · exact .nil
    · split
      · rw [List.pairwise_append]
        refine ⟨h.sorted q, List.pairwise_singleton _ _, ?_⟩
        intro i hi j hj
        obtain rfl : j = a.size := by simpa using hj
        exact h.lt_size hi
      · exact h.sorted q
  · intro i hi hnone
    rw [parent?_push hlt] at hnone
    rw [size_push] at hi
    split at hnone
    · simp at hnone
    · exact h.orphan i (by omega) hnone

end Linked

theorem linked_root (hc : (Node.mk none c).children = []) :
    (push {} none c).Linked := by
  have hnode : ∀ i, (push {} none c).node? i = if i = 0 then some ⟨none, c⟩ else none := by
    intro i
    rw [node?_push (by simp)]
    simp [size, node?]
  have hchildren : ∀ p, (push {} none c).children p = [] := by
    intro p
    simp only [children, hnode]
    split <;> simp [hc]
  have hparent : ∀ i, (push {} none c).parent? i = none := by
    intro i
    simp only [parent?, hnode]
    split <;> rfl
  constructor
  · simp [hchildren, hparent]
  · simp [hparent]
  · simp [hchildren]
  · intro i hi _
    rw [size_push] at hi
    exact Nat.lt_one_iff.mp hi

mutual
/-- Makes the nodes of a tree under the cursor, each before its children. -/
def graft (a : Arena) (cursor : Option Nat) : Tree → Arena
  | .leaf t => a.push cursor (.leaf t)
  | .epsilon => a.push cursor .epsilon
  | .node n ts => graftAll (a.push cursor (.node n [])) (some a.size) ts
def graftAll (a : Arena) (cursor : Option Nat) : List Tree → Arena
  | [] => a
  | t :: ts => graftAll (graft a cursor t) cursor ts
end

mutual
theorem IsInner.graft {i : Nat} {cursor : Option Nat} :
    ∀ (t : Tree) {a : Arena}, a.IsInner i → (∀ p ∈ cursor, a.IsInner p) →
      (a.graft cursor t).IsInner i
  | .leaf _, _, h, hc | .epsilon, _, h, hc => h.push fun p hp => (hc p hp).lt_size
  | .node n ts, a, h, hc => by
    have hlt : ∀ p ∈ cursor, p < a.size := fun p hp => (hc p hp).lt_size
    exact IsInner.graftAll ts (h.push hlt) (by simpa using isInner_push_node hlt n)
theorem IsInner.graftAll {i : Nat} {cursor : Option Nat} :
    ∀ (ts : List Tree) {a : Arena}, a.IsInner i → (∀ p ∈ cursor, a.IsInner p) →
      (a.graftAll cursor ts).IsInner i
  | [], _, h, _ => h
  | t :: ts, _, h, hc =>
    IsInner.graftAll ts (h.graft t hc) fun p hp => (hc p hp).graft t hc
end

mutual
theorem Linked.graft {p : Nat} : ∀ (t : Tree) {a : Arena}, a.Linked → a.IsInner p →
    (a.graft (some p) t).Linked
  | .leaf _, _, h, hp | .epsilon, _, h, hp => h.push hp rfl
  | .node n ts, _, h, hp =>
    Linked.graftAll ts (h.push hp rfl) (isInner_push_node hp.cursor_lt_size n)
theorem Linked.graftAll {p : Nat} : ∀ (ts : List Tree) {a : Arena}, a.Linked → a.IsInner p →
    (a.graftAll (some p) ts).Linked
  | [], _, h, _ => h
  | t :: ts, _, h, hp =>
    Linked.graftAll ts (h.graft t hp) (hp.graft t (by simpa using hp))
end

theorem linked_graft (t : Tree) : (graft {} none t).Linked := by
  cases t with
  | leaf t => exact linked_root rfl
  | epsilon => exact linked_root rfl
  | node n ts => exact (linked_root rfl).graftAll ts (isInner_push_node (by simp) n)

/-- Adds several children. -/
def Node.adoptAll (x : Node) (ids : List Nat) : Node := ids.foldl (fun x i => x.adopt i) x

theorem Node.adoptAll_node {parent : Option Nat} {n : Nonterminal} {children ids : List Nat} :
    (Node.mk parent (.node n children)).adoptAll ids = ⟨parent, .node n (children ++ ids)⟩ := by
  induction ids generalizing children with
  | nil => simp [adoptAll]
  | cons i ids ih =>
    have hstep : (Node.mk parent (.node n children)).adoptAll (i :: ids) =
        (Node.mk parent (.node n (children ++ [i]))).adoptAll ids := rfl
    rw [hstep, ih, List.append_assoc, List.singleton_append]

@[simp] theorem Node.adoptAll_parent (ids : List Nat) (x : Node) :
    (x.adoptAll ids).parent = x.parent := by
  induction ids generalizing x with
  | nil => rfl
  | cons i ids ih => exact (ih _).trans (x.adopt_parent i)

/-- The nodes after their parent at the cursor has been given more children. -/
def enter (cursor : Option Nat) (ids : List Nat) (nodes : List Node) : List Node :=
  match cursor with
  | none => nodes
  | some p => nodes.modify p (·.adoptAll ids)

end Arena

namespace Tree

/-- Where the roots of a forest stand if its nodes are numbered from `i` on. -/
def places : (i : Nat) → List Tree → List Nat
  | _, [] => []
  | i, t :: ts => i :: places (i + t.size) ts

mutual
/-- The nodes of a tree, each before its children, numbered from `i` on. -/
def listing (parent : Option Nat) (i : Nat) : Tree → List Arena.Node
  | leaf t => [⟨parent, .leaf t⟩]
  | epsilon => [⟨parent, .epsilon⟩]
  | node n ts => ⟨parent, .node n (places (i + 1) ts)⟩ :: listingAll (some i) (i + 1) ts
def listingAll (parent : Option Nat) (i : Nat) : List Tree → List Arena.Node
  | [] => []
  | t :: ts => listing parent i t ++ listingAll parent (i + t.size) ts
end

mutual
theorem length_listing {parent : Option Nat} :
    ∀ (t : Tree) (i : Nat), (t.listing parent i).length = t.size
  | leaf _, _ | epsilon, _ => rfl
  | node n ts, i => by
    rw [listing, List.length_cons, length_listingAll ts, size, Nat.add_comm]
theorem length_listingAll {parent : Option Nat} :
    ∀ (ts : List Tree) (i : Nat), (listingAll parent i ts).length = sizeAll ts
  | [], _ => rfl
  | t :: ts, i => by
    rw [listingAll, List.length_append, length_listing t, length_listingAll ts, sizeAll]
end

mutual
/-- The tokens stand in the listing as they stand in the tree. -/
theorem token?_listing {parent : Option Nat} :
    ∀ (t : Tree) (i : Nat), (t.listing parent i).filterMap (·.token?) = t.leaves
  | leaf _, _ | epsilon, _ => rfl
  | node n ts, i => by
    rw [listing, List.filterMap_cons_none rfl, token?_listingAll ts, leaves]
theorem token?_listingAll {parent : Option Nat} :
    ∀ (ts : List Tree) (i : Nat), (listingAll parent i ts).filterMap (·.token?) = leavesAll ts
  | [], _ => rfl
  | t :: ts, i => by
    rw [listingAll, List.filterMap_append, token?_listing t, token?_listingAll ts, leavesAll]
end

end Tree

namespace Arena

section Enter

variable {cursor : Option Nat} {nodes nodes' : List Node} {ids ids' : List Nat}

theorem enter_append (h : ∀ p ∈ cursor, p < nodes.length) :
    enter cursor ids (nodes ++ nodes') = enter cursor ids nodes ++ nodes' := by
  cases cursor with
  | none => rfl
  | some p =>
    have hp := h p rfl
    apply List.ext_getElem?
    intro i
    simp only [enter, List.getElem?_modify, List.getElem?_append, List.length_modify]
    split <;> simp_all

theorem enter_last {i : Nat} (h : nodes.length = i) (x : Node) :
    enter (some i) ids (nodes ++ [x]) = nodes ++ [x.adoptAll ids] := by
  subst h
  induction nodes with
  | nil => rfl
  | cons y nodes ih => simpa [enter] using ih

theorem enter_enter :
    enter cursor ids' (enter cursor ids nodes) = enter cursor (ids ++ ids') nodes := by
  cases cursor with
  | none => rfl
  | some p => simp [enter, List.modify_modify_eq, Node.adoptAll, Function.comp_def]

theorem enter_nil : enter cursor [] nodes = nodes := by
  cases cursor with
  | none => rfl
  | some p => exact List.modify_id p nodes

theorem length_enter : (enter cursor ids nodes).length = nodes.length := by
  cases cursor <;> simp [enter]

end Enter

theorem toList_push {a : Arena} {cursor : Option Nat} {c : Content}
    (h : ∀ p ∈ cursor, p < a.size) :
    (a.push cursor c).nodes.toList = enter cursor [a.size] a.nodes.toList ++ [⟨cursor, c⟩] := by
  rw [← enter_append h]
  cases cursor <;> simp [push, enter, Node.adoptAll]

theorem size_of_toList_graft {a b : Arena} {cursor : Option Nat} {ids : List Nat} {t : Tree}
    {i : Nat} (h : b.nodes.toList = enter cursor ids a.nodes.toList ++ t.listing cursor i) :
    b.size = a.size + t.size := by
  have hlength := congrArg List.length h
  rwa [List.length_append, length_enter, Tree.length_listing] at hlength

mutual
/-- A grafted tree stands at the end, in preorder, and its root is one more child at the cursor. -/
theorem toList_graft {cursor : Option Nat} : ∀ (t : Tree) {a : Arena},
    (∀ p ∈ cursor, p < a.size) → (a.graft cursor t).nodes.toList =
      enter cursor [a.size] a.nodes.toList ++ t.listing cursor a.size
  | .leaf _, _, h | .epsilon, _, h => toList_push h
  | .node n ts, a, h => by
    have hlength : (enter cursor [a.size] a.nodes.toList).length = a.size := length_enter
    rw [graft, toList_graftAll ts (by simp), toList_push h, size_push, Tree.listing,
      enter_last hlength, Node.adoptAll_node]
    simp
theorem toList_graftAll {cursor : Option Nat} : ∀ (ts : List Tree) {a : Arena},
    (∀ p ∈ cursor, p < a.size) → (a.graftAll cursor ts).nodes.toList =
      enter cursor (Tree.places a.size ts) a.nodes.toList ++ Tree.listingAll cursor a.size ts
  | [], a, _ => by simp [graftAll, Tree.places, Tree.listingAll, enter_nil]
  | t :: ts, a, h => by
    have hgraft := toList_graft t h
    have hsize := size_of_toList_graft hgraft
    rw [graftAll, toList_graftAll ts (fun p hp => by have := h p hp; omega), hgraft, hsize,
      enter_append (by rwa [length_enter]), enter_enter, Tree.places, Tree.listingAll,
      List.append_assoc, List.singleton_append]
end

theorem toList_graft_root (t : Tree) : (graft {} none t).nodes.toList = t.listing none 0 :=
  toList_graft t (by simp)

variable {a : Arena} {cursor : Option Nat} {before after : List Node}

theorem size_graft (t : Tree) (h : ∀ p ∈ cursor, p < a.size) :
    (a.graft cursor t).size = a.size + t.size :=
  size_of_toList_graft (toList_graft t h)

/-- Nodes keep their parents while trees are grafted. -/
theorem parent?_graftAll {i : Nat} (ts : List Tree) (h : ∀ p ∈ cursor, p < a.size)
    (hi : i < a.size) : (a.graftAll cursor ts).parent? i = a.parent? i := by
  have hlength : i < (enter cursor (Tree.places a.size ts) a.nodes.toList).length := by
    rwa [length_enter]
  simp only [parent?, node?]
  rw [← Array.getElem?_toList, toList_graftAll ts h, List.getElem?_append_left hlength,
    ← Array.getElem?_toList]
  cases cursor with
  | none => rfl
  | some p =>
    simp only [enter, List.getElem?_modify]
    cases a.nodes.toList[i]? with
    | none => rfl
    | some x => by_cases hp : p = i <;> simp [hp]

theorem children_eq_of_toList {x : Node} (h : a.nodes.toList = before ++ x :: after) :
    a.children before.length = x.children := by
  have hx : a.node? before.length = some x := by
    rw [node?, ← Array.getElem?_toList, h, List.getElem?_append_right (Nat.le_refl _)]
    simp
  simp [children, hx]

mutual
/-- A walk goes through the listing of a tree from its first node to its last. -/
theorem walk_listing {cursor : Option Nat} :
    ∀ (t : Tree) (before after : List Node) (k : Nat) (stack : List Nat),
      a.nodes.toList = before ++ (t.listing cursor before.length ++ after) →
      a.walk (t.size + k) (before.length :: stack) =
        List.range' before.length t.size ++ a.walk k stack
  | .leaf _, before, after, k, stack, h | .epsilon, before, after, k, stack, h => by
    rw [Tree.size, Nat.add_comm 1 k, walk, children_eq_of_toList h]
    rfl
  | .node n ts, before, after, k, stack, h => by
    rw [Tree.listing] at h
    have hts := walk_listingAll ts (before ++ [_]) after k stack (by simpa using h)
    rw [List.length_append, List.length_singleton] at hts
    rw [Tree.size, Nat.add_comm 1, Nat.add_right_comm, walk, children_eq_of_toList h,
      Node.children, hts, List.range'_succ, List.cons_append]
theorem walk_listingAll {cursor : Option Nat} :
    ∀ (ts : List Tree) (before after : List Node) (k : Nat) (stack : List Nat),
      a.nodes.toList = before ++ (Tree.listingAll cursor before.length ts ++ after) →
      a.walk (Tree.sizeAll ts + k) (Tree.places before.length ts ++ stack) =
        List.range' before.length (Tree.sizeAll ts) ++ a.walk k stack
  | [], _, _, _, _, _ => by simp [Tree.sizeAll, Tree.places]
  | t :: ts, before, after, k, stack, h => by
    rw [Tree.listingAll, List.append_assoc] at h
    have hlength : (before ++ t.listing cursor before.length).length = before.length + t.size := by
      rw [List.length_append, Tree.length_listing]
    have hts := walk_listingAll ts (before ++ t.listing cursor before.length) after k stack
      (by rw [hlength, List.append_assoc]; exact h)
    rw [hlength] at hts
    rw [Tree.sizeAll, Tree.places, Nat.add_assoc, List.cons_append,
      walk_listing t before _ _ _ h, hts, ← List.append_assoc, List.range'_append_1]
end

/--
An arena that holds one tree of a nonterminal: the first node is its root, every other node is
entered once, with the parent it names, and a walk from the root meets the nodes by number.
-/
structure WellFormed (n : Nonterminal) (a : Arena) : Prop where
  root : ∃ children, a.node? 0 = some ⟨none, .node n children⟩
  parent_eq_none_iff : ∀ i < a.size, a.parent? i = none ↔ i = 0
  entered : ∀ i < a.size, i ≠ 0 → ∃ p, a.parent? i = some p ∧
    ∀ q, (a.children q).count i = if q = p then 1 else 0
  child_lt_size : ∀ p, ∀ i ∈ a.children p, i < a.size
  parent_lt_child : ∀ p, ∀ i ∈ a.children p, p < i
  sorted : ∀ p, (a.children p).Pairwise (· < ·)
  preorder : ∀ k, a.walk (a.size + k) a.root = List.range a.size
  leaves_eq : a.leaves = a.nodes.toList.filterMap (·.token?)

/-- A child is entered with its parent and nowhere else. -/
theorem Linked.count_children (h : a.Linked) {i p : Nat} (hi : a.parent? i = some p) (q : Nat) :
    (a.children q).count i = if q = p then 1 else 0 := by
  have hnodup : (a.children q).Nodup := (h.sorted q).imp Nat.ne_of_lt
  split
  · rename_i hq
    exact List.count_eq_one_of_mem hnodup ((h.mem_children_iff q i).mpr (hq ▸ hi))
  · rename_i hq
    refine List.count_eq_zero.mpr fun hmem => hq ?_
    have hparent := (h.mem_children_iff q i).mp hmem
    exact Option.some.inj (hparent.symm.trans hi)

theorem size_graft_root (t : Tree) : (graft {} none t).size = t.size :=
  (size_graft t (by simp)).trans (Nat.zero_add _)

theorem walk_graft (t : Tree) (k : Nat) :
    (graft {} none t).walk (t.size + k) [0] = List.range t.size := by
  have hwalk := walk_listing t [] [] k [] (by simpa using toList_graft_root t)
  rw [List.length_nil] at hwalk
  rw [hwalk, List.range_eq_range']
  cases k <;> simp [walk]

theorem root_graft (t : Tree) : (graft {} none t).root = [0] := by
  have hpos : t.size ≠ 0 := by
    cases t <;> simp [Tree.size]
  rw [root, size_graft_root, if_neg hpos]

theorem filterMap_getElem?_range {α : Type} (l : List α) :
    (List.range l.length).filterMap (fun i => l[i]?) = l := by
  induction l using List.reverseRecOn with
  | nil => rfl
  | append_singleton l x ih =>
    have hold : (List.range l.length).filterMap (fun i => (l ++ [x])[i]?) = l := by
      refine Eq.trans (List.filterMap_congr fun i hi => ?_) ih
      exact List.getElem?_append_left (List.mem_range.mp hi)
    rw [List.length_append, List.length_singleton, List.range_succ, List.filterMap_append, hold]
    simp

/-- The tokens met on a walk by number are those of all nodes, in their order. -/
theorem filterMap_range_token? (a : Arena) :
    (List.range a.size).filterMap a.token? = a.nodes.toList.filterMap (·.token?) := by
  have hnodes : a.nodes.toList = (List.range a.size).filterMap a.node? := by
    refine (filterMap_getElem?_range a.nodes.toList).symm.trans ?_
    simp only [Array.getElem?_toList, Array.length_toList]
    rfl
  rw [hnodes, List.filterMap_filterMap]
  rfl

theorem leaves_graft (t : Tree) :
    (graft {} none t).leaves = (graft {} none t).nodes.toList.filterMap (·.token?) := by
  have hwalk := walk_graft t 0
  rw [Nat.add_zero] at hwalk
  rw [leaves, root_graft, size_graft_root, hwalk, ← filterMap_range_token?, size_graft_root]

theorem wellFormed_graft (n : Nonterminal) (ts : List Tree) :
    (graft {} none (.node n ts)).WellFormed n := by
  have hlinked := linked_graft (.node n ts)
  have hroot : (graft {} none (.node n ts)).node? 0 =
      some ⟨none, .node n (Tree.places 1 ts)⟩ := by
    rw [node?, ← Array.getElem?_toList, toList_graft_root]
    rfl
  constructor
  · exact ⟨_, hroot⟩
  · intro i hi
    refine ⟨hlinked.orphan i hi, ?_⟩
    rintro rfl
    simp [parent?, hroot]
  · intro i hi hne
    obtain ⟨p, hp⟩ := Option.ne_none_iff_exists'.mp fun hnone => hne (hlinked.orphan i hi hnone)
    exact ⟨p, hp, hlinked.count_children hp⟩
  · exact fun p i hi => hlinked.lt_size hi
  · exact fun p i hi => hlinked.lt_of_parent? p i ((hlinked.mem_children_iff p i).mp hi)
  · exact hlinked.sorted
  · intro k
    rw [size_graft_root, root_graft, walk_graft]
  · exact leaves_graft _

end Arena

end ChainScript
