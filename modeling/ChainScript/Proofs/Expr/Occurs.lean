import ChainScript.Expr

/-! Which expressions occur in an expression, and which memos in code. -/
namespace ChainScript.Expr

variable {κ : Type} {e d part : Expr κ}

/-- The expressions right inside an expression. -/
def children : Expr κ → List (Expr κ)
  | array items => items
  | lambda _ _ body => [body]
  | apply func args => func :: args
  | switch subject cases => subject :: cases.flatMap fun (lhs, rhs) => [lhs, rhs]
  | chain segments => segments.map (·.expr)
  | compound items => items
  | collector items => items
  | bind _ value => [value]
  | member base _ => [base]
  | within base body => [base, body]
  | memo _ _ body => [body]
  | _ => []

/-- The expression `part` occurs in an expression, at any depth. -/
inductive Occurs (part : Expr κ) : Expr κ → Prop
  | self : Occurs part part
  | child {e d : Expr κ} (he : e ∈ d.children) (h : Occurs part e) : Occurs part d

theorem sizeOf_lt_of_mem_children [SizeOf κ] (h : e ∈ d.children) : sizeOf e < sizeOf d := by
  cases d with
  | array items =>
    have : sizeOf e < sizeOf items := List.sizeOf_lt_of_mem h
    simp only [array.sizeOf_spec]
    omega
  | lambda name params body =>
    obtain rfl := List.mem_singleton.mp h
    simp only [lambda.sizeOf_spec]
    omega
  | apply func args =>
    simp only [apply.sizeOf_spec]
    obtain rfl | h := List.mem_cons.mp h
    · omega
    · have := List.sizeOf_lt_of_mem h
      omega
  | switch subject cases =>
    simp only [switch.sizeOf_spec]
    obtain rfl | h := List.mem_cons.mp h
    · omega
    · obtain ⟨⟨lhs, rhs⟩, hmem, h⟩ := List.mem_flatMap.mp h
      have := List.sizeOf_lt_of_mem hmem
      simp only [Prod.mk.sizeOf_spec] at this
      simp only [List.mem_cons, List.not_mem_nil, or_false] at h
      rcases h with rfl | rfl <;> omega
  | chain segments =>
    simp only [chain.sizeOf_spec]
    obtain ⟨⟨e', link, slot⟩, hmem, rfl⟩ := List.mem_map.mp h
    have := List.sizeOf_lt_of_mem hmem
    simp only [Segment.mk.sizeOf_spec] at this ⊢
    omega
  | compound items =>
    have : sizeOf e < sizeOf items := List.sizeOf_lt_of_mem h
    simp only [compound.sizeOf_spec]
    omega
  | collector items =>
    have : sizeOf e < sizeOf items := List.sizeOf_lt_of_mem h
    simp only [collector.sizeOf_spec]
    omega
  | bind pattern value =>
    obtain rfl := List.mem_singleton.mp h
    simp only [bind.sizeOf_spec]
    omega
  | member base name =>
    obtain rfl := List.mem_singleton.mp h
    simp only [member.sizeOf_spec]
    omega
  | within base body =>
    simp only [children, List.mem_cons, List.not_mem_nil, or_false] at h
    simp only [within.sizeOf_spec]
    rcases h with rfl | rfl <;> omega
  | memo mark params body =>
    obtain rfl := List.mem_singleton.mp h
    simp only [memo.sizeOf_spec]
    omega
  | _ => simp [children] at h

theorem sizeOf_le_of_occurs [SizeOf κ] (h : Occurs part e) : sizeOf part ≤ sizeOf e := by
  induction h with
  | self => exact Nat.le_refl _
  | child he _ ih =>
    have := sizeOf_lt_of_mem_children he
    omega

theorem exists_child_of_occurs (h : Occurs part d) (hne : part ≠ d) :
    ∃ e ∈ d.children, Occurs part e := by
  cases h with
  | self => exact absurd rfl hne
  | child he h => exact ⟨_, he, h⟩

end ChainScript.Expr

namespace ChainScript

/-- A collection of memos: the numbers of their caches, their parameters and their bodies. -/
abbrev Memos : Type := Nat → List String → Code → Prop

namespace Expr

/-- The memos that occur in the code. -/
def memos (e : Code) : Memos := fun mark params body => Occurs (.memo mark params body) e

/-- Every memo that occurs in the code is one of those given. -/
def MemosIn (given : Memos) (e : Code) : Prop :=
  ∀ mark params body, e.memos mark params body → given mark params body

theorem memosIn_of_mem_children {given : Memos} {e d : Code} (h : e.MemosIn given)
    (hd : d ∈ e.children) : d.MemosIn given :=
  fun mark params body hocc => h mark params body (.child hd hocc)

end Expr

end ChainScript
