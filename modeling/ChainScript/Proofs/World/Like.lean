import ChainScript.Proofs.Value.Like

/-!
Scopes, frames and calls that are alike. Names stand for alike things in alike scopes, and what is
built from things that are alike is alike.
-/
namespace ChainScript

variable {ℓ : Likeness} {v w : Value} {s t : Scope} {p q : Namespace} {m n : Module}

/-- The bindings stand for alike values, or for the same function in alike scopes. -/
inductive Binding.Like (ℓ : Likeness) : Binding → Binding → Prop
  | value {v w : Value} (h : v.Like ℓ w) : Binding.Like ℓ (.value v) (.value w)
  | function (l : Lambda Code) {s t : Scope} (h : s.Like ℓ t) :
      Binding.Like ℓ (.function l s) (.function l t)

theorem Module.like_space (hm : m.Like ℓ n) (hs : s.Like ℓ t) :
    (m.space s).Like ℓ (n.space t) :=
  .mk hm (.module hm hs)

theorem Module.like_resolve? (hm : m.Like ℓ n) (hs : s.Like ℓ t) (x : String) :
    Option.Rel (Binding.Like ℓ) (m.resolve? x s) (n.resolve? x t) := by
  obtain ⟨-, himports, hdecls⟩ := Module.like_iff.mp hm
  unfold resolve?
  obtain ⟨hd, he⟩ | ⟨d, e, hd, he, hdecl⟩ := Option.rel_cases (Table.related_get? hdecls x)
  · rw [hd, he]
    obtain ⟨hi, hj⟩ | ⟨i, j, hi, hj, himport⟩ :=
      Option.rel_cases (Table.related_get? himports x)
    · rw [hi, hj]
      exact .none
    · rw [hi, hj]
      exact .some (.value (.module (Module.like_space himport (Scope.like_outer hs))))
  · rw [hd, he]
    cases hdecl with
    | lambda l => exact .some (.function l hs)
    | value hv => exact .some (.value hv)

theorem Namespace.like_resolve? (h : p.Like ℓ q) (x : String) :
    Option.Rel (Binding.Like ℓ) (p.resolve? x) (q.resolve? x) := by
  cases h with
  | mk hm hs => exact Module.like_resolve? hm hs x

theorem Option.rel_or {α β : Type} {R : α → β → Prop} {a b : Option α} {a' b' : Option β}
    (h : Option.Rel R a a') (h' : Option.Rel R b b') : Option.Rel R (a.or b) (a'.or b') := by
  cases h with
  | none => exact h'
  | some h => exact .some h

namespace Scope

variable {xs ys : List (String × Value)}

/-- A name stands for alike things in alike scopes. -/
theorem like_find? (x : String) (h : s.Like ℓ t) :
    Option.Rel (Binding.Like ℓ) (s.find? x) (t.find? x) := by
  fun_induction find? x s generalizing t with
  | case1 =>
    cases h
    exact .none
  | case2 names outer ih =>
    cases h with
    | bound hlength hkeys hnames houter =>
      have hrelated := Table.related_iff.mpr ⟨hlength, hkeys, hnames⟩
      refine Option.rel_or ?_ (ih houter)
      obtain ⟨ha, hb⟩ | ⟨a, b, ha, hb, hv⟩ := Option.rel_cases (Table.related_get? hrelated x)
      · rw [ha, hb]
        exact .none
      · rw [ha, hb]
        exact .some (.value hv)
  | case3 m outer ih =>
    cases h with
    | module hm houter =>
      exact Option.rel_or (Module.like_resolve? hm (.module hm houter) x) (ih houter)
  | case4 space outer ih =>
    cases h with
    | members hspace houter =>
      exact Option.rel_or (Namespace.like_resolve? hspace x) (ih houter)

theorem like_add (hs : s.Like ℓ t) (hv : v.Like ℓ w) (x : String) :
    (s.add x v).Like ℓ (t.add x w) :=
  bound_like_iff.mpr ⟨.cons ⟨rfl, hv⟩ .nil, hs⟩

theorem like_addAll (hs : s.Like ℓ t) (h : Table.Related (Value.Like ℓ) xs ys) :
    (s.addAll xs).Like ℓ (t.addAll ys) := by
  cases h with
  | nil => exact hs
  | cons he hrest => exact bound_like_iff.mpr ⟨Table.related_ofList (.cons he hrest), hs⟩

end Scope

theorem Decl.like_ofValue (h : v.Like ℓ w) : (Decl.ofValue v).Like ℓ (Decl.ofValue w) := by
  cases h with
  | code id e =>
    cases e with
    | lambda name params body => exact .lambda _
    | _ => exact .value (.code id _)
  | number x => exact .value (.number x)
  | string x => exact .value (.string x)
  | boolean b => exact .value (.boolean b)
  | array hlength hitems herrors => exact .value (.array hlength hitems herrors)
  | error id hcause hpath => exact .value (.error id hcause hpath)
  | module hspace => exact .value (.module hspace)
  | native n => exact .value (.native n)
  | closure id l hscope => exact .value (.closure id l hscope)
  | curried id hf he hl hs hw => exact .value (.curried id hf he hl hs hw)
  | thunk id e hscope => exact .value (.thunk id e hscope)

/-- The module of a collector, made of values that are alike. -/
theorem Module.like_ofBound {xs ys : List (String × Value)}
    (h : Table.Related (Value.Like ℓ) xs ys) (id : Nat) :
    Module.Like ℓ ⟨id, [], (Table.ofList xs).map fun (name, v) => (name, Decl.ofValue v)⟩
      ⟨id, [], (Table.ofList ys).map fun (name, v) => (name, Decl.ofValue v)⟩ := by
  refine Module.like_iff.mpr ⟨rfl, .nil, ?_⟩
  refine List.forall₂_map_left_iff.mpr (List.forall₂_map_right_iff.mpr ?_)
  exact (Table.related_ofList h).imp fun _ _ he => ⟨he.1, Decl.like_ofValue he.2⟩

theorem Value.like_pin (h : s.Like ℓ t) (e : ChainScript.Code) : (pin s e).Like ℓ (pin t e) := by
  cases e with
  | number x => exact .number x
  | string x => exact .string x
  | empty => exact array_like_iff.mpr .nil
  | _ => exact .thunk none _ h

/-- Only the scopes and the active calls differ, and these are alike. -/
structure Frame.Like (ℓ : Likeness) (f g : Frame) : Prop where
  scope : f.scope.Like ℓ g.scope
  path : ℓ.path f.path g.path
  signal : f.signal = g.signal
  depth : f.depth = g.depth
  maxDepth : f.maxDepth = g.maxDepth

namespace Frame

variable {f g : Frame} (h : f.Like ℓ g)

include h

theorem like_withScope (hs : s.Like ℓ t) : (f.withScope s).Like ℓ (g.withScope t) :=
  ⟨hs, h.path, h.signal, h.depth, h.maxDepth⟩

theorem like_enter (name : String) : (f.enter name).Like ℓ (g.enter name) :=
  ⟨h.scope, ℓ.path_push h.path name, h.signal, h.depth, h.maxDepth⟩

theorem like_descend (name : String) : (f.descend name).Like ℓ (g.descend name) :=
  ⟨h.scope, ℓ.path_push h.path name, h.signal, congrArg (· + 1) h.depth, h.maxDepth⟩

/-- Frames that are alike have to stop for the same cause. -/
theorem stop?_of_like {σ : Type} (w : World σ) : w.stop? g = w.stop? f := by
  obtain ⟨_, _, signal, depth, maxDepth⟩ := f
  obtain ⟨_, _, signal', depth', maxDepth'⟩ := g
  obtain ⟨-, -, hsignal, hdepth, hmax⟩ := h
  obtain rfl : signal = signal' := hsignal
  obtain rfl : depth = depth' := hdepth
  obtain rfl : maxDepth = maxDepth' := hmax
  rfl

end Frame

structure Call.Like (ℓ : Likeness) (c d : Call) : Prop where
  callee : c.callee.Like ℓ d.callee
  frame : c.frame.Like ℓ d.frame
  args : List.Forall₂ (Value.Like ℓ) c.args d.args

end ChainScript
