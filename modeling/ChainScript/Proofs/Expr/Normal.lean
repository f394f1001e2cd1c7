import ChainScript.Expr.OfTree

/-!
The normal form of source code. Single items and segments stand for themselves, a `let` is an item
of a compound or a collector, and a memo is the body of the function whose parameters it has, or
what a `let` without parameters binds.
-/
namespace ChainScript

/-- An array pattern has a name. -/
def Pattern.IsNormal : Pattern → Prop
  | name _ => True
  | array names => names ≠ []

namespace Expr

mutual
inductive IsNormal : Source → Prop
  | number (x : Float) : IsNormal (.number x)
  | string (s : String) : IsNormal (.string s)
  | var (x : String) : IsNormal (.var x)
  | array {items : List Source} (h : ∀ e ∈ items, IsNormal e) : IsNormal (.array items)
  | lambda (name : String) (params : List String) {body : Source} (h : IsNormal body) :
      IsNormal (.lambda name params body)
  | memoLambda (name : String) (params : List String) {body : Source} (h : IsNormal body) :
      IsNormal (.lambda name params (.memo () params body))
  | apply {func : Source} {args : List Source} (hf : IsNormal func)
      (ha : ∀ a ∈ args, IsNormal a) (hne : args ≠ []) : IsNormal (.apply func args)
  | switch {subject : Source} {cases : List (Source × Source)} (hs : IsNormal subject)
      (hl : ∀ c ∈ cases, IsNormal c.1) (hr : ∀ c ∈ cases, IsNormal c.2) :
      IsNormal (.switch subject cases)
  | chain {first : Segment Source} {rest : List (Segment Source)}
      (he : ∀ g ∈ first :: rest, IsNormal g.expr)
      (hslot : ∀ g ∈ first :: rest, ∀ p, g.slot = some p → p.IsNormal)
      (hlink : first.link = .plain) (hmore : rest ≠ [] ∨ first.slot ≠ none) :
      IsNormal (.chain (first :: rest))
  | compound {items : List Source} (h : ∀ e ∈ items, IsNormalItem e)
      (hmore : 2 ≤ items.length ∨ ∃ pattern value, items = [.bind pattern value]) :
      IsNormal (.compound items)
  | collector {items : List Source} (h : ∀ e ∈ items, IsNormalItem e) (hne : items ≠ []) :
      IsNormal (.collector items)
  | member {base : Source} (hb : IsNormal base) (name : String) : IsNormal (.member base name)
  | within {base body : Source} (hb : IsNormal base) (h : IsNormal body) :
      IsNormal (.within base body)
/-- What may stand between the semicolons of a compound. -/
inductive IsNormalItem : Source → Prop
  | expr {e : Source} (h : IsNormal e) : IsNormalItem e
  | bind {pattern : Pattern} {value : Source} (hp : pattern.IsNormal) (h : IsNormal value) :
      IsNormalItem (.bind pattern value)
  | memo (name : String) {body : Source} (h : IsNormal body) :
      IsNormalItem (.bind (.name name) (.memo () [] body))
end

variable {e func body : Source} {args items : List Source} {link : Link}
  {segments : List (Segment Source)}

/-- The segments of an expression whose first one is joined by `link`. -/
structure AreNormalSegments (link : Link) (segments : List (Segment Source)) : Prop where
  nonempty : segments ≠ []
  exprs : ∀ g ∈ segments, g.expr.IsNormal
  slots : ∀ g ∈ segments, ∀ p, g.slot = some p → p.IsNormal
  first : ∀ g ∈ segments.head?, g.link = link

theorem ofSegments_cons {g : Segment Source} {rest : List (Segment Source)}
    (h : rest ≠ [] ∨ g.slot ≠ none) : ofSegments (g :: rest) = .chain (g :: rest) := by
  unfold ofSegments
  split
  · simp_all
  · rfl

theorem isNormal_ofSegments (h : AreNormalSegments .plain segments) :
    (ofSegments segments).IsNormal := by
  obtain ⟨hne, hexprs, hslots, hfirst⟩ := h
  cases segments with
  | nil => exact (hne rfl).elim
  | cons first rest =>
    have hlink : first.link = .plain := hfirst first (by simp)
    by_cases hmore : rest ≠ [] ∨ first.slot ≠ none
    · rw [ofSegments_cons hmore]
      exact .chain hexprs hslots hlink hmore
    · obtain ⟨rfl, hslot⟩ : rest = [] ∧ first.slot = none := by
        simpa [not_or] using hmore
      obtain ⟨expr, link, slot⟩ := first
      subst hslot
      exact hexprs ⟨expr, link, none⟩ (by simp)

theorem isNormal_ofItems (h : ∀ e ∈ items, IsNormalItem e) (hne : items ≠ []) :
    (ofItems items).IsNormal := by
  unfold ofItems
  split
  next pattern value => exact .compound h (.inr ⟨pattern, value, rfl⟩)
  next e hlet =>
    cases h e (by simp) with
    | expr he => exact he
    | bind hp he => exact (hlet _ _ rfl).elim
    | memo name he => exact (hlet _ _ rfl).elim
  next hlet hsingle =>
    refine .compound h (.inl ?_)
    match items with
    | [] => exact (hne rfl).elim
    | [e] => exact (hsingle e rfl).elim
    | _ :: _ :: _ => simp

theorem isNormal_function (memoized : Bool) (name : String) (params : List String)
    (h : body.IsNormal) : (function memoized name params body).IsNormal := by
  cases memoized with
  | false => exact .lambda name params h
  | true => exact .memoLambda name params h

theorem isNormalItem_definition (memoized : Bool) (name : String) (params : List String)
    (h : body.IsNormal) :
    IsNormalItem (.bind (.name name) (definition memoized name params body)) := by
  unfold definition
  split
  · cases memoized with
    | false => exact .bind trivial h
    | true => exact .memo name h
  · exact .bind trivial (isNormal_function memoized name params h)

theorem isNormal_applied (hf : func.IsNormal) (ha : ∀ a ∈ args, a.IsNormal) :
    (applied func args).IsNormal := by
  unfold applied
  split
  · exact hf
  next hne => exact .apply hf ha (by simpa using hne)

theorem isNormal_switched {cases : Option (List (Source × Source))} (h : e.IsNormal)
    (hcases : ∀ cs, cases = some cs → ∀ c ∈ cs, c.1.IsNormal ∧ c.2.IsNormal) :
    (switched e cases).IsNormal := by
  cases cases with
  | none => exact h
  | some cs =>
    exact .switch h (fun c hc => (hcases cs rfl c hc).1) fun c hc => (hcases cs rfl c hc).2

end Expr

end ChainScript
