import ChainScript.World
import ChainScript.Proofs.Expr.Allot
import ChainScript.Proofs.Expr.Normal
import ChainScript.Proofs.Tree.Spelt

/-!
Source code in writing. An expression is written as tokens, in parentheses wherever its place has
no room for it otherwise, and every text with these tokens is read as that expression.
-/
namespace ChainScript

/-- The places for expressions in a text, each with room for all that fits into those before it. -/
inductive Place where
  /-- Only what has parentheses of its own: a compound or a collector. -/
  | closed
  | ref
  | single
  | applied
  | switched
  | chained
  | items
  deriving Repr, DecidableEq

namespace Place

def rank : Place → Nat
  | closed => 0
  | ref => 1
  | single => 2
  | applied => 3
  | switched => 4
  | chained => 5
  | items => 6

/-- The next place with more room. -/
def next : Place → Place
  | closed => ref
  | ref => single
  | single => applied
  | applied => switched
  | switched => chained
  | chained => items
  | items => items

theorem iterate_next {l m : Place} (h : l.rank ≤ m.rank) : next^[m.rank - l.rank] l = m := by
  cases l <;> cases m <;> first | rfl | simp [rank] at h

end Place

def Link.keyword : Link → Keyword
  | plain => .chain
  | ignored => .ignoredChain
  | recover => .errorChain

theorem Link.ofKeyword?_keyword (link : Link) : ofKeyword? link.keyword = some link := by
  cases link <;> rfl

def Pattern.tokens : Pattern → List Lexical
  | name x => [.identifier x]
  | array names =>
    .keyword .openBracket :: (names.map .identifier ++ [.keyword .closeBracket])

namespace Lexical

/-- Tokens in parentheses, if they need them. -/
def wrap (needed : Bool) (tokens : List Lexical) : List Lexical :=
  if needed then .keyword .openParen :: (tokens ++ [.keyword .closeParen]) else tokens

/-- Items with semicolons between them. -/
def separated (items : List (List Lexical)) : List Lexical :=
  [.keyword .semicolon].intercalate items

/-- What stands in front of the body of a function. -/
def heading (memoized : Bool) (name : String) (params : List String) : List Lexical :=
  (if memoized then [.keyword .memo] else []) ++
    .identifier name :: (params.map .identifier ++ [.keyword .arrow])

def slot : Option Pattern → List Lexical
  | none => []
  | some p => .keyword .colon :: p.tokens

end Lexical

namespace Expr

open Lexical

def isMemo : Source → Bool
  | memo .. => true
  | _ => false

def isLet : Source → Bool
  | bind .. => true
  | _ => false

/-- The first place with room for an expression. Memos are written along with what they are in. -/
def place : Source → Place
  | number _ => .single
  | string _ => .single
  | empty => .items
  | var _ => .ref
  | array _ => .single
  | lambda .. => .single
  | apply .. => .applied
  | switch .. => .switched
  | chain _ => .chained
  | compound _ => .items
  | collector _ => .closed
  | bind .. => .chained
  | member .. => .ref
  | within .. => .ref
  | memo _ _ body => place body

/--
What a writer is free to choose: more parentheses than needed, and for a `let` of a function under
its own name whether the parameters follow the name.
-/
structure Style where
  parens : Place → Source → Bool
  declares : Source → Bool

/-- Whether an expression is put in parentheses. -/
def Style.wraps (style : Style) (limit : Place) (e : Source) : Bool :=
  limit.rank < e.place.rank || (style.parens limit e && !e.isLet)

mutual
/-- The tokens of an expression in a place with room for it. -/
def tokens (style : Style) : Source → List Lexical
  | number x => [.number x]
  | string s => [.string s]
  | empty => []
  | var x => [.identifier x]
  | array items =>
    .keyword .openBracket ::
      (separated (tokensEach style .chained items) ++ [.keyword .closeBracket])
  | lambda name params body =>
    .keyword .openLambda :: (heading body.isMemo name params ++
      (wrap (style.wraps .items body) (tokens style body) ++ [.keyword .closeParen]))
  | apply func args =>
    wrap (style.wraps .single func) (tokens style func) ++ (tokensEach style .single args).flatten
  | switch subject cases =>
    wrap (style.wraps .applied subject) (tokens style subject) ++
      .keyword .openBrace :: (tokensCases style cases ++ [.keyword .closeBrace])
  | chain segments => (tokensSegments style segments).tail
  | compound items => separated (tokensEach style .chained items)
  | collector items =>
    .keyword .openCollect ::
      (separated (tokensEach style .chained items) ++ [.keyword .closeParen])
  | bind (.name x) (lambda y params body) =>
    .keyword .bind ::
      (if style.declares (lambda y params body) && x = y && !params.isEmpty then
        heading body.isMemo x params ++ wrap (style.wraps .chained body) (tokens style body)
      else
        heading false x [] ++
          wrap (style.wraps .chained (lambda y params body)) (tokens style (lambda y params body)))
  | bind (.name x) value =>
    .keyword .bind ::
      (heading value.isMemo x [] ++ wrap (style.wraps .chained value) (tokens style value))
  | bind (.array names) value =>
    .keyword .bind :: ((Pattern.array names).tokens ++
      .keyword .arrow :: wrap (style.wraps .chained value) (tokens style value))
  | member base name =>
    wrap (style.wraps .ref base) (tokens style base) ++ [.keyword .dot, .identifier name]
  | within base body =>
    wrap (style.wraps .ref base) (tokens style base) ++
      .keyword .dot :: wrap (style.wraps .closed body) (tokens style body)
  | memo _ _ body => tokens style body
def tokensEach (style : Style) (limit : Place) : List Source → List (List Lexical)
  | [] => []
  | e :: rest => wrap (style.wraps limit e) (tokens style e) :: tokensEach style limit rest
def tokensCases (style : Style) : List (Source × Source) → List Lexical
  | [] => []
  | (lhs, rhs) :: rest =>
    wrap (style.wraps .chained lhs) (tokens style lhs) ++ .keyword .arrow ::
      (wrap (style.wraps .chained rhs) (tokens style rhs) ++
        .keyword .semicolon :: tokensCases style rest)
/-- Each segment with its link in front. -/
def tokensSegments (style : Style) : List (Segment Source) → List Lexical
  | [] => []
  | ⟨e, link, bound⟩ :: rest =>
    .keyword link.keyword :: (wrap (style.wraps .switched e) (tokens style e) ++
      (slot bound ++ tokensSegments style rest))
end

/-- The tokens of an expression in the given place. -/
def tokensAt (style : Style) (limit : Place) (e : Source) : List Lexical :=
  wrap (style.wraps limit e) (tokens style e)

theorem tokensEach_eq_map (style : Style) (limit : Place) (es : List Source) :
    tokensEach style limit es = es.map (tokensAt style limit) := by
  induction es with
  | nil => rfl
  | cons e es ih => rw [tokensEach, ih, List.map_cons, tokensAt]

end Expr

namespace Expr

open ChainScript.Tree Lexical

variable {e base : Source} {es : List Source} {us vs : List Lexical} {style : Style} {l m : Place}

/-- The tokens are those of the items, with semicolons between them. -/
inductive AreItems : List Source → List Lexical → Prop
  | last {e : Source} {vs : List Lexical} (h : Spelt .cexpr vs (item · = .ok e)) : AreItems [e] vs
  | cons {e : Source} {es : List Source} {us vs : List Lexical}
      (h : Spelt .cexpr us (item · = .ok e)) (hrest : AreItems es vs) :
      AreItems (e :: es) (us ++ .keyword .semicolon :: vs)

theorem AreItems.tail (h : AreItems es vs) :
    Spelt .compoundTail (.keyword .semicolon :: vs) (moreItems · = .ok es) := by
  induction h with
  | last h => simpa using spelt_moreItems h spelt_noMoreItems
  | cons h _ ih => exact spelt_moreItems h ih

/-- The first item, and the others with a semicolon in front. -/
theorem AreItems.split (h : AreItems es vs) :
    ∃ e rest us ts, es = e :: rest ∧ vs = us ++ ts ∧ Spelt .cexpr us (item · = .ok e) ∧
      Spelt .compoundTail ts (moreItems · = .ok rest) := by
  cases h with
  | last h => exact ⟨_, [], _, [], rfl, by simp, h, spelt_noMoreItems⟩
  | cons h hrest => exact ⟨_, _, _, _, rfl, rfl, h, hrest.tail⟩

theorem AreItems.fragment (h : AreItems es vs) :
    Spelt .fragExprs vs (fragmentItems · = .ok es) := by
  induction h with
  | last h => exact spelt_lastFragment h
  | cons h _ ih => exact spelt_fragments h ih

/-- The tokens are read as `e` in the given place. -/
def Fits (e : Source) (vs : List Lexical) : Place → Prop
  | .closed => Spelt .compound vs (Tree.compound · = .ok e)
  -- A reference is followed by its members.
  | .ref => ∀ us e', Spelt .sub us (members e · = .ok e') →
      Spelt .single (vs ++ us) (operand · = .ok e')
  | .single => Spelt .single vs (operand · = .ok e)
  | .applied => ∃ us as func args, vs = us ++ as ∧ e = applied func args ∧
      Spelt .single us (operand · = .ok func) ∧ Spelt .args as (operands · = .ok args)
  | .switched => ∃ us as cs func args block, vs = us ++ (as ++ cs) ∧
      e = switched (applied func args) block ∧ Spelt .single us (operand · = .ok func) ∧
      Spelt .args as (operands · = .ok args) ∧ Spelt .switch cs (switchBlock · = .ok block)
  | .chained => ∃ gs, e = ofSegments gs ∧ Spelt .expr vs (segments .plain · = .ok gs)
  | .items => ∃ es, e = ofItems es ∧ AreItems es vs

theorem ofItems_singleton (he : e.isLet = false) : ofItems [e] = e := by
  cases e <;> first | rfl | simp [isLet] at he

/-- An expression is an item on its own. -/
theorem Fits.item (h : Fits e vs .chained) : Spelt .cexpr vs (item · = .ok e) := by
  obtain ⟨gs, rfl, h⟩ := h
  exact spelt_item h

theorem Fits.next (h : Fits e vs l) (he : e.isLet = false) : Fits e vs l.next := by
  cases l with
  | closed => exact fun us e' hsub => spelt_ref h hsub
  | ref =>
    have hsingle := h [] e (spelt_noMember e)
    rwa [List.append_nil] at hsingle
  | single => exact ⟨vs, [], e, [], by simp, rfl, h, spelt_noArgs⟩
  | applied =>
    obtain ⟨us, as, func, args, rfl, rfl, hfunc, hargs⟩ := h
    exact ⟨us, as, [], func, args, none, by simp, rfl, hfunc, hargs, spelt_noSwitch⟩
  | switched =>
    obtain ⟨us, as, cs, func, args, block, rfl, rfl, hfunc, hargs, hcases⟩ := h
    refine ⟨[⟨switched (applied func args) block, .plain, none⟩], rfl, ?_⟩
    simpa using spelt_expr hfunc hargs hcases spelt_noSlot spelt_chainEnd .plain
  | chained => exact ⟨[e], (ofItems_singleton he).symm, .last h.item⟩
  | items => exact h

theorem Fits.mono (h : Fits e vs l) (he : e.isLet = false) (hle : l.rank ≤ m.rank) :
    Fits e vs m := by
  have hiterate (k : Nat) : Fits e vs (Place.next^[k] l) := by
    induction k with
    | zero => exact h
    | succ k ih =>
      rw [Function.iterate_succ_apply']
      exact ih.next he
  simpa [Place.iterate_next hle] using hiterate (m.rank - l.rank)

theorem Fits.paren (h : Fits e vs .items) :
    Fits e (.keyword .openParen :: (vs ++ [.keyword .closeParen])) .closed := by
  obtain ⟨es, rfl, hes⟩ := h
  obtain ⟨first, rest, us, ts, rfl, rfl, hfirst, htail⟩ := hes.split
  simpa [Fits] using spelt_paren hfirst htail

/-- With parentheses if need be, what fits into some place fits into any. -/
theorem Fits.wrap {needed : Bool} (h : Fits e vs l) (he : e.isLet = false)
    (hneeded : needed = false → l.rank ≤ m.rank) : Fits e (wrap needed vs) m := by
  cases needed with
  | false => exact h.mono he (hneeded rfl)
  | true =>
    have hitems : Fits e vs .items := h.mono he (by cases l <;> decide)
    exact hitems.paren.mono he (by cases m <;> decide)

theorem rank_place_le {limit : Place} (h : style.wraps limit e = false) :
    e.place.rank ≤ limit.rank := by
  simp only [Style.wraps, Bool.or_eq_false_iff, decide_eq_false_iff_not] at h
  omega

theorem IsNormal.isLet (h : e.IsNormal) : e.isLet = false := by
  cases h <;> rfl

theorem IsNormal.isMemo (h : e.IsNormal) : e.isMemo = false := by
  cases h <;> rfl

/-- The tokens in a place are those of an expression that is written without parentheses. -/
theorem fits_tokensAt (he : e.IsNormal) (h : Fits e (tokens style e) e.place) (limit : Place) :
    Fits e (tokensAt style limit e) limit :=
  h.wrap he.isLet rank_place_le

/-- The body of a memo is written in its place. -/
theorem fits_tokensAt_memo {params : List String} (he : e.IsNormal)
    (h : Fits e (tokens style e) e.place) (limit : Place) :
    Fits e (tokensAt style limit (memo () params e)) limit :=
  h.wrap he.isLet rank_place_le

theorem spelt_args_tokens (h : ∀ e ∈ es, Fits e (tokensAt style .single e) .single) :
    Spelt .args (tokensEach style .single es).flatten (operands · = .ok es) := by
  rw [tokensEach_eq_map]
  induction es with
  | nil => exact spelt_noArgs
  | cons e es ih =>
    obtain ⟨he, hes⟩ := List.forall_mem_cons.mp h
    exact spelt_args he (ih hes)

theorem spelt_array_tokens (h : ∀ e ∈ es, Fits e (tokensAt style .chained e) .chained) :
    Spelt .arrayExprs (separated (tokensEach style .chained es)) (arrayItems · = .ok es) := by
  rw [tokensEach_eq_map]
  induction es with
  | nil => exact spelt_noItems
  | cons e es ih =>
    obtain ⟨⟨gs, hgs, he⟩, hes⟩ := List.forall_mem_cons.mp h
    cases es with
    | nil => simpa [separated, ← hgs] using spelt_lastItem he
    | cons e' es => simpa [separated, ← hgs] using spelt_items he (ih hes)

theorem areItems_tokens (hne : es ≠ [])
    (h : ∀ e ∈ es, Spelt .cexpr (tokensAt style .chained e) (item · = .ok e)) :
    AreItems es (separated (tokensEach style .chained es)) := by
  rw [tokensEach_eq_map]
  induction es with
  | nil => exact (hne rfl).elim
  | cons e es ih =>
    obtain ⟨he, hes⟩ := List.forall_mem_cons.mp h
    cases es with
    | nil => simpa [separated] using AreItems.last he
    | cons e' es => simpa [separated] using AreItems.cons he (ih (by simp) hes)

theorem spelt_cases_tokens {cases : List (Source × Source)}
    (hl : ∀ c ∈ cases, Fits c.1 (tokensAt style .chained c.1) .chained)
    (hr : ∀ c ∈ cases, Fits c.2 (tokensAt style .chained c.2) .chained) :
    Spelt .switches (tokensCases style cases) (switchCases · = .ok cases) := by
  induction cases with
  | nil => exact spelt_noCases
  | cons c rest ih =>
    obtain ⟨lhs, rhs⟩ := c
    obtain ⟨⟨ls, hls, hlhs⟩, hl⟩ := List.forall_mem_cons.mp hl
    obtain ⟨⟨rs, hrs, hrhs⟩, hr⟩ := List.forall_mem_cons.mp hr
    dsimp only at hls hrs hlhs hrhs
    have h := spelt_cases hlhs hrhs (ih hl hr)
    rw [← hls, ← hrs] at h
    exact h

theorem spelt_pattern_tokens {p : Pattern} (h : p.IsNormal) :
    Spelt .pattern p.tokens (pattern · = .ok p) := by
  cases p with
  | name x => exact spelt_pattern_name x
  | array names =>
    cases names with
    | nil => exact (h rfl).elim
    | cons x names => exact spelt_pattern_array x names

theorem spelt_slot_tokens {s : Option Pattern} (h : ∀ p, s = some p → p.IsNormal) :
    Spelt .slot (Lexical.slot s) (Tree.slot · = .ok s) := by
  cases s with
  | none => exact spelt_noSlot
  | some p => exact spelt_slot (spelt_pattern_tokens (h p rfl))

theorem spelt_segment {s : Option Pattern} {rest : List (Segment Source)}
    (he : Fits e us .switched) (hslot : ∀ p, s = some p → p.IsNormal)
    (hrest : Spelt .chain vs (moreSegments · = .ok rest)) (link : Link) :
    Spelt .expr (us ++ (Lexical.slot s ++ vs)) (segments link · = .ok (⟨e, link, s⟩ :: rest)) := by
  obtain ⟨us, as, cs, func, args, block, rfl, rfl, hfunc, hargs, hcases⟩ := he
  simpa using spelt_expr hfunc hargs hcases (spelt_slot_tokens hslot) hrest link

theorem spelt_chain_tokens {gs : List (Segment Source)}
    (he : ∀ g ∈ gs, Fits g.expr (tokensAt style .switched g.expr) .switched)
    (hslot : ∀ g ∈ gs, ∀ p, g.slot = some p → p.IsNormal) :
    Spelt .chain (tokensSegments style gs) (moreSegments · = .ok gs) := by
  induction gs with
  | nil => exact spelt_chainEnd
  | cons g rest ih =>
    obtain ⟨e, link, s⟩ := g
    obtain ⟨hfirst, he⟩ := List.forall_mem_cons.mp he
    obtain ⟨hs, hslot⟩ := List.forall_mem_cons.mp hslot
    exact spelt_link (Link.ofKeyword?_keyword link) (spelt_segment hfirst hs (ih he hslot) link)

theorem spelt_let (memoized : Bool) (h : Fits e vs .chained) (x : String) (params : List String) :
    Spelt .cexpr (.keyword .bind :: (heading memoized x params ++ vs))
      (item · = .ok (.bind (.name x) (.definition memoized x params e))) := by
  obtain ⟨gs, rfl, h⟩ := h
  cases memoized with
  | false => simpa [heading] using spelt_declaration spelt_noMods h x params
  | true => simpa [heading] using spelt_declaration spelt_memo h x params

theorem spelt_function (memoized : Bool) (h : Fits e vs .items) (x : String)
    (params : List String) :
    Spelt .single
      (.keyword .openLambda :: (heading memoized x params ++ (vs ++ [.keyword .closeParen])))
      (operand · = .ok (.function memoized x params e)) := by
  obtain ⟨es, rfl, hes⟩ := h
  obtain ⟨first, rest, us, ts, rfl, rfl, hfirst, htail⟩ := hes.split
  cases memoized with
  | false => simpa [heading] using spelt_lambda spelt_noMods hfirst htail x params
  | true => simpa [heading] using spelt_lambda spelt_memo hfirst htail x params

theorem Fits.apply (h : Fits e us .single) (hes : Spelt .args vs (operands · = .ok es))
    (hne : es ≠ []) : Fits (.apply e es) (us ++ vs) .applied := by
  refine ⟨us, vs, e, es, rfl, ?_, h, hes⟩
  rw [applied, if_neg (by simpa using hne)]

theorem Fits.switch {cases : List (Source × Source)} (h : Fits e us .applied)
    (hcases : Spelt .switches vs (switchCases · = .ok cases)) :
    Fits (.switch e cases) (us ++ .keyword .openBrace :: (vs ++ [.keyword .closeBrace]))
      .switched := by
  obtain ⟨us, as, func, args, rfl, rfl, hfunc, hargs⟩ := h
  exact ⟨us, as, _, func, args, some cases, by simp, rfl, hfunc, hargs, spelt_switch hcases⟩

theorem Fits.member (h : Fits e vs .ref) (x : String) :
    Fits (.member e x) (vs ++ [.keyword .dot, .identifier x]) .ref := by
  intro us e' hsub
  simpa using h _ e' (spelt_member hsub)

theorem Fits.within (h : Fits e us .ref) (hbase : Fits base vs .closed) :
    Fits (.within e base) (us ++ .keyword .dot :: vs) .ref := by
  intro ts e' hsub
  simpa using h _ e' (spelt_within hbase hsub)

theorem AreItems.compound (h : AreItems es vs)
    (hmore : 2 ≤ es.length ∨ ∃ pattern value, es = [.bind pattern value]) :
    Fits (.compound es) vs .items := by
  refine ⟨es, ?_, h⟩
  rcases hmore with hmore | ⟨pattern, value, rfl⟩
  · match es, hmore with
    | _ :: _ :: _, _ => simp [ofItems]
  · rfl

theorem AreItems.collector (h : AreItems es vs) :
    Fits (.collector es) (.keyword .openCollect :: (vs ++ [.keyword .closeParen])) .closed := by
  obtain ⟨first, rest, us, ts, rfl, rfl, hfirst, htail⟩ := h.split
  simpa [Fits] using spelt_collector hfirst htail

theorem fits_chain_tokens {g : Segment Source} {rest : List (Segment Source)}
    (he : ∀ s ∈ g :: rest, Fits s.expr (tokensAt style .switched s.expr) .switched)
    (hslot : ∀ s ∈ g :: rest, ∀ p, s.slot = some p → p.IsNormal) (hlink : g.link = .plain)
    (hmore : rest ≠ [] ∨ g.slot ≠ none) :
    Fits (.chain (g :: rest)) (tokens style (.chain (g :: rest))) .chained := by
  obtain ⟨e, link, s⟩ := g
  obtain rfl : link = .plain := hlink
  obtain ⟨hfirst, he⟩ := List.forall_mem_cons.mp he
  obtain ⟨hs, hslot⟩ := List.forall_mem_cons.mp hslot
  refine ⟨_, (ofSegments_cons hmore).symm, ?_⟩
  exact spelt_segment hfirst hs (spelt_chain_tokens he hslot) .plain

/-- A `let` needs no parentheses among the items, and more of them would change its meaning. -/
theorem tokensAt_bind (pattern : Pattern) (value : Source) :
    tokensAt style .chained (.bind pattern value) = tokens style (.bind pattern value) := by
  simp [tokensAt, Style.wraps, place, isLet, wrap]

theorem spelt_let_array {names : List String} (hne : names ≠ []) (h : Fits e vs .chained) :
    Spelt .cexpr (.keyword .bind :: ((Pattern.array names).tokens ++ .keyword .arrow :: vs))
      (item · = .ok (.bind (.array names) e)) := by
  obtain ⟨gs, rfl, h⟩ := h
  exact spelt_match (spelt_pattern_tokens (p := .array names) hne) h

/-- An expression is read back from its tokens, on its own and as what a name is bound to. -/
structure Written (style : Style) (e : Source) : Prop where
  fits : Fits e (tokens style e) e.place
  binds : ∀ x, Spelt .cexpr (tokens style (.bind (.name x) e)) (item · = .ok (.bind (.name x) e))

theorem written_of_fits (he : e.IsNormal) (hlambda : ∀ y params body, e ≠ .lambda y params body)
    (h : Fits e (tokens style e) e.place) : Written style e := by
  refine ⟨h, ?_⟩
  intro x
  have hlet := spelt_let false (fits_tokensAt he h .chained) x []
  cases he with
  | lambda y params _ => exact (hlambda y params _ rfl).elim
  | memoLambda y params _ => exact (hlambda y params _ rfl).elim
  | _ => exact hlet

/-- A `let` of a function under its own name may list the parameters itself. -/
theorem written_function {y : String} {params : List String} {body : Source} (memoized : Bool)
    (hbody : body.isMemo = memoized)
    (hfunction : .lambda y params body = function memoized y params e)
    (h : ∀ limit, Fits e (tokensAt style limit body) limit) :
    Written style (.lambda y params body) := by
  have hfits : Fits (.lambda y params body) (tokens style (.lambda y params body)) .single := by
    rw [tokens, hbody, hfunction]
    exact spelt_function memoized (h .items) y params
  refine ⟨hfits, ?_⟩
  intro x
  rw [tokens, hbody]
  split
  next hdeclares =>
    simp only [Bool.and_eq_true, decide_eq_true_eq, Bool.not_eq_true'] at hdeclares
    obtain ⟨⟨-, rfl⟩, hparams⟩ := hdeclares
    have hlet := spelt_let memoized (h .chained) x params
    rwa [definition, if_neg (by simp [hparams]), ← hfunction] at hlet
  next => exact spelt_let false (hfits.wrap rfl rank_place_le) x []

mutual
theorem written (style : Style) {e : Source} (h : e.IsNormal) : Written style e :=
  -- The parts are written in places of their own, with parentheses if need be.
  have hat {d : Source} (hd : d.IsNormal) (hwritten : Written style d) (limit : Place) :
      Fits d (tokensAt style limit d) limit := fits_tokensAt hd hwritten.fits limit
  match e, h with
  | _, .number x => written_of_fits (.number x) nofun (spelt_number x)
  | _, .string t => written_of_fits (.string t) nofun (spelt_string t)
  | _, .var x => written_of_fits (.var x) nofun fun _ _ hsub => spelt_var hsub
  | _, .array hitems =>
    written_of_fits (.array hitems) nofun (spelt_array (spelt_array_tokens fun d hd =>
      hat (hitems d hd) (written style (hitems d hd)) .chained))
  | _, .lambda name params hbody =>
    written_function false hbody.isMemo rfl (hat hbody (written style hbody))
  | _, .memoLambda name params hbody =>
    written_function true rfl rfl (fits_tokensAt_memo hbody (written style hbody).fits)
  | _, .apply hf ha hne =>
    written_of_fits (.apply hf ha hne) nofun
      ((hat hf (written style hf) .single).apply (spelt_args_tokens fun d hd =>
        hat (ha d hd) (written style (ha d hd)) .single) hne)
  | _, .switch hs hl hr =>
    written_of_fits (.switch hs hl hr) nofun
      ((hat hs (written style hs) .applied).switch (spelt_cases_tokens
        (fun c hc => hat (hl c hc) (written style (hl c hc)) .chained)
        (fun c hc => hat (hr c hc) (written style (hr c hc)) .chained)))
  | _, .chain he hslot hlink hmore =>
    written_of_fits (.chain he hslot hlink hmore) nofun
      (fits_chain_tokens (fun g hg => hat (he g hg) (written style (he g hg)) .switched) hslot
        hlink hmore)
  | _, .compound hitems hmore =>
    written_of_fits (.compound hitems hmore) nofun
      ((areItems_tokens (by rintro rfl; simp at hmore)
        fun d hd => spelt_tokens_item style (hitems d hd)).compound hmore)
  | _, .collector hitems hne =>
    written_of_fits (.collector hitems hne) nofun
      (areItems_tokens hne fun d hd => spelt_tokens_item style (hitems d hd)).collector
  | _, .member hb name =>
    written_of_fits (.member hb name) nofun ((hat hb (written style hb) .ref).member name)
  | _, .within hb hbody =>
    written_of_fits (.within hb hbody) nofun
      ((hat hb (written style hb) .ref).within (hat hbody (written style hbody) .closed))
theorem spelt_tokens_item (style : Style) {e : Source} (h : e.IsNormalItem) :
    Spelt .cexpr (tokensAt style .chained e) (item · = .ok e) :=
  match e, h with
  | _, .expr he => (fits_tokensAt he (written style he).fits .chained).item
  | _, @IsNormalItem.bind (.name x) _ _ hv => by
    rw [tokensAt_bind]
    exact (written style hv).binds x
  | _, @IsNormalItem.bind (.array names) _ hp hv => by
    rw [tokensAt_bind, tokens]
    exact spelt_let_array hp (fits_tokensAt hv (written style hv).fits .chained)
  | _, .memo name hbody => by
    rw [tokensAt_bind]
    exact spelt_let true (fits_tokensAt_memo hbody (written style hbody).fits .chained) name []
end

/-- The memos of source code get caches in which nothing is remembered yet. -/
theorem stored?_allot_eq_none {σ : Type} {w : World σ} {mark : Nat} {params : List String}
    {body : Code} (hfree : ∀ mark, w.next ≤ mark → ∀ keys, w.stored? mark keys = none)
    (h : (e.allot w.next).1.memos mark params body) (keys : List Memo.Key) :
    w.stored? mark keys = none :=
  hfree mark ((numbered_allot e w.next).range h).1 keys

/--
A source with the tokens of an expression in normal form is parsed and read as that expression,
however it is written, and its memos start with empty caches.
-/
theorem ofFragment_tokens (style : Style) (he : e.IsNormal) {source : String}
    (hsource : (TokenStream.ofSource source).fault = none)
    (htokens : (TokenStream.ofSource source).toList.map Token.value = tokensAt style .items e) :
    (∃ t, parseFragment source = .ok t ∧ ofFragment t = .ok e) ∧
    ∀ {σ : Type} (w : World σ),
      (∀ mark, w.next ≤ mark → ∀ keys, w.stored? mark keys = none) →
      ∀ mark params body, (e.allot w.next).1.memos mark params body →
        ∀ keys, w.stored? mark keys = none := by
  constructor
  · obtain ⟨es, hes, hitems⟩ := fits_tokensAt he (written style he).fits .items
    obtain ⟨first, rest, us, ts, rfl, -⟩ := hitems.split
    obtain ⟨cs, hderives, hleaves, hread⟩ := spelt_fragment hitems.fragment _ htokens
    refine ⟨_, ?_, hes ▸ hread⟩
    exact parse_of_isDerivation (by decide) hsource hderives.root hderives.derivation
      hderives.names hleaves
  · intro σ w hfree mark params body h
    exact stored?_allot_eq_none hfree h

theorem ofFragment_tokens_chain :
    ∃ t, parseFragment "let memo f x => x; m.g (f 'a') : [y] -- m.(| y)" = .ok t ∧
      ofFragment t = .ok (.compound
        [.bind (.name "f") (.lambda "f" ["x"] (.memo () ["x"] (.var "x"))),
          .chain
            [⟨.apply (.member (.var "m") "g") [.apply (.var "f") [.string "a"]], .plain,
                some (.array ["y"])⟩,
              ⟨.within (.var "m") (.collector [.var "y"]), .ignored, none⟩]]) := by
  have hlet : IsNormalItem (.bind (.name "f") (.lambda "f" ["x"] (.memo () ["x"] (.var "x")))) :=
    .bind trivial (.memoLambda "f" ["x"] (.var "x"))
  have hinner : IsNormal (.apply (.var "f") [.string "a"]) :=
    .apply (.var "f") (by simp [IsNormal.string]) (by simp)
  have hcall : IsNormal (.apply (.member (.var "m") "g") [.apply (.var "f") [.string "a"]]) :=
    .apply (.member (.var "m") "g") (by simp [hinner]) (by simp)
  have hwithin : IsNormal (.within (.var "m") (.collector [.var "y"])) :=
    .within (.var "m") (.collector (by simp [IsNormalItem.expr, IsNormal.var]) (by simp))
  have hchain : IsNormal (.chain
      [⟨.apply (.member (.var "m") "g") [.apply (.var "f") [.string "a"]], .plain,
          some (.array ["y"])⟩,
        ⟨.within (.var "m") (.collector [.var "y"]), .ignored, none⟩]) :=
    .chain (by simp [hcall, hwithin]) (by simp [Pattern.IsNormal]) rfl (by simp)
  have hitems := List.forall_mem_cons.mpr
    ⟨hlet, List.forall_mem_singleton.mpr (IsNormalItem.expr hchain)⟩
  exact (ofFragment_tokens ⟨fun _ _ => false, fun _ => true⟩ (.compound hitems (by simp))
    (by decide +kernel) rfl).1

end Expr

end ChainScript
