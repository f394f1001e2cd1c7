import ChainScript.Script

/-!
How a node is read, given how its parts are read: one statement for each production that carries
something.
-/
namespace ChainScript

namespace Tree

open ChainScript.Expr

variable {a b c d s t : Tree} {p : Position} {x : String} {xs names params : List String}
  {e func base body : Source} {es args : List Source} {link : Link} {memoized : Bool}
  {gs rest lhs rhs : List (Segment Source)} {cs : List (Source × Source)}
  {block : Option (List (Source × Source))} {pat : Pattern} {bound : Option Pattern}

/-- A part that can be read hands its reading on. -/
@[simp] theorem ok_bind {α β : Type} (a : α) (f : α → Reading β) :
    ((Except.ok a : Reading α) >>= f) = f a := rfl

@[simp] theorem map_ok {α β : Type} (a : α) (f : α → β) :
    (f <$> (Except.ok a : Reading α)) = .ok (f a) := rfl

theorem bind_eq_ok {ε α β : Type} {x : Except ε α} {f : α → Except ε β} {b : β} :
    x >>= f = .ok b ↔ ∃ a, x = .ok a ∧ f a = .ok b := by
  cases x with
  | error e => exact ⟨nofun, fun ⟨_, h, _⟩ => nomatch h⟩
  | ok a =>
    constructor
    · intro h
      exact ⟨a, rfl, h⟩
    · rintro ⟨a', ha, h⟩
      cases ha
      exact h

theorem paramNames_cons (h : paramNames a = .ok names) :
    paramNames (node .argDecls [leaf ⟨p, .identifier x⟩, a]) = .ok (x :: names) := by
  simp [paramNames, h]

theorem hasMemo_cons (h : hasMemo a = .ok memoized) :
    hasMemo (node .funcMods [node .funcMod [leaf ⟨p, .keyword .memo⟩], a]) = .ok true := by
  simp [hasMemo, h]

theorem pattern_array (h : paramNames b = .ok names) :
    pattern (node .pattern [a, leaf ⟨p, .identifier x⟩, b, c]) = .ok (.array (x :: names)) := by
  simp [pattern, h]

theorem slot_pattern (h : pattern b = .ok pat) : slot (node .slot [a, b]) = .ok (some pat) := by
  simp [slot, h]

theorem item_declaration (hmods : hasMemo a = .ok memoized) (hparams : paramNames b = .ok params)
    (hbody : segments .plain d = .ok gs) :
    item (node .cexpr
        [node .letExpr [t, node .assign [a, leaf ⟨p, .identifier x⟩, b, c, d]]]) =
      .ok (.bind (.name x) (.definition memoized x params (.ofSegments gs))) := by
  simp [item, hmods, hparams, hbody]

theorem item_pattern {k : Keyword} (hpattern : pattern a = .ok pat)
    (hbody : segments .plain b = .ok gs) :
    item (node .cexpr [node .letExpr [t, node .assign [a, leaf ⟨p, .keyword k⟩, b]]]) =
      .ok (.bind pat (.ofSegments gs)) := by
  simp [item, hpattern, hbody]

theorem item_expr {ts : List Tree} (h : segments .plain (node .expr ts) = .ok gs) :
    item (node .cexpr [node .expr ts]) = .ok (.ofSegments gs) := by
  simp [item, h]

theorem segments_expr (hfunc : operand a = .ok func) (hargs : operands b = .ok args)
    (hcases : switchBlock c = .ok block) (hslot : slot d = .ok bound)
    (hrest : moreSegments t = .ok rest) :
    segments link (node .expr [a, b, c, d, t]) =
      .ok (⟨.switched (.applied func args) block, link, bound⟩ :: rest) := by
  simp [segments, hfunc, hargs, hcases, hslot, hrest]

theorem moreSegments_link {k : Keyword} (hk : Link.ofKeyword? k = some link)
    (h : segments link a = .ok gs) :
    moreSegments (node .chain [leaf ⟨p, .keyword k⟩, a]) = .ok gs := by
  simp [moreSegments, hk, h]

theorem operands_cons (h : operand a = .ok e) (hrest : operands b = .ok es) :
    operands (node .args [a, b]) = .ok (e :: es) := by
  simp [operands, h, hrest]

theorem switchBlock_cases (h : switchCases b = .ok cs) :
    switchBlock (node .switch [a, b, c]) = .ok (some cs) := by
  simp [switchBlock, h]

theorem switchCases_cons (hlhs : segments .plain a = .ok lhs) (hrhs : segments .plain c = .ok rhs)
    (hrest : switchCases t = .ok cs) :
    switchCases (node .switches [a, b, c, d, t]) =
      .ok ((.ofSegments lhs, .ofSegments rhs) :: cs) := by
  simp [switchCases, hlhs, hrhs, hrest]

theorem operand_array (h : arrayItems b = .ok es) :
    operand (node .single [node .array [a, b, c]]) = .ok (.array es) := by
  simp [operand, h]

theorem operand_lambda {fst tail : Tree} (hmods : hasMemo b = .ok memoized)
    (hparams : paramNames c = .ok params) (hfirst : item fst = .ok e)
    (htail : moreItems tail = .ok es) :
    operand (node .single
        [node .lambda [a, b, leaf ⟨p, .identifier x⟩, c, d, fst, tail, t]]) =
      .ok (.function memoized x params (.ofItems (e :: es))) := by
  simp [operand, hmods, hparams, hfirst, htail]

theorem operand_name (h : members (.var x) a = .ok e) :
    operand (node .single [node .ref [leaf ⟨p, .identifier x⟩, a]]) = .ok e := by
  simp [operand, h]

theorem operand_compound {ts : List Tree} (hbase : compound (node .compound ts) = .ok base)
    (h : members base a = .ok e) :
    operand (node .single [node .ref [node .compound ts, a]]) = .ok e := by
  simp [operand, hbase, h]

theorem members_name (h : members (.member base x) b = .ok e) :
    members base (node .sub [a, node .member [leaf ⟨p, .identifier x⟩], b]) = .ok e := by
  simp [members, h]

theorem members_compound {ts : List Tree} (hbody : compound (node .compound ts) = .ok body)
    (h : members (.within base body) b = .ok e) :
    members base (node .sub [a, node .member [node .compound ts], b]) = .ok e := by
  simp [members, hbody, h]

theorem arrayItems_more (hfirst : segments .plain a = .ok gs) (hmore : arrayItems c = .ok es) :
    arrayItems (node .arrayExprs [a, node .arrayTail [b, c]]) = .ok (.ofSegments gs :: es) := by
  simp [arrayItems, hfirst, hmore]

theorem arrayItems_last (h : segments .plain a = .ok gs) :
    arrayItems (node .arrayExprs [a, node .arrayTail [epsilon]]) = .ok [.ofSegments gs] := by
  simp [arrayItems, h]

theorem compound_paren (hfirst : item a = .ok e) (htail : moreItems b = .ok es) :
    compound (node .compound [leaf ⟨p, .keyword .openParen⟩, a, b, c]) =
      .ok (.ofItems (e :: es)) := by
  simp [compound, hfirst, htail]

theorem compound_collector (hfirst : item a = .ok e) (htail : moreItems b = .ok es) :
    compound (node .compound [leaf ⟨p, .keyword .openCollect⟩, a, b, c]) =
      .ok (.collector (e :: es)) := by
  simp [compound, hfirst, htail]

theorem moreItems_cons (hfirst : item b = .ok e) (htail : moreItems c = .ok es) :
    moreItems (node .compoundTail [a, node .compoundMore [b, c]]) = .ok (e :: es) := by
  simp [moreItems, hfirst, htail]

theorem fragmentItems_more (hfirst : item a = .ok e) (hmore : fragmentItems c = .ok es) :
    fragmentItems (node .fragExprs [a, node .fragTail [b, c]]) = .ok (e :: es) := by
  simp [fragmentItems, hfirst, hmore]

theorem fragmentItems_last (h : item a = .ok e) :
    fragmentItems (node .fragExprs [a, node .fragTail [epsilon]]) = .ok [e] := by
  simp [fragmentItems, h]

theorem declaration_function (hmods : hasMemo a = .ok memoized)
    (hparams : paramNames b = .ok params) (hbody : segments .plain d = .ok gs) :
    declaration (node .funcDecl [a, leaf ⟨p, .identifier x⟩, b, c, d]) =
      .ok (.defines ⟨x, params,
        if memoized then .memo () params (.ofSegments gs) else .ofSegments gs⟩) := by
  simp [declaration, hmods, hparams, hbody]

theorem declarations_cons {decl : Declaration} {ds : List Declaration}
    (h : declaration a = .ok decl) (hrest : declarations c = .ok ds) :
    declarations (node .decls [node .decl [a, b], c]) = .ok (decl :: ds) := by
  simp [declarations, h, hrest]

end Tree

theorem Expr.ofFragment_items {a : Tree} {e : Source} {es : List Source}
    (h : a.fragmentItems = .ok (e :: es)) :
    ofFragment (.node .fragment [a]) = .ok (ofItems (e :: es)) := by
  simp [ofFragment, h]

end ChainScript
