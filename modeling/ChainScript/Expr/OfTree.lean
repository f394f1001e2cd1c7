import ChainScript.Expr
import ChainScript.Tree

/-!
From parse trees to expressions. Chains become flat, member accesses nest to the left, and a
compound of one expression is that expression. A tree that no parse produces is reported with the
nonterminal at which it stops making sense.
-/
namespace ChainScript

open Grammar

/-- A result, or the nonterminal at which the tree is malformed. -/
abbrev Reading (α : Type) := Except Nonterminal α

namespace Tree

/-- The names of a parameter list. -/
def paramNames : Tree → Reading (List String)
  | node .argDecls [leaf ⟨_, .identifier name⟩, rest] => return name :: (← paramNames rest)
  | node .argDecls [epsilon] => return []
  | _ => throw .argDecls

/-- Whether `memo` is among the modifiers. -/
def hasMemo : Tree → Reading Bool
  | node .funcMods [node .funcMod [leaf ⟨_, .keyword k⟩], rest] =>
    return (← hasMemo rest) || k = .memo
  | node .funcMods [epsilon] => return false
  | _ => throw .funcMods

/-- A name, or names in brackets. -/
def pattern : Tree → Reading Pattern
  | node .pattern [leaf ⟨_, .identifier name⟩] => return .name name
  | node .pattern [_, leaf ⟨_, .identifier first⟩, rest, _] =>
    return .array (first :: (← paramNames rest))
  | _ => throw .pattern

/-- The pattern after a colon, if there is one. -/
def slot : Tree → Reading (Option Pattern)
  | node .slot [_, p] => return some (← pattern p)
  | node .slot [epsilon] => return none
  | _ => throw .slot

end Tree

namespace Link

def ofKeyword? : Keyword → Option Link
  | .chain => some plain
  | .ignoredChain => some ignored
  | .errorChain => some recover
  | _ => none

end Link

namespace Expr

/-- A single segment without a slot is its expression. -/
def ofSegments : List (Segment Source) → Source
  | [⟨e, _, none⟩] => e
  | segments => chain segments

/-- A single item is the item itself, unless it is a `let`, whose names stay local. -/
def ofItems : List Source → Source
  | [bind pattern value] => compound [bind pattern value]
  | [e] => e
  | items => compound items

/-- A function, with its results remembered by argument values if `memoized`. -/
def function (memoized : Bool) (name : String) (params : List String) (body : Source) : Source :=
  lambda name params (if memoized then memo () params body else body)

/--
What a `let` of a name binds: a function if there are parameters, and otherwise the value of the
body, which still sees earlier bindings of the name.
-/
def definition (memoized : Bool) (name : String) (params : List String) (body : Source) : Source :=
  if params.isEmpty then if memoized then memo () [] body else body
  else function memoized name params body

/-- An operand applied to its arguments, if it has any. -/
def applied (func : Source) (args : List Source) : Source :=
  if args.isEmpty then func else apply func args

/-- The expression as the subject of a switch, if there is one. -/
def switched (subject : Source) : Option (List (Source × Source)) → Source
  | none => subject
  | some cases => switch subject cases

end Expr

namespace Tree

mutual
/-- An item of a compound: a `let` or an expression. -/
def item : Tree → Reading Source
  | node .cexpr
      [node .letExpr [_, node .assign [mods, leaf ⟨_, .identifier name⟩, params, _, body]]] =>
    return .bind (.name name) (.definition (← hasMemo mods) name (← paramNames params)
      (.ofSegments (← segments .plain body)))
  | node .cexpr [node .letExpr [_, node .assign [p, _, body]]] =>
    return .bind (← pattern p) (.ofSegments (← segments .plain body))
  | node .cexpr [e] => return .ofSegments (← segments .plain e)
  | _ => throw .cexpr
/-- The segments of an expression, the first of them joined by `link`. -/
def segments (link : Link) : Tree → Reading (List (Segment Source))
  | node .expr [single, args, cases, name, chain] => do
    let func ← operand single
    let expr := Expr.switched (.applied func (← operands args)) (← switchBlock cases)
    return ⟨expr, link, ← slot name⟩ :: (← moreSegments chain)
  | _ => throw .expr
def moreSegments : Tree → Reading (List (Segment Source))
  | node .chain [leaf ⟨_, .keyword k⟩, next] =>
    match Link.ofKeyword? k with
    | some link => segments link next
    | none => throw .chain
  | node .chain [epsilon] => return []
  | _ => throw .chain
def operands : Tree → Reading (List Source)
  | node .args [single, rest] => return (← operand single) :: (← operands rest)
  | node .args [epsilon] => return []
  | _ => throw .args
def switchBlock : Tree → Reading (Option (List (Source × Source)))
  | node .switch [_, cases, _] => return some (← switchCases cases)
  | node .switch [epsilon] => return none
  | _ => throw .switch
def switchCases : Tree → Reading (List (Source × Source))
  | node .switches [lhs, _, rhs, _, rest] =>
    return (.ofSegments (← segments .plain lhs), .ofSegments (← segments .plain rhs)) ::
      (← switchCases rest)
  | node .switches [epsilon] => return []
  | _ => throw .switches
/-- A literal, an array, a lambda, or a name or compound with its members. -/
def operand : Tree → Reading Source
  | node .single [leaf ⟨_, .number x⟩] => return .number x
  | node .single [leaf ⟨_, .string s⟩] => return .string s
  | node .single [node .ref [leaf ⟨_, .identifier name⟩, sub]] => members (.var name) sub
  | node .single [node .ref [head, sub]] => do members (← compound head) sub
  | node .single [node .array [_, items, _]] => return .array (← arrayItems items)
  | node .single
      [node .lambda [_, mods, leaf ⟨_, .identifier name⟩, params, _, first, tail, _]] =>
    return .function (← hasMemo mods) name (← paramNames params)
      (.ofItems ((← item first) :: (← moreItems tail)))
  | _ => throw .single
/-- Applies the member accesses that follow `base`, innermost first. -/
def members (base : Source) : Tree → Reading Source
  | node .sub [_, node .member [leaf ⟨_, .identifier name⟩], rest] =>
    members (.member base name) rest
  | node .sub [_, node .member [inner], rest] => do members (.within base (← compound inner)) rest
  | node .sub [epsilon] => return base
  | _ => throw .sub
def arrayItems : Tree → Reading (List Source)
  | node .arrayExprs [e, node .arrayTail [_, more]] =>
    return .ofSegments (← segments .plain e) :: (← arrayItems more)
  | node .arrayExprs [e, node .arrayTail [epsilon]] => return [.ofSegments (← segments .plain e)]
  | node .arrayExprs [epsilon] => return []
  | _ => throw .arrayExprs
def compound : Tree → Reading Source
  | node .compound [leaf ⟨_, .keyword k⟩, first, tail, _] => do
    let items := (← item first) :: (← moreItems tail)
    return if k = .openCollect then .collector items else .ofItems items
  | _ => throw .compound
def moreItems : Tree → Reading (List Source)
  | node .compoundTail [_, node .compoundMore [e, tail]] =>
    return (← item e) :: (← moreItems tail)
  | node .compoundTail [_, node .compoundMore [epsilon]] => return []
  | node .compoundTail [epsilon] => return []
  | _ => throw .compoundTail
end

/-- The items of a fragment. -/
def fragmentItems : Tree → Reading (List Source)
  | node .fragExprs [e, node .fragTail [_, more]] => return (← item e) :: (← fragmentItems more)
  | node .fragExprs [e, node .fragTail [epsilon]] => return [← item e]
  | node .fragExprs [epsilon] => return []
  | _ => throw .fragExprs

end Tree

namespace Expr

/-- The expression of a fragment. A fragment without items is the empty array. -/
def ofFragment : Tree → Reading Source
  | .node .fragment [items] => return match ← items.fragmentItems with
    | [] => empty
    | items => ofItems items
  | _ => throw .fragment

end Expr

end ChainScript
