import ChainScript.Token

/-! The symbols of the grammar. -/
namespace ChainScript.Grammar

/-- A terminal accepts any token of its class, or one keyword. -/
inductive Terminal where
  | id
  | number
  | string
  | keyword (word : Keyword)
  deriving Repr, DecidableEq

namespace Terminal

/-- The terminal that a token matches. -/
def ofToken (t : Token) : Terminal :=
  match t.value with
  | .number _ => number
  | .string _ => string
  | .identifier _ => id
  | .keyword k => keyword k

/-- The class of the tokens that a terminal accepts. -/
def kind : Terminal → TokenKind
  | id => .identifier
  | number => .number
  | string => .string
  | keyword _ => .keyword

def accepts (a : Terminal) (t : Token) : Bool := ofToken t = a

def text : Terminal → String
  | id => "id"
  | number => "number"
  | string => "string"
  | keyword k => Text.quote k.text

end Terminal

/-- What the parser sees next: a terminal, or the end of the input. -/
inductive Lookahead where
  | term (a : Terminal)
  | eof
  deriving Repr, DecidableEq

namespace Lookahead

def id : Lookahead := term .id

def number : Lookahead := term .number

def string : Lookahead := term .string

def word (k : Keyword) : Lookahead := term (.keyword k)

end Lookahead

inductive Nonterminal where
  | script
  | decls
  | decl
  | importDecl
  | funcDecl
  | funcMods
  | funcMod
  | argDecls
  | fragment
  | fragExprs
  | fragTail
  | cexpr
  | letExpr
  | assign
  | pattern
  | expr
  | args
  | switch
  | switches
  | slot
  | chain
  | single
  | ref
  | sub
  | member
  | array
  | arrayExprs
  | arrayTail
  | compound
  | compoundTail
  | compoundMore
  | lambda
  deriving Repr, DecidableEq

namespace Nonterminal

def name : Nonterminal → String
  | script => "script"
  | decls => "decls"
  | decl => "decl"
  | importDecl => "import"
  | funcDecl => "funcdecl"
  | funcMods => "funcmods"
  | funcMod => "funcmod"
  | argDecls => "argdecls"
  | fragment => "fragment"
  | fragExprs => "fexprs"
  | fragTail => "ftail"
  | cexpr => "cexpr"
  | letExpr => "letexpr"
  | assign => "assign"
  | pattern => "pattern"
  | expr => "expr"
  | args => "args"
  | switch => "switch"
  | switches => "switches"
  | slot => "slot"
  | chain => "chain"
  | single => "single"
  | ref => "ref"
  | sub => "sub"
  | member => "member"
  | array => "array"
  | arrayExprs => "aexprs"
  | arrayTail => "atail"
  | compound => "compound"
  | compoundTail => "ctail"
  | compoundMore => "cmore"
  | lambda => "lambda"

/-- All nonterminals. -/
def all : List Nonterminal :=
  [script, decls, decl, importDecl, funcDecl, funcMods, funcMod, argDecls, fragment, fragExprs,
    fragTail, cexpr, letExpr, assign, pattern, expr, args, switch, switches, slot, chain, single,
    ref, sub, member, array, arrayExprs, arrayTail, compound, compoundTail, compoundMore, lambda]

def ofName? (name : String) : Option Nonterminal :=
  all.find? fun n => n.name = name

end Nonterminal

/-- A symbol on the right of a rule. The empty expansion is a symbol of its own. -/
inductive Symbol where
  | term (a : Terminal)
  | nonterm (n : Nonterminal)
  | epsilon
  deriving Repr, DecidableEq

namespace Symbol

def id : Symbol := term .id

def number : Symbol := term .number

def string : Symbol := term .string

def word (k : Keyword) : Symbol := term (.keyword k)

/-- The sign for the end of the input, which no rule contains. -/
def endText : String := "Ω"

def text : Symbol → String
  | term a => a.text
  | nonterm n => "<" ++ n.name ++ ">"
  | epsilon => "ε"

end Symbol

end ChainScript.Grammar
