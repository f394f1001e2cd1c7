import ChainScript.Grammar.Symbol

/-!
The grammar as a table: one token of lookahead decides which rule expands a nonterminal. The right
sides listed for a nonterminal are its productions.
-/
namespace ChainScript.Grammar

/-- A right side, and the lookaheads that select it. -/
structure Rule where
  lookaheads : List Lookahead
  symbols : List Symbol

/-- The lookaheads that start an operand. -/
def operand : List Lookahead :=
  [.number, .string, .word .openBracket, .word .openLambda, .word .openParen, .word .openCollect,
    .id]

/-- The lookaheads that end an expression. -/
def exprEnd : List Lookahead :=
  [.word .semicolon, .word .arrow, .word .closeParen, .word .closeBracket, .eof]

/-- The lookaheads that carry a chain on. -/
def chainLink : List Lookahead :=
  [.word .chain, .word .ignoredChain, .word .errorChain]

/-- The rules of a nonterminal. -/
def rules : Nonterminal → List Rule
  | .script => [⟨[.string, .word .memo, .id, .eof], [.nonterm .decls]⟩]
  | .decls =>
    [⟨[.string, .word .memo, .id], [.nonterm .decl, .nonterm .decls]⟩,
      ⟨[.eof], [.epsilon]⟩]
  | .decl =>
    [⟨[.string], [.nonterm .importDecl, .word .semicolon]⟩,
      ⟨[.word .memo, .id], [.nonterm .funcDecl, .word .semicolon]⟩]
  | .importDecl => [⟨[.string], [.string, .word .arrow, .id]⟩]
  | .funcDecl =>
    [⟨[.word .memo, .id], [.nonterm .funcMods, .id, .nonterm .argDecls, .word .arrow,
        .nonterm .expr]⟩]
  | .funcMods =>
    [⟨[.word .memo], [.nonterm .funcMod, .nonterm .funcMods]⟩,
      ⟨[.id], [.epsilon]⟩]
  | .funcMod => [⟨[.word .memo], [.word .memo]⟩]
  | .argDecls =>
    [⟨[.id], [.id, .nonterm .argDecls]⟩,
      ⟨[.word .arrow, .word .closeBracket], [.epsilon]⟩]
  | .fragment => [⟨operand ++ [.word .bind, .eof], [.nonterm .fragExprs]⟩]
  | .fragExprs =>
    [⟨operand ++ [.word .bind], [.nonterm .cexpr, .nonterm .fragTail]⟩,
      ⟨[.eof], [.epsilon]⟩]
  | .fragTail =>
    [⟨[.word .semicolon], [.word .semicolon, .nonterm .fragExprs]⟩,
      ⟨[.eof], [.epsilon]⟩]
  | .cexpr =>
    [⟨[.word .bind], [.nonterm .letExpr]⟩,
      ⟨operand, [.nonterm .expr]⟩]
  | .letExpr => [⟨[.word .bind], [.word .bind, .nonterm .assign]⟩]
  | .assign =>
    [⟨[.word .memo, .id], [.nonterm .funcMods, .id, .nonterm .argDecls, .word .arrow,
        .nonterm .expr]⟩,
      ⟨[.word .openBracket], [.nonterm .pattern, .word .arrow, .nonterm .expr]⟩]
  | .pattern =>
    [⟨[.id], [.id]⟩,
      ⟨[.word .openBracket],
        [.word .openBracket, .id, .nonterm .argDecls, .word .closeBracket]⟩]
  | .expr =>
    [⟨operand, [.nonterm .single, .nonterm .args, .nonterm .switch, .nonterm .slot,
        .nonterm .chain]⟩]
  | .args =>
    [⟨operand, [.nonterm .single, .nonterm .args]⟩,
      ⟨.word .openBrace :: .word .colon :: chainLink ++ exprEnd, [.epsilon]⟩]
  | .switch =>
    [⟨[.word .openBrace], [.word .openBrace, .nonterm .switches, .word .closeBrace]⟩,
      ⟨.word .colon :: chainLink ++ exprEnd, [.epsilon]⟩]
  | .switches =>
    [⟨operand, [.nonterm .expr, .word .arrow, .nonterm .expr, .word .semicolon,
        .nonterm .switches]⟩,
      ⟨[.word .closeBrace], [.epsilon]⟩]
  | .slot =>
    [⟨[.word .colon], [.word .colon, .nonterm .pattern]⟩,
      ⟨chainLink ++ exprEnd, [.epsilon]⟩]
  | .chain =>
    [⟨[.word .chain], [.word .chain, .nonterm .expr]⟩,
      ⟨[.word .ignoredChain], [.word .ignoredChain, .nonterm .expr]⟩,
      ⟨[.word .errorChain], [.word .errorChain, .nonterm .expr]⟩,
      ⟨exprEnd, [.epsilon]⟩]
  | .single =>
    [⟨[.number], [.number]⟩,
      ⟨[.string], [.string]⟩,
      ⟨[.word .openBracket], [.nonterm .array]⟩,
      ⟨[.word .openLambda], [.nonterm .lambda]⟩,
      ⟨[.word .openParen, .word .openCollect, .id], [.nonterm .ref]⟩]
  | .ref =>
    [⟨[.id], [.id, .nonterm .sub]⟩,
      ⟨[.word .openParen, .word .openCollect], [.nonterm .compound, .nonterm .sub]⟩]
  | .sub =>
    [⟨[.word .dot], [.word .dot, .nonterm .member, .nonterm .sub]⟩,
      ⟨operand ++ .word .openBrace :: .word .colon :: chainLink ++ exprEnd, [.epsilon]⟩]
  | .member =>
    [⟨[.id], [.id]⟩,
      ⟨[.word .openParen, .word .openCollect], [.nonterm .compound]⟩]
  | .array =>
    [⟨[.word .openBracket], [.word .openBracket, .nonterm .arrayExprs, .word .closeBracket]⟩]
  | .arrayExprs =>
    [⟨operand, [.nonterm .expr, .nonterm .arrayTail]⟩,
      ⟨[.word .closeBracket], [.epsilon]⟩]
  | .arrayTail =>
    [⟨[.word .semicolon], [.word .semicolon, .nonterm .arrayExprs]⟩,
      ⟨[.word .closeBracket], [.epsilon]⟩]
  | .compound =>
    [⟨[.word .openParen], [.word .openParen, .nonterm .cexpr, .nonterm .compoundTail,
        .word .closeParen]⟩,
      ⟨[.word .openCollect], [.word .openCollect, .nonterm .cexpr, .nonterm .compoundTail,
          .word .closeParen]⟩]
  | .compoundTail =>
    [⟨[.word .semicolon], [.word .semicolon, .nonterm .compoundMore]⟩,
      ⟨[.word .closeParen], [.epsilon]⟩]
  | .compoundMore =>
    [⟨operand ++ [.word .bind], [.nonterm .cexpr, .nonterm .compoundTail]⟩,
      ⟨[.word .closeParen], [.epsilon]⟩]
  | .lambda =>
    [⟨[.word .openLambda], [.word .openLambda, .nonterm .funcMods, .id, .nonterm .argDecls,
        .word .arrow, .nonterm .cexpr, .nonterm .compoundTail, .word .closeParen]⟩]

/-- The right side that expands a nonterminal in front of a lookahead. -/
def expand? (n : Nonterminal) (next : Lookahead) : Option (List Symbol) :=
  ((rules n).find? fun r => r.lookaheads.contains next).map (·.symbols)

end ChainScript.Grammar
