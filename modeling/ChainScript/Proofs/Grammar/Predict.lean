import ChainScript.Grammar.Table
import ChainScript.Proofs.Grammar.Derivation

/-!
What one token of lookahead tells. The table is checked once against the sets of first and
following lookaheads; facts about trees then follow by induction.
-/
namespace ChainScript.Grammar

/-- The nonterminals with an empty word. -/
def nullable : Nonterminal → Bool
  | .script | .decls | .funcMods | .argDecls | .fragment | .fragExprs | .fragTail | .args | .switch
  | .switches | .slot | .chain | .sub | .arrayExprs | .arrayTail | .compoundTail
  | .compoundMore => true
  | _ => false

/-- The lookaheads with which the words of a nonterminal start. -/
def first : Nonterminal → List Lookahead
  | .script | .decls | .decl => [.string, .word .memo, .id]
  | .importDecl => [.string]
  | .funcDecl => [.word .memo, .id]
  | .funcMods | .funcMod => [.word .memo]
  | .argDecls => [.id]
  | .fragment | .fragExprs | .cexpr | .compoundMore => .word .bind :: operand
  | .fragTail | .arrayTail | .compoundTail => [.word .semicolon]
  | .letExpr => [.word .bind]
  | .assign => [.word .memo, .id, .word .openBracket]
  | .pattern => [.id, .word .openBracket]
  | .expr | .args | .switches | .single | .arrayExprs => operand
  | .switch => [.word .openBrace]
  | .slot => [.word .colon]
  | .chain => chainLink
  | .ref | .member => [.id, .word .openParen, .word .openCollect]
  | .sub => [.word .dot]
  | .array => [.word .openBracket]
  | .compound => [.word .openParen, .word .openCollect]
  | .lambda => [.word .openLambda]

/-- The lookaheads that stand after an operand. -/
def operandEnd : List Lookahead :=
  operand ++ .word .openBrace :: .word .colon :: chainLink ++ exprEnd

/-- The lookaheads that may follow a nonterminal. -/
def follow : Nonterminal → List Lookahead
  | .script | .decls | .fragment | .fragExprs | .fragTail => [.eof]
  | .decl => [.string, .word .memo, .id, .eof]
  | .importDecl | .funcDecl => [.word .semicolon]
  | .funcMods => [.id]
  | .funcMod => [.word .memo, .id]
  | .argDecls => [.word .arrow, .word .closeBracket]
  | .cexpr | .letExpr | .assign => [.word .semicolon, .word .closeParen, .eof]
  | .pattern | .slot => chainLink ++ exprEnd
  | .expr | .chain => exprEnd
  | .args => .word .openBrace :: .word .colon :: chainLink ++ exprEnd
  | .switch => .word .colon :: chainLink ++ exprEnd
  | .switches => [.word .closeBrace]
  | .single | .ref | .sub | .array | .lambda => operandEnd
  | .member | .compound => .word .dot :: operandEnd
  | .arrayExprs | .arrayTail => [.word .closeBracket]
  | .compoundTail | .compoundMore => [.word .closeParen]

/-- A nonterminal at the left end of a right side has a smaller rank than the one it expands. -/
def rank : Nonterminal → Nat
  | .script | .fragment => 10
  | .decls | .fragExprs | .compoundMore => 9
  | .cexpr => 8
  | .decl | .switches | .arrayExprs => 7
  | .funcDecl | .expr => 6
  | .args => 5
  | .single => 4
  | .ref | .member => 3
  | .assign => 2
  | .funcMods => 1
  | _ => 0

namespace Symbol

def nullable : Symbol → Bool
  | term _ => false
  | nonterm n => Grammar.nullable n
  | epsilon => true

def first : Symbol → List Lookahead
  | term a => [.term a]
  | nonterm n => Grammar.first n
  | epsilon => []

end Symbol

/-- The lookaheads with which the words of a right side start. -/
def firstAll : List Symbol → List Lookahead
  | [] => []
  | x :: xs => x.first ++ if x.nullable then firstAll xs else []

def nullableAll (xs : List Symbol) : Bool := xs.all Symbol.nullable

/-- Whether each nonterminal of a right side expects what comes after it there. -/
def followedBy (after : List Lookahead) : List Symbol → Bool
  | [] => true
  | .nonterm n :: xs =>
    firstAll xs ⊆ follow n && (!nullableAll xs || after ⊆ follow n) && followedBy after xs
  | _ :: xs => followedBy after xs

/-- Whether the nonterminals that can stand at the left end of a right side have small ranks. -/
def rankedBelow (bound : Nat) : List Symbol → Bool
  | [] => true
  | .nonterm n :: xs => rank n < bound && (!nullable n || rankedBelow bound xs)
  | .term _ :: _ => true
  | .epsilon :: xs => rankedBelow bound xs

theorem firstAll_subset_first (n : Nonterminal) : ∀ xs ∈ productions n, firstAll xs ⊆ first n := by
  cases n <;> decide

theorem nullable_of_nullableAll (n : Nonterminal) :
    ∀ xs ∈ productions n, nullableAll xs = true → nullable n = true := by
  cases n <;> decide

theorem productions_followedBy (n : Nonterminal) :
    ∀ xs ∈ productions n, followedBy (follow n) xs = true := by
  cases n <;> decide

theorem productions_rankedBelow (n : Nonterminal) :
    ∀ xs ∈ productions n, rankedBelow (rank n) xs = true := by
  cases n <;> decide

theorem rank_lt (n : Nonterminal) : rank n < Nonterminal.all.length := by
  cases n <;> decide

theorem rules_symbols_mem (n : Nonterminal) : ∀ r ∈ rules n, r.symbols ∈ productions n := by
  cases n <;> decide

theorem expand?_mem_productions {n : Nonterminal} {next : Lookahead} {xs : List Symbol}
    (h : expand? n next = some xs) : xs ∈ productions n := by
  obtain ⟨r, hr, rfl⟩ := Option.map_eq_some_iff.mp h
  exact rules_symbols_mem n r (List.mem_of_find?_eq_some hr)

/-- The first token of a right side selects it, unless it is the name that a pattern consists of. -/
theorem expand?_of_mem_firstAll (n : Nonterminal) : ∀ xs ∈ productions n, ∀ a ∈ firstAll xs,
    expand? n a = some xs ∨ n = .assign ∧ xs = Tree.patternForm ∧ a = .id := by
  cases n <;> decide

/-- A right side with an empty word is selected by what may follow. -/
theorem expand?_of_mem_follow (n : Nonterminal) : ∀ xs ∈ productions n,
    nullableAll xs = true → ∀ a ∈ follow n, expand? n a = some xs := by
  cases n <;> decide

theorem expand?_assign_id : expand? .assign .id ≠ some Tree.patternForm := by
  decide

end ChainScript.Grammar

namespace ChainScript.Tree

open Grammar

variable {n : Nonterminal} {t : Tree} {ts : List Tree} {token : Token} {tokens : List Token}

theorem nullableAll_of_leavesAll
    (h : ∀ t ∈ ts, t.leaves = [] → t.symbol.nullable = true) (hnil : leavesAll ts = []) :
    nullableAll (ts.map symbol) = true := by
  induction ts with
  | nil => rfl
  | cons t ts ih =>
    obtain ⟨ht, hts⟩ := List.append_eq_nil_iff.mp hnil
    have hrest := ih (fun u hu => h u (by simp [hu])) hts
    simpa [nullableAll, h t (by simp) ht] using hrest

theorem IsDerivation.nullable (h : t.IsDerivation) (hnil : t.leaves = []) :
    t.symbol.nullable = true := by
  induction h with
  | leaf token => simp at hnil
  | epsilon => rfl
  | @node n children rule parts ih =>
    exact nullable_of_nullableAll n _ rule (nullableAll_of_leavesAll ih hnil)

theorem mem_firstAll_of_leavesAll (hts : ∀ t ∈ ts, t.IsDerivation)
    (h : ∀ t ∈ ts, ∀ token tokens, t.leaves = token :: tokens →
      Lookahead.term (.ofToken token) ∈ t.symbol.first)
    (hcons : leavesAll ts = token :: tokens) :
    Lookahead.term (.ofToken token) ∈ firstAll (ts.map symbol) := by
  induction ts with
  | nil => simp at hcons
  | cons t ts ih =>
    simp only [List.map_cons, firstAll, List.mem_append]
    cases hleaves : t.leaves with
    | nil =>
      -- The first child derives nothing, so the token belongs to a later one.
      right
      have hrest := ih (fun u hu => hts u (by simp [hu])) (fun u hu => h u (by simp [hu]))
        (by simpa [hleaves] using hcons)
      simpa [(hts t (by simp)).nullable hleaves] using hrest
    | cons token' tokens' =>
      left
      obtain ⟨rfl, _⟩ : token' = token ∧ _ := by simpa [hleaves] using hcons
      exact h t (by simp) _ _ hleaves

theorem IsDerivation.mem_first (h : t.IsDerivation) (hcons : t.leaves = token :: tokens) :
    Lookahead.term (.ofToken token) ∈ t.symbol.first := by
  induction h generalizing token tokens with
  | leaf token' =>
    obtain ⟨rfl, _⟩ : token' = token ∧ _ := by simpa using hcons
    simp [Symbol.first]
  | epsilon => simp at hcons
  | @node n children rule parts ih =>
    exact firstAll_subset_first n _ rule
      (mem_firstAll_of_leavesAll parts (fun t ht _ _ hc => ih t ht hc) hcons)

end ChainScript.Tree
