import Mathlib.Computability.ContextFreeGrammar
import ChainScript.Tree

/-! The grammar as productions, and the derivation trees of the words it generates. -/
namespace ChainScript

/-- A sentential form. The empty expansion leaves no trace in it. -/
abbrev Form := List (Symbol Grammar.Terminal Grammar.Nonterminal)

namespace Grammar

/-- The right sides of each nonterminal, independent of any lookahead. -/
def productions : Nonterminal → List (List Symbol)
  | .script => [[.nonterm .decls]]
  | .decls => [[.nonterm .decl, .nonterm .decls], [.epsilon]]
  | .decl => [[.nonterm .importDecl, .word .semicolon], [.nonterm .funcDecl, .word .semicolon]]
  | .importDecl => [[.string, .word .arrow, .id]]
  | .funcDecl =>
    [[.nonterm .funcMods, .id, .nonterm .argDecls, .word .arrow, .nonterm .expr]]
  | .funcMods => [[.nonterm .funcMod, .nonterm .funcMods], [.epsilon]]
  | .funcMod => [[.word .memo]]
  | .argDecls => [[.id, .nonterm .argDecls], [.epsilon]]
  | .fragment => [[.nonterm .fragExprs]]
  | .fragExprs => [[.nonterm .cexpr, .nonterm .fragTail], [.epsilon]]
  | .fragTail => [[.word .semicolon, .nonterm .fragExprs], [.epsilon]]
  | .cexpr => [[.nonterm .letExpr], [.nonterm .expr]]
  | .letExpr => [[.word .bind, .nonterm .assign]]
  | .assign =>
    [[.nonterm .funcMods, .id, .nonterm .argDecls, .word .arrow, .nonterm .expr],
      [.nonterm .pattern, .word .arrow, .nonterm .expr]]
  | .pattern => [[.id], [.word .openBracket, .id, .nonterm .argDecls, .word .closeBracket]]
  | .expr =>
    [[.nonterm .single, .nonterm .args, .nonterm .switch, .nonterm .slot, .nonterm .chain]]
  | .args => [[.nonterm .single, .nonterm .args], [.epsilon]]
  | .switch => [[.word .openBrace, .nonterm .switches, .word .closeBrace], [.epsilon]]
  | .switches =>
    [[.nonterm .expr, .word .arrow, .nonterm .expr, .word .semicolon, .nonterm .switches],
      [.epsilon]]
  | .slot => [[.word .colon, .nonterm .pattern], [.epsilon]]
  | .chain =>
    [[.word .chain, .nonterm .expr], [.word .ignoredChain, .nonterm .expr],
      [.word .errorChain, .nonterm .expr], [.epsilon]]
  | .single =>
    [[.number], [.string], [.nonterm .array], [.nonterm .lambda], [.nonterm .ref]]
  | .ref => [[.id, .nonterm .sub], [.nonterm .compound, .nonterm .sub]]
  | .sub => [[.word .dot, .nonterm .member, .nonterm .sub], [.epsilon]]
  | .member => [[.id], [.nonterm .compound]]
  | .array => [[.word .openBracket, .nonterm .arrayExprs, .word .closeBracket]]
  | .arrayExprs => [[.nonterm .expr, .nonterm .arrayTail], [.epsilon]]
  | .arrayTail => [[.word .semicolon, .nonterm .arrayExprs], [.epsilon]]
  | .compound =>
    [[.word .openParen, .nonterm .cexpr, .nonterm .compoundTail, .word .closeParen],
      [.word .openCollect, .nonterm .cexpr, .nonterm .compoundTail, .word .closeParen]]
  | .compoundTail => [[.word .semicolon, .nonterm .compoundMore], [.epsilon]]
  | .compoundMore => [[.nonterm .cexpr, .nonterm .compoundTail], [.epsilon]]
  | .lambda =>
    [[.word .openLambda, .nonterm .funcMods, .id, .nonterm .argDecls, .word .arrow,
      .nonterm .cexpr, .nonterm .compoundTail, .word .closeParen]]

/-- A right side as a sentential form. -/
def form (xs : List Symbol) : Form :=
  xs.filterMap fun
    | .term a => some (.terminal a)
    | .nonterm n => some (.nonterminal n)
    | .epsilon => none

/-- A sentential form as a right side. -/
def Symbol.ofForm (u : Form) : List Symbol :=
  u.map fun
    | .terminal a => .term a
    | .nonterminal n => .nonterm n

theorem ofForm_append (u v : Form) :
    Symbol.ofForm (u ++ v) = Symbol.ofForm u ++ Symbol.ofForm v :=
  List.map_append

theorem ofForm_terminals (tokens : List Token) :
    Symbol.ofForm ((tokens.map Terminal.ofToken).map .terminal) =
      tokens.map fun t => .term (.ofToken t) := by
  simp [Symbol.ofForm]

theorem ofForm_form {xs : List Symbol} (h : .epsilon ∉ xs) : Symbol.ofForm (form xs) = xs := by
  induction xs with
  | nil => rfl
  | cons x xs ih =>
    have hxs := ih fun he => h (by simp [he])
    cases x with
    | term a => simpa [Symbol.ofForm, form] using hxs
    | nonterm n => simpa [Symbol.ofForm, form] using hxs
    | epsilon => simp at h

/-- The empty expansion is never part of a longer right side. -/
theorem epsilon_alone (n : Nonterminal) :
    ∀ xs ∈ productions n, xs = [.epsilon] ∨ .epsilon ∉ xs := by
  cases n <;> decide

theorem mem_all (n : Nonterminal) : n ∈ Nonterminal.all := by
  cases n <;> decide

/-- All productions as rewrite rules. -/
def bnfRules : List (ContextFreeRule Terminal Nonterminal) :=
  Nonterminal.all.flatMap fun n => (productions n).map fun xs => ⟨n, form xs⟩

/-- The context-free grammar with the given start symbol. -/
def bnf (start : Nonterminal) : ContextFreeGrammar Terminal where
  NT := Nonterminal
  initial := start
  rules := bnfRules.toFinset

theorem mem_bnf_rules {start : Nonterminal} {r : ContextFreeRule Terminal Nonterminal} :
    r ∈ (bnf start).rules ↔ ∃ xs ∈ productions r.input, form xs = r.output := by
  have hr : r ∈ (bnf start).rules ↔ r ∈ bnfRules := List.mem_toFinset
  simp only [hr, bnfRules, List.mem_flatMap, List.mem_map]
  constructor
  · rintro ⟨n, _, xs, hxs, rfl⟩
    exact ⟨xs, hxs, rfl⟩
  · rintro ⟨xs, hxs, hr⟩
    exact ⟨r.input, mem_all _, xs, hxs, by rw [hr]⟩

/-- A rewriting step puts a production in the place of its nonterminal. -/
theorem exists_parts_of_produces {start : Nonterminal} {u v : Form}
    (h : (bnf start).Produces u v) :
    ∃ (n : Nonterminal) (xs : List Symbol) (p q : Form), xs ∈ productions n ∧
      u = p ++ [.nonterminal n] ++ q ∧ v = p ++ form xs ++ q := by
  obtain ⟨r, hr, hrewrites⟩ := h
  obtain ⟨xs, hxs, hform⟩ := mem_bnf_rules.mp hr
  obtain ⟨p, q, hu, hv⟩ := hrewrites.exists_parts
  exact ⟨r.input, xs, p, q, hxs, hu, hform ▸ hv⟩

end Grammar

namespace Tree

open Grammar

variable {n start : Nonterminal} {t : Tree} {ts : List Tree}

/-- What a tree derives: the symbol at its root. -/
def symbol : Tree → Grammar.Symbol
  | leaf t => .term (.ofToken t)
  | epsilon => .epsilon
  | node n _ => .nonterm n

@[simp] theorem symbol_leaf (t : Token) : (leaf t).symbol = .term (.ofToken t) := rfl

@[simp] theorem symbol_epsilon : epsilon.symbol = .epsilon := rfl

@[simp] theorem symbol_node (n : Nonterminal) (ts : List Tree) :
    (node n ts).symbol = .nonterm n := rfl

/--
A derivation tree: the children of each node spell one of its productions. An empty expansion is
a production of its own, so it never has siblings.
-/
inductive IsDerivation : Tree → Prop
  | leaf (token : Token) : IsDerivation (leaf token)
  | epsilon : IsDerivation epsilon
  | node {n : Nonterminal} {children : List Tree} (rule : children.map symbol ∈ productions n)
      (parts : ∀ c ∈ children, IsDerivation c) : IsDerivation (node n children)

/-- The terminals at the leaves. -/
def word (t : Tree) : List Terminal := t.leaves.map .ofToken

def wordAll (ts : List Tree) : List Terminal := (leavesAll ts).map .ofToken

@[simp] theorem leavesAll_nil : leavesAll [] = [] := rfl

@[simp] theorem leavesAll_cons (t : Tree) (ts : List Tree) :
    leavesAll (t :: ts) = t.leaves ++ leavesAll ts := rfl

@[simp] theorem leaves_leaf (t : Token) : (leaf t).leaves = [t] := rfl

@[simp] theorem leaves_epsilon : epsilon.leaves = [] := rfl

@[simp] theorem leaves_node (n : Nonterminal) (ts : List Tree) :
    (node n ts).leaves = leavesAll ts := rfl

@[simp] theorem leavesAll_append (ts us : List Tree) :
    leavesAll (ts ++ us) = leavesAll ts ++ leavesAll us := by
  induction ts with
  | nil => rfl
  | cons t ts ih => simp [ih]

@[simp] theorem word_leaf (t : Token) : (leaf t).word = [.ofToken t] := rfl

@[simp] theorem word_epsilon : epsilon.word = [] := rfl

@[simp] theorem word_node (n : Nonterminal) (ts : List Tree) : (node n ts).word = wordAll ts := rfl

@[simp] theorem wordAll_nil : wordAll [] = [] := rfl

@[simp] theorem wordAll_cons (t : Tree) (ts : List Tree) :
    wordAll (t :: ts) = t.word ++ wordAll ts := by
  simp [wordAll, word]

/-- The words of a forest are derived one after the other. -/
theorem derives_wordAll
    (h : ∀ t ∈ ts, (bnf start).Derives (form [t.symbol]) (t.word.map .terminal)) :
    (bnf start).Derives (form (ts.map symbol)) ((wordAll ts).map .terminal) := by
  induction ts with
  | nil => exact .refl _
  | cons t ts ih =>
    have ht := h t (by simp)
    have hts := ih fun u hu => h u (by simp [hu])
    have hform : form ((t :: ts).map symbol) = form [t.symbol] ++ form (ts.map symbol) := by
      simp only [form, List.map_cons, ← List.filterMap_append, List.singleton_append]
    rw [hform, wordAll_cons, List.map_append]
    exact (ht.append_right _).trans (hts.append_left _)

theorem IsDerivation.derives (h : t.IsDerivation) :
    (bnf start).Derives (form [t.symbol]) (t.word.map .terminal) := by
  induction h with
  | leaf token => exact .refl _
  | epsilon => exact .refl _
  | @node n children rule parts ih =>
    have hstep : (bnf start).Produces [.nonterminal n] (form (children.map symbol)) :=
      ⟨⟨n, form (children.map symbol)⟩, mem_bnf_rules.mpr ⟨_, rule, rfl⟩,
        ContextFreeRule.Rewrites.input_output⟩
    exact hstep.trans_derives (derives_wordAll ih)

/-- A derivation tree of the start symbol shows its word to be in the language. -/
theorem IsDerivation.word_mem_language (h : t.IsDerivation) (hs : t.symbol = .nonterm start) :
    t.word ∈ (bnf start).language := by
  have hd : (bnf start).Derives (form [t.symbol]) (t.word.map .terminal) := h.derives
  rw [hs] at hd
  exact hd

/-- The form of an assignment that matches a pattern instead of declaring a name. -/
def patternForm : List Grammar.Symbol := [.nonterm .pattern, .word .arrow, .nonterm .expr]

/--
A name after `let` is always a declaration. A pattern may be a single name too, so the productions
alone leave the choice open.
-/
inductive DeclaresNames : Tree → Prop
  | leaf (token : Token) : DeclaresNames (leaf token)
  | epsilon : DeclaresNames epsilon
  | node {n : Nonterminal} {children : List Tree}
      (choice : n = .assign → (wordAll children).head? = some .id →
        children.map symbol ≠ patternForm)
      (parts : ∀ c ∈ children, DeclaresNames c) : DeclaresNames (node n children)

theorem symbol_eq_term {a : Terminal} (h : t.symbol = .term a) :
    ∃ token, t = leaf token ∧ Terminal.ofToken token = a := by
  cases t <;> simp_all [symbol]

theorem symbol_eq_nonterm (h : t.symbol = .nonterm n) : ∃ children, t = node n children := by
  cases t <;> simp_all [symbol]

theorem rule_of_isDerivation (h : (node n ts).IsDerivation) :
    ts.map symbol ∈ productions n := by
  cases h with
  | node rule _ => exact rule

/-- A pattern that starts with a name is that name. -/
theorem pattern_eq_name (h : (node .pattern ts).IsDerivation)
    (hid : (wordAll ts).head? = some .id) :
    ∃ token, ts = [leaf token] ∧ Terminal.ofToken token = .id := by
  have hrule : ts.map symbol = [.id] ∨
      ts.map symbol = [.word .openBracket, .id, .nonterm .argDecls, .word .closeBracket] := by
    simpa [productions] using rule_of_isDerivation h
  rcases hrule with hrule | hrule
  · obtain ⟨t, rfl, ht⟩ := List.map_eq_singleton_iff.mp hrule
    obtain ⟨token, rfl, htoken⟩ := symbol_eq_term ht
    exact ⟨token, rfl, htoken⟩
  · obtain ⟨t, ts, rfl, ht, _⟩ := List.map_eq_cons_iff.mp hrule
    obtain ⟨token, rfl, htoken⟩ := symbol_eq_term ht
    simp [htoken] at hid

/-- The declaration of a name without parameters. -/
def nameDeclaration (name arrow : Token) (body : Tree) : Tree :=
  node .assign
    [node .funcMods [epsilon], leaf name, node .argDecls [epsilon], leaf arrow, body]

theorem nameDeclaration_isDerivation {name arrow : Token} (hname : Terminal.ofToken name = .id)
    (harrow : Terminal.ofToken arrow = .keyword .arrow) (hs : t.symbol = .nonterm .expr)
    (ht : t.IsDerivation) : (nameDeclaration name arrow t).IsDerivation := by
  refine .node ?_ ?_
  · simp [hname, harrow, hs, productions, Symbol.id, Symbol.word]
  · have hmods : (node .funcMods [epsilon]).IsDerivation :=
      .node (by simp [productions]) (by simpa using .epsilon)
    have hargs : (node .argDecls [epsilon]).IsDerivation :=
      .node (by simp [productions]) (by simpa using .epsilon)
    simp [hmods, hargs, ht, IsDerivation.leaf]

theorem nameDeclaration_declaresNames {name arrow : Token} (ht : t.DeclaresNames) :
    (nameDeclaration name arrow t).DeclaresNames := by
  refine .node (fun _ _ => by simp [patternForm]) ?_
  have hmods : (node .funcMods [epsilon]).DeclaresNames :=
    .node (by simp) (by simpa using .epsilon)
  have hargs : (node .argDecls [epsilon]).DeclaresNames :=
    .node (by simp) (by simpa using .epsilon)
  simp [hmods, hargs, ht, DeclaresNames.leaf]

/-- What the parts of a production derive can be derived with names declared. -/
theorem exists_node (rule : ts.map symbol ∈ productions n) (parts : ∀ t ∈ ts, t.IsDerivation)
    (names : ∀ t ∈ ts, t.DeclaresNames) :
    ∃ t : Tree, t.symbol = .nonterm n ∧ t.IsDerivation ∧ t.DeclaresNames ∧
      t.leaves = leavesAll ts := by
  by_cases hpattern : n = .assign ∧ (wordAll ts).head? = some .id ∧ ts.map symbol = patternForm
  · obtain ⟨rfl, hid, hform⟩ := hpattern
    obtain ⟨p, us, rfl, hp, hus⟩ := List.map_eq_cons_iff.mp hform
    obtain ⟨a, vs, rfl, ha, hvs⟩ := List.map_eq_cons_iff.mp hus
    obtain ⟨e, rfl, he⟩ := List.map_eq_singleton_iff.mp hvs
    obtain ⟨ps, rfl⟩ := symbol_eq_nonterm hp
    obtain ⟨arrow, rfl, harrow⟩ := symbol_eq_term ha
    have hps : (wordAll ps).head? = some .id := by
      cases hw : wordAll ps with
      | nil => simp [hw, harrow] at hid
      | cons a w => simpa [hw] using hid
    obtain ⟨name, rfl, hname⟩ := pattern_eq_name (parts _ (by simp)) hps
    refine ⟨nameDeclaration name arrow e, rfl, ?_, ?_, by simp [nameDeclaration]⟩
    · exact nameDeclaration_isDerivation hname harrow he (parts _ (by simp))
    · exact nameDeclaration_declaresNames (names _ (by simp))
  · refine ⟨node n ts, rfl, .node rule parts, .node ?_ names, rfl⟩
    intro hn hid hform
    exact hpattern ⟨hn, hid, hform⟩

/-- Takes a rewriting step back: the trees of a right side become the children of one node. -/
theorem exists_forest_of_produces {u v : Form} (h : (bnf start).Produces u v)
    (hsymbol : ts.map symbol = Symbol.ofForm v)
    (hts : ∀ t ∈ ts, t.IsDerivation ∧ t.DeclaresNames) :
    ∃ us : List Tree, us.map symbol = Symbol.ofForm u ∧ leavesAll us = leavesAll ts ∧
      ∀ t ∈ us, t.IsDerivation ∧ t.DeclaresNames := by
  obtain ⟨n, xs, p, q, hxs, rfl, rfl⟩ := exists_parts_of_produces h
  simp only [ofForm_append] at hsymbol
  obtain ⟨front, back, rfl, hfront, hback⟩ := List.map_eq_append_iff.mp hsymbol
  obtain ⟨left, middle, rfl, hleft, hmiddle⟩ := List.map_eq_append_iff.mp hfront
  -- The children are the trees in the middle, or the empty expansion if there are none.
  obtain ⟨children, hrule, hleaves, hchildren⟩ : ∃ children : List Tree,
      children.map symbol ∈ productions n ∧ leavesAll children = leavesAll middle ∧
      ∀ t ∈ children, t.IsDerivation ∧ t.DeclaresNames := by
    rcases epsilon_alone n xs hxs with rfl | hepsilon
    · have hnil : middle = [] := by simpa [form, Symbol.ofForm] using hmiddle
      subst hnil
      exact ⟨[epsilon], hxs, rfl, by simp [IsDerivation.epsilon, DeclaresNames.epsilon]⟩
    · have heq : middle.map symbol = xs := hmiddle.trans (ofForm_form hepsilon)
      exact ⟨middle, heq ▸ hxs, rfl, fun t ht => hts t (by simp [ht])⟩
  obtain ⟨t, hroot, ht, hnames, hword⟩ :=
    exists_node hrule (fun t ht => (hchildren t ht).1) fun t ht => (hchildren t ht).2
  refine ⟨left ++ [t] ++ back, ?_, ?_, ?_⟩
  · simp [Symbol.ofForm, hleft, hroot, hback]
  · simp [hword, hleaves]
  · intro u hu
    simp only [List.append_assoc, List.singleton_append, List.mem_append, List.mem_cons] at hu
    rcases hu with hu | rfl | hu
    · exact hts u (by simp [hu])
    · exact ⟨ht, hnames⟩
    · exact hts u (by simp [hu])

theorem exists_forest {u : Form} {tokens : List Token}
    (h : (bnf start).Derives u ((tokens.map Terminal.ofToken).map .terminal)) :
    ∃ ts : List Tree, ts.map symbol = Symbol.ofForm u ∧ leavesAll ts = tokens ∧
      ∀ t ∈ ts, t.IsDerivation ∧ t.DeclaresNames := by
  induction h using Relation.ReflTransGen.head_induction_on with
  | refl =>
    refine ⟨tokens.map leaf, ?_, ?_, ?_⟩
    · exact List.map_map.trans (ofForm_terminals _).symm
    · induction tokens with
      | nil => rfl
      | cons t tokens ih => simp [ih]
    · simp +contextual [IsDerivation.leaf, DeclaresNames.leaf]
  | head hstep _ ih =>
    obtain ⟨ts, hsymbol, hleaves, hts⟩ := ih
    obtain ⟨us, husymbol, huleaves, hus⟩ := exists_forest_of_produces hstep hsymbol hts
    exact ⟨us, husymbol, huleaves.trans hleaves, hus⟩

/-- Every word of the language has a derivation tree in which names are declared. -/
theorem exists_isDerivation_of_mem_language {tokens : List Token}
    (h : tokens.map Terminal.ofToken ∈ (bnf start).language) :
    ∃ t : Tree, t.symbol = .nonterm start ∧ t.IsDerivation ∧ t.DeclaresNames ∧
      t.leaves = tokens := by
  obtain ⟨ts, hsymbol, hleaves, hts⟩ := exists_forest h
  obtain ⟨t, rfl, ht⟩ := List.map_eq_singleton_iff.mp hsymbol
  have hparts := hts t (by simp)
  exact ⟨t, ht, hparts.1, hparts.2, by simpa using hleaves⟩

end Tree

end ChainScript
