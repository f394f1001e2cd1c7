import ChainScript.Proofs.Expr.OfTree
import ChainScript.Proofs.Tree.Derives

/-!
Derivation trees for tokens of given values, put together production by production, and what they
are read as.
-/
namespace ChainScript.Tree

open Grammar ChainScript.Expr

variable {n : Nonterminal} {xs : List Grammar.Symbol} {us vs : List Lexical} {v : Lexical}
  {P Q : Tree → Prop} {R : List Tree → Prop}

/-- All tokens with these values are derived from `n`, by a tree with the given property. -/
def Spelt (n : Nonterminal) (values : List Lexical) (P : Tree → Prop) : Prop :=
  ∀ tokens : List Token, tokens.map Token.value = values →
    ∃ ts, Derives (.nonterm n) (node n ts) ∧ leavesAll ts = tokens ∧ P (node n ts)

/-- All tokens with these values are derived from the symbols, by trees with the given property. -/
def SpeltAll (xs : List Grammar.Symbol) (values : List Lexical) (R : List Tree → Prop) : Prop :=
  ∀ tokens : List Token, tokens.map Token.value = values →
    ∃ ts, List.Forall₂ Derives xs ts ∧ leavesAll ts = tokens ∧ R ts

theorem derives_node {ts : List Tree} (hxs : xs ∈ productions n)
    (hchoice : n = .assign → (wordAll ts).head? = some .id → xs ≠ patternForm)
    (h : List.Forall₂ Derives xs ts) : Derives (.nonterm n) (node n ts) := by
  have hsymbols : ts.map symbol = xs := by
    clear hxs hchoice
    induction h with
    | nil => rfl
    | cons ht _ ih => rw [List.map_cons, ht.root, ih]
  have hparts : ∀ t ∈ ts, t.IsDerivation ∧ t.DeclaresNames := by
    clear hxs hchoice hsymbols
    induction h with
    | nil => simp
    | cons ht _ ih => exact List.forall_mem_cons.mpr ⟨⟨ht.derivation, ht.names⟩, ih⟩
  subst hsymbols
  exact ⟨rfl, .node hxs fun t ht => (hparts t ht).1, .node hchoice fun t ht => (hparts t ht).2⟩

theorem speltAll_nil (h : R []) : SpeltAll [] [] R := by
  intro tokens htokens
  exact ⟨[], .nil, (List.map_eq_nil_iff.mp htokens).symm, h⟩

theorem speltAll_leaf {a : Terminal} (ha : ∀ p, Terminal.ofToken ⟨p, v⟩ = a)
    (h : SpeltAll xs vs fun ts => ∀ p, R (leaf ⟨p, v⟩ :: ts)) :
    SpeltAll (.term a :: xs) (v :: vs) R := by
  intro tokens htokens
  obtain ⟨⟨p, value⟩, rest, rfl, rfl, hrest⟩ := List.map_eq_cons_iff.mp htokens
  obtain ⟨ts, hts, hleaves, hR⟩ := h rest hrest
  have hleaf : Derives (.term a) (leaf ⟨p, value⟩) :=
    ⟨by rw [symbol_leaf, ha], .leaf _, .leaf _⟩
  exact ⟨_, .cons hleaf hts, by simp [hleaves], hR p⟩

theorem speltAll_nonterm (h : Spelt n us P)
    (hrest : SpeltAll xs vs fun ts => ∀ cs, P (node n cs) → R (node n cs :: ts)) :
    SpeltAll (.nonterm n :: xs) (us ++ vs) R := by
  intro tokens htokens
  obtain ⟨first, rest, rfl, hfirst, hvalues⟩ := List.map_eq_append_iff.mp htokens
  obtain ⟨cs, hcs, hleaves, hP⟩ := h first hfirst
  obtain ⟨ts, hts, hleaves', hR⟩ := hrest rest hvalues
  exact ⟨_, .cons hcs hts, by simp [hleaves, hleaves'], hR cs hP⟩

theorem speltAll_last (h : Spelt n vs P) (hR : ∀ cs, P (node n cs) → R [node n cs]) :
    SpeltAll [.nonterm n] vs R := by
  rw [← List.append_nil vs]
  exact speltAll_nonterm h (speltAll_nil hR)

theorem speltAll_only (h : Spelt n vs fun t => R [t]) : SpeltAll [.nonterm n] vs R :=
  speltAll_last h fun _ h => h

theorem spelt_node (xs : List Grammar.Symbol) (hxs : xs ∈ productions n) (hn : n ≠ .assign)
    (h : SpeltAll xs vs fun ts => P (node n ts)) : Spelt n vs P := by
  intro tokens htokens
  obtain ⟨ts, hts, hleaves, hP⟩ := h tokens htokens
  exact ⟨ts, derives_node hxs (fun hassign => (hn hassign).elim) hts, hleaves, hP⟩

theorem spelt_epsilon (hxs : [.epsilon] ∈ productions n) (hn : n ≠ .assign)
    (h : P (node n [epsilon])) : Spelt n [] P := by
  refine spelt_node _ hxs hn ?_
  intro tokens htokens
  have hepsilon : Derives .epsilon epsilon := ⟨rfl, .epsilon, .epsilon⟩
  exact ⟨_, .cons hepsilon .nil, (List.map_eq_nil_iff.mp htokens).symm, h⟩

/-- An assignment to a pattern is one of its own only if it does not start with a name. -/
theorem spelt_assign (xs : List Grammar.Symbol) (hxs : xs ∈ productions .assign)
    (hvs : xs = patternForm → ∃ k us, vs = .keyword k :: us)
    (h : SpeltAll xs vs fun ts => P (node .assign ts)) : Spelt .assign vs P := by
  intro tokens htokens
  obtain ⟨ts, hts, hleaves, hP⟩ := h tokens htokens
  refine ⟨ts, derives_node hxs ?_ hts, hleaves, hP⟩
  rintro - hhead hform
  obtain ⟨k, us, rfl⟩ := hvs hform
  obtain ⟨⟨p, value⟩, rest, rfl, rfl, -⟩ := List.map_eq_cons_iff.mp htokens
  simp [wordAll, hleaves, Terminal.ofToken] at hhead

section Productions

variable {ms ns ss as cs ds : List Lexical} {x : String} {names params : List String}
  {e func base body : Source} {es args : List Source} {link : Link} {memoized : Bool}
  {gs rest lhs rhs : List (Segment Source)} {cases : List (Source × Source)}
  {block : Option (List (Source × Source))} {bound : Option Pattern} {pat : Pattern}

theorem spelt_names (names : List String) :
    Spelt .argDecls (names.map .identifier) (paramNames · = .ok names) := by
  induction names with
  | nil => exact spelt_epsilon (by decide) nofun rfl
  | cons x names ih =>
    refine spelt_node [.id, .nonterm .argDecls] (by decide) nofun ?_
    exact speltAll_leaf (fun _ => rfl) (speltAll_last ih fun _ h _ => paramNames_cons h)

theorem spelt_noMods : Spelt .funcMods [] (hasMemo · = .ok false) :=
  spelt_epsilon (by decide) nofun rfl

theorem spelt_memo : Spelt .funcMods [.keyword .memo] (hasMemo · = .ok true) := by
  have hmod : Spelt .funcMod [.keyword .memo] fun t =>
      ∀ rest, hasMemo rest = .ok false → hasMemo (node .funcMods [t, rest]) = .ok true := by
    refine spelt_node [.word .memo] (by decide) nofun ?_
    exact speltAll_leaf (fun _ => rfl) (speltAll_nil fun _ _ h => hasMemo_cons h)
  refine spelt_node [.nonterm .funcMod, .nonterm .funcMods] (by decide) nofun ?_
  exact speltAll_nonterm hmod (speltAll_last spelt_noMods fun _ hrest _ hmod => hmod _ hrest)

theorem spelt_pattern_name (x : String) :
    Spelt .pattern [.identifier x] (pattern · = .ok (.name x)) := by
  refine spelt_node [.id] (by decide) nofun ?_
  exact speltAll_leaf (fun _ => rfl) (speltAll_nil fun _ => rfl)

theorem spelt_pattern_array (x : String) (names : List String) :
    Spelt .pattern
      (.keyword .openBracket :: .identifier x ::
        (names.map .identifier ++ [.keyword .closeBracket]))
      (pattern · = .ok (.array (x :: names))) := by
  refine spelt_node [.word .openBracket, .id, .nonterm .argDecls, .word .closeBracket]
    (by decide) nofun ?_
  refine speltAll_leaf (fun _ => rfl) (speltAll_leaf (fun _ => rfl) ?_)
  refine speltAll_nonterm (spelt_names names) (speltAll_leaf (fun _ => rfl) (speltAll_nil ?_))
  exact fun _ _ h _ _ => pattern_array h

theorem spelt_noSlot : Spelt .slot [] (slot · = .ok none) :=
  spelt_epsilon (by decide) nofun rfl

theorem spelt_slot (h : Spelt .pattern vs (pattern · = .ok pat)) :
    Spelt .slot (.keyword .colon :: vs) (slot · = .ok (some pat)) := by
  refine spelt_node [.word .colon, .nonterm .pattern] (by decide) nofun ?_
  exact speltAll_leaf (fun _ => rfl) (speltAll_last h fun _ h _ => slot_pattern h)

theorem spelt_expr (hfunc : Spelt .single vs (operand · = .ok func))
    (hargs : Spelt .args as (operands · = .ok args))
    (hcases : Spelt .switch cs (switchBlock · = .ok block))
    (hslot : Spelt .slot ss (slot · = .ok bound))
    (hrest : Spelt .chain ds (moreSegments · = .ok rest)) (link : Link) :
    Spelt .expr (vs ++ (as ++ (cs ++ (ss ++ ds))))
      (segments link · = .ok (⟨.switched (.applied func args) block, link, bound⟩ :: rest)) := by
  refine spelt_node [.nonterm .single, .nonterm .args, .nonterm .switch, .nonterm .slot,
    .nonterm .chain] (by decide) nofun ?_
  refine speltAll_nonterm hfunc (speltAll_nonterm hargs (speltAll_nonterm hcases ?_))
  refine speltAll_nonterm hslot (speltAll_last hrest ?_)
  exact fun _ hrest _ hslot _ hcases _ hargs _ hfunc => segments_expr hfunc hargs hcases hslot hrest

theorem spelt_chainEnd : Spelt .chain [] (moreSegments · = .ok []) :=
  spelt_epsilon (by decide) nofun rfl

theorem spelt_link {k : Keyword} (hk : Link.ofKeyword? k = some link)
    (h : Spelt .expr vs (segments link · = .ok gs)) :
    Spelt .chain (.keyword k :: vs) (moreSegments · = .ok gs) := by
  have hrule : [.word k, .nonterm .expr] ∈ productions .chain := by
    cases k <;> first | decide | cases hk
  refine spelt_node [.word k, .nonterm .expr] hrule nofun ?_
  exact speltAll_leaf (fun _ => rfl) (speltAll_last h fun _ h _ => moreSegments_link hk h)

theorem spelt_noArgs : Spelt .args [] (operands · = .ok []) :=
  spelt_epsilon (by decide) nofun rfl

theorem spelt_args (h : Spelt .single us (operand · = .ok e))
    (hrest : Spelt .args vs (operands · = .ok es)) :
    Spelt .args (us ++ vs) (operands · = .ok (e :: es)) := by
  refine spelt_node [.nonterm .single, .nonterm .args] (by decide) nofun ?_
  exact speltAll_nonterm h (speltAll_last hrest fun _ hrest _ h => operands_cons h hrest)

theorem spelt_noSwitch : Spelt .switch [] (switchBlock · = .ok none) :=
  spelt_epsilon (by decide) nofun rfl

theorem spelt_switch (h : Spelt .switches vs (switchCases · = .ok cases)) :
    Spelt .switch (.keyword .openBrace :: (vs ++ [.keyword .closeBrace]))
      (switchBlock · = .ok (some cases)) := by
  refine spelt_node [.word .openBrace, .nonterm .switches, .word .closeBrace] (by decide) nofun ?_
  refine speltAll_leaf (fun _ => rfl) (speltAll_nonterm h (speltAll_leaf (fun _ => rfl) ?_))
  exact speltAll_nil fun _ _ h _ => switchBlock_cases h

theorem spelt_noCases : Spelt .switches [] (switchCases · = .ok []) :=
  spelt_epsilon (by decide) nofun rfl

theorem spelt_cases (hlhs : Spelt .expr us (segments .plain · = .ok lhs))
    (hrhs : Spelt .expr vs (segments .plain · = .ok rhs))
    (hrest : Spelt .switches cs (switchCases · = .ok cases)) :
    Spelt .switches (us ++ .keyword .arrow :: (vs ++ .keyword .semicolon :: cs))
      (switchCases · = .ok ((.ofSegments lhs, .ofSegments rhs) :: cases)) := by
  refine spelt_node [.nonterm .expr, .word .arrow, .nonterm .expr, .word .semicolon,
    .nonterm .switches] (by decide) nofun ?_
  refine speltAll_nonterm hlhs (speltAll_leaf (fun _ => rfl) (speltAll_nonterm hrhs ?_))
  refine speltAll_leaf (fun _ => rfl) (speltAll_last hrest ?_)
  exact fun _ hrest _ _ hrhs _ _ hlhs => switchCases_cons hlhs hrhs hrest

theorem spelt_number (x : Float) : Spelt .single [.number x] (operand · = .ok (.number x)) := by
  refine spelt_node [.number] (by decide) nofun ?_
  exact speltAll_leaf (fun _ => rfl) (speltAll_nil fun _ => rfl)

theorem spelt_string (s : String) : Spelt .single [.string s] (operand · = .ok (.string s)) := by
  refine spelt_node [.string] (by decide) nofun ?_
  exact speltAll_leaf (fun _ => rfl) (speltAll_nil fun _ => rfl)

theorem spelt_array (h : Spelt .arrayExprs vs (arrayItems · = .ok es)) :
    Spelt .single (.keyword .openBracket :: (vs ++ [.keyword .closeBracket]))
      (operand · = .ok (.array es)) := by
  refine spelt_node [.nonterm .array] (by decide) nofun (speltAll_only ?_)
  refine spelt_node [.word .openBracket, .nonterm .arrayExprs, .word .closeBracket]
    (by decide) nofun ?_
  refine speltAll_leaf (fun _ => rfl) (speltAll_nonterm h (speltAll_leaf (fun _ => rfl) ?_))
  exact speltAll_nil fun _ _ h _ => operand_array h

theorem spelt_lambda (hmods : Spelt .funcMods ms (hasMemo · = .ok memoized))
    (hfirst : Spelt .cexpr us (item · = .ok e))
    (htail : Spelt .compoundTail vs (moreItems · = .ok es)) (x : String) (params : List String) :
    Spelt .single
      (.keyword .openLambda :: (ms ++ .identifier x :: (params.map .identifier ++
        .keyword .arrow :: (us ++ (vs ++ [.keyword .closeParen])))))
      (operand · = .ok (.function memoized x params (.ofItems (e :: es)))) := by
  refine spelt_node [.nonterm .lambda] (by decide) nofun (speltAll_only ?_)
  refine spelt_node [.word .openLambda, .nonterm .funcMods, .id, .nonterm .argDecls, .word .arrow,
    .nonterm .cexpr, .nonterm .compoundTail, .word .closeParen] (by decide) nofun ?_
  refine speltAll_leaf (fun _ => rfl) (speltAll_nonterm hmods (speltAll_leaf (fun _ => rfl) ?_))
  refine speltAll_nonterm (spelt_names params) (speltAll_leaf (fun _ => rfl) ?_)
  refine speltAll_nonterm hfirst (speltAll_nonterm htail (speltAll_leaf (fun _ => rfl) ?_))
  exact speltAll_nil fun _ _ htail _ hfirst _ _ hparams _ _ hmods _ =>
    operand_lambda hmods hparams hfirst htail

theorem spelt_var (h : Spelt .sub vs (members (.var x) · = .ok e)) :
    Spelt .single (.identifier x :: vs) (operand · = .ok e) := by
  refine spelt_node [.nonterm .ref] (by decide) nofun (speltAll_only ?_)
  refine spelt_node [.id, .nonterm .sub] (by decide) nofun ?_
  exact speltAll_leaf (fun _ => rfl) (speltAll_last h fun _ h _ => operand_name h)

theorem spelt_ref (hbase : Spelt .compound us (compound · = .ok base))
    (h : Spelt .sub vs (members base · = .ok e)) :
    Spelt .single (us ++ vs) (operand · = .ok e) := by
  refine spelt_node [.nonterm .ref] (by decide) nofun (speltAll_only ?_)
  refine spelt_node [.nonterm .compound, .nonterm .sub] (by decide) nofun ?_
  exact speltAll_nonterm hbase (speltAll_last h fun _ h _ hbase => operand_compound hbase h)

theorem spelt_noMember (base : Source) : Spelt .sub [] (members base · = .ok base) :=
  spelt_epsilon (by decide) nofun rfl

theorem spelt_member (h : Spelt .sub vs (members (.member base x) · = .ok e)) :
    Spelt .sub (.keyword .dot :: .identifier x :: vs) (members base · = .ok e) := by
  have hname : Spelt .member [.identifier x] fun t =>
      ∀ a b, members (.member base x) b = .ok e → members base (node .sub [a, t, b]) = .ok e := by
    refine spelt_node [.id] (by decide) nofun ?_
    exact speltAll_leaf (fun _ => rfl) (speltAll_nil fun _ _ _ h => members_name h)
  refine spelt_node [.word .dot, .nonterm .member, .nonterm .sub] (by decide) nofun ?_
  refine speltAll_leaf (fun _ => rfl) (speltAll_nonterm hname (speltAll_last h ?_))
  exact fun _ h _ hname _ => hname _ _ h

theorem spelt_within (hbody : Spelt .compound us (compound · = .ok body))
    (h : Spelt .sub vs (members (.within base body) · = .ok e)) :
    Spelt .sub (.keyword .dot :: (us ++ vs)) (members base · = .ok e) := by
  have hinner : Spelt .member us fun t =>
      ∀ a b, members (.within base body) b = .ok e →
        members base (node .sub [a, t, b]) = .ok e := by
    refine spelt_node [.nonterm .compound] (by decide) nofun ?_
    exact speltAll_last hbody fun _ hbody _ _ h => members_compound hbody h
  refine spelt_node [.word .dot, .nonterm .member, .nonterm .sub] (by decide) nofun ?_
  refine speltAll_leaf (fun _ => rfl) (speltAll_nonterm hinner (speltAll_last h ?_))
  exact fun _ h _ hinner _ => hinner _ _ h

theorem spelt_noItems : Spelt .arrayExprs [] (arrayItems · = .ok []) :=
  spelt_epsilon (by decide) nofun rfl

theorem spelt_lastItem (h : Spelt .expr vs (segments .plain · = .ok gs)) :
    Spelt .arrayExprs vs (arrayItems · = .ok [.ofSegments gs]) := by
  have htail : Spelt .arrayTail [] (· = node .arrayTail [epsilon]) :=
    spelt_epsilon (by decide) nofun rfl
  refine spelt_node [.nonterm .expr, .nonterm .arrayTail] (by decide) nofun ?_
  rw [← List.append_nil vs]
  refine speltAll_nonterm h (speltAll_last htail ?_)
  rintro _ htail _ h
  rw [htail]
  exact arrayItems_last h

theorem spelt_items (h : Spelt .expr us (segments .plain · = .ok gs))
    (hmore : Spelt .arrayExprs vs (arrayItems · = .ok es)) :
    Spelt .arrayExprs (us ++ .keyword .semicolon :: vs)
      (arrayItems · = .ok (.ofSegments gs :: es)) := by
  have htail : Spelt .arrayTail (.keyword .semicolon :: vs) fun t =>
      ∀ a, segments .plain a = .ok gs →
        arrayItems (node .arrayExprs [a, t]) = .ok (.ofSegments gs :: es) := by
    refine spelt_node [.word .semicolon, .nonterm .arrayExprs] (by decide) nofun ?_
    exact speltAll_leaf (fun _ => rfl)
      (speltAll_last hmore fun _ hmore _ _ h => arrayItems_more h hmore)
  refine spelt_node [.nonterm .expr, .nonterm .arrayTail] (by decide) nofun ?_
  exact speltAll_nonterm h (speltAll_last htail fun _ htail _ h => htail _ h)

theorem spelt_paren (hfirst : Spelt .cexpr us (item · = .ok e))
    (htail : Spelt .compoundTail vs (moreItems · = .ok es)) :
    Spelt .compound (.keyword .openParen :: (us ++ (vs ++ [.keyword .closeParen])))
      (compound · = .ok (.ofItems (e :: es))) := by
  refine spelt_node [.word .openParen, .nonterm .cexpr, .nonterm .compoundTail, .word .closeParen]
    (by decide) nofun ?_
  refine speltAll_leaf (fun _ => rfl) (speltAll_nonterm hfirst (speltAll_nonterm htail ?_))
  refine speltAll_leaf (fun _ => rfl) (speltAll_nil ?_)
  exact fun _ _ htail _ hfirst _ => compound_paren hfirst htail

theorem spelt_collector (hfirst : Spelt .cexpr us (item · = .ok e))
    (htail : Spelt .compoundTail vs (moreItems · = .ok es)) :
    Spelt .compound (.keyword .openCollect :: (us ++ (vs ++ [.keyword .closeParen])))
      (compound · = .ok (.collector (e :: es))) := by
  refine spelt_node [.word .openCollect, .nonterm .cexpr, .nonterm .compoundTail,
    .word .closeParen] (by decide) nofun ?_
  refine speltAll_leaf (fun _ => rfl) (speltAll_nonterm hfirst (speltAll_nonterm htail ?_))
  refine speltAll_leaf (fun _ => rfl) (speltAll_nil ?_)
  exact fun _ _ htail _ hfirst _ => compound_collector hfirst htail

theorem spelt_noMoreItems : Spelt .compoundTail [] (moreItems · = .ok []) :=
  spelt_epsilon (by decide) nofun rfl

theorem spelt_moreItems (hfirst : Spelt .cexpr us (item · = .ok e))
    (htail : Spelt .compoundTail vs (moreItems · = .ok es)) :
    Spelt .compoundTail (.keyword .semicolon :: (us ++ vs)) (moreItems · = .ok (e :: es)) := by
  have hmore : Spelt .compoundMore (us ++ vs) fun t =>
      ∀ a, moreItems (node .compoundTail [a, t]) = .ok (e :: es) := by
    refine spelt_node [.nonterm .cexpr, .nonterm .compoundTail] (by decide) nofun ?_
    exact speltAll_nonterm hfirst
      (speltAll_last htail fun _ htail _ hfirst _ => moreItems_cons hfirst htail)
  refine spelt_node [.word .semicolon, .nonterm .compoundMore] (by decide) nofun ?_
  exact speltAll_leaf (fun _ => rfl) (speltAll_last hmore fun _ hmore _ => hmore _)

theorem spelt_lastFragment (h : Spelt .cexpr vs (item · = .ok e)) :
    Spelt .fragExprs vs (fragmentItems · = .ok [e]) := by
  have htail : Spelt .fragTail [] (· = node .fragTail [epsilon]) :=
    spelt_epsilon (by decide) nofun rfl
  refine spelt_node [.nonterm .cexpr, .nonterm .fragTail] (by decide) nofun ?_
  rw [← List.append_nil vs]
  refine speltAll_nonterm h (speltAll_last htail ?_)
  rintro _ htail _ h
  rw [htail]
  exact fragmentItems_last h

theorem spelt_fragments (hfirst : Spelt .cexpr us (item · = .ok e))
    (hmore : Spelt .fragExprs vs (fragmentItems · = .ok es)) :
    Spelt .fragExprs (us ++ .keyword .semicolon :: vs) (fragmentItems · = .ok (e :: es)) := by
  have htail : Spelt .fragTail (.keyword .semicolon :: vs) fun t =>
      ∀ a, item a = .ok e → fragmentItems (node .fragExprs [a, t]) = .ok (e :: es) := by
    refine spelt_node [.word .semicolon, .nonterm .fragExprs] (by decide) nofun ?_
    exact speltAll_leaf (fun _ => rfl)
      (speltAll_last hmore fun _ hmore _ _ h => fragmentItems_more h hmore)
  refine spelt_node [.nonterm .cexpr, .nonterm .fragTail] (by decide) nofun ?_
  exact speltAll_nonterm hfirst (speltAll_last htail fun _ htail _ h => htail _ h)

theorem spelt_fragment (h : Spelt .fragExprs vs (fragmentItems · = .ok (e :: es))) :
    Spelt .fragment vs (ofFragment · = .ok (.ofItems (e :: es))) := by
  refine spelt_node [.nonterm .fragExprs] (by decide) nofun ?_
  exact speltAll_last h fun _ h => ofFragment_items h

theorem spelt_item (h : Spelt .expr vs (segments .plain · = .ok gs)) :
    Spelt .cexpr vs (item · = .ok (.ofSegments gs)) := by
  refine spelt_node [.nonterm .expr] (by decide) nofun ?_
  exact speltAll_last h fun _ h => item_expr h

theorem spelt_declaration (hmods : Spelt .funcMods ms (hasMemo · = .ok memoized))
    (hbody : Spelt .expr vs (segments .plain · = .ok gs)) (x : String) (params : List String) :
    Spelt .cexpr
      (.keyword .bind :: (ms ++ .identifier x :: (params.map .identifier ++
        .keyword .arrow :: vs)))
      (item · = .ok (.bind (.name x) (.definition memoized x params (.ofSegments gs)))) := by
  refine spelt_node [.nonterm .letExpr] (by decide) nofun (speltAll_only ?_)
  refine spelt_node [.word .bind, .nonterm .assign] (by decide) nofun ?_
  refine speltAll_leaf (fun _ => rfl) (speltAll_only ?_)
  refine spelt_assign [.nonterm .funcMods, .id, .nonterm .argDecls, .word .arrow, .nonterm .expr]
    (by decide) (by simp [patternForm]) ?_
  refine speltAll_nonterm hmods (speltAll_leaf (fun _ => rfl) ?_)
  refine speltAll_nonterm (spelt_names params) (speltAll_leaf (fun _ => rfl) ?_)
  refine speltAll_last hbody ?_
  exact fun _ hbody _ _ hparams _ _ hmods _ => item_declaration hmods hparams hbody

theorem spelt_match {k : Keyword}
    (hpattern : Spelt .pattern (.keyword k :: us) (pattern · = .ok pat))
    (hbody : Spelt .expr vs (segments .plain · = .ok gs)) :
    Spelt .cexpr (.keyword .bind :: (.keyword k :: us ++ .keyword .arrow :: vs))
      (item · = .ok (.bind pat (.ofSegments gs))) := by
  refine spelt_node [.nonterm .letExpr] (by decide) nofun (speltAll_only ?_)
  refine spelt_node [.word .bind, .nonterm .assign] (by decide) nofun ?_
  refine speltAll_leaf (fun _ => rfl) (speltAll_only ?_)
  refine spelt_assign [.nonterm .pattern, .word .arrow, .nonterm .expr] (by decide)
    (fun _ => ⟨k, _, rfl⟩) ?_
  refine speltAll_nonterm hpattern (speltAll_leaf (fun _ => rfl) (speltAll_last hbody ?_))
  exact fun _ hbody _ _ hpattern _ => item_pattern hpattern hbody

end Productions

end ChainScript.Tree
