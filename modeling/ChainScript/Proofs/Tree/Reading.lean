import ChainScript.Load
import ChainScript.Proofs.Expr.Normal
import ChainScript.Proofs.Expr.OfTree
import ChainScript.Proofs.Tree.Derives

/-!
Every parse can be read: a derivation tree is never malformed, and what it is read as is in normal
form. The cases are the productions of the nonterminal that a function reads.
-/
namespace ChainScript

/-- The function as the expression that makes it. -/
def Lambda.toExpr {κ : Type} (l : Lambda (Expr κ)) : Expr κ := .lambda l.name l.params l.body

/-- A declared function is in normal form. -/
def Declaration.IsNormal : Declaration → Prop
  | imports .. => True
  | defines lambda => lambda.toExpr.IsNormal

end ChainScript

namespace ChainScript.Tree

open Grammar ChainScript.Expr

variable {n : Nonterminal} {t : Tree}

/--
The tree can be read as the nonterminal. Those that are missing have no function of their own; they
are read along with the nonterminal above them.
-/
def Reads (t : Tree) : Nonterminal → Prop
  | .argDecls => ∃ names, paramNames t = .ok names
  | .funcMods => ∃ memoized, hasMemo t = .ok memoized
  | .pattern => ∃ p, pattern t = .ok p ∧ p.IsNormal
  | .slot => ∃ s, slot t = .ok s ∧ ∀ p, s = some p → p.IsNormal
  | .cexpr => ∃ e, item t = .ok e ∧ e.IsNormalItem
  | .expr => ∀ link, ∃ gs, segments link t = .ok gs ∧ AreNormalSegments link gs
  | .chain => ∃ gs, moreSegments t = .ok gs ∧ (gs = [] ∨ ∃ link, AreNormalSegments link gs)
  | .args => ∃ es, operands t = .ok es ∧ ∀ e ∈ es, e.IsNormal
  | .switch =>
    ∃ block, switchBlock t = .ok block ∧
      ∀ cs, block = some cs → ∀ c ∈ cs, c.1.IsNormal ∧ c.2.IsNormal
  | .switches => ∃ cs, switchCases t = .ok cs ∧ ∀ c ∈ cs, c.1.IsNormal ∧ c.2.IsNormal
  | .single => ∃ e, operand t = .ok e ∧ e.IsNormal
  | .sub => ∀ base : Source, base.IsNormal → ∃ e, members base t = .ok e ∧ e.IsNormal
  | .arrayExprs => ∃ es, arrayItems t = .ok es ∧ ∀ e ∈ es, e.IsNormal
  | .compound => ∃ e, compound t = .ok e ∧ e.IsNormal
  | .compoundTail => ∃ es, moreItems t = .ok es ∧ ∀ e ∈ es, e.IsNormalItem
  | .fragExprs => ∃ es, fragmentItems t = .ok es ∧ ∀ e ∈ es, e.IsNormalItem
  | .importDecl | .funcDecl => ∃ d, declaration t = .ok d ∧ d.IsNormal
  | .decls => ∃ ds, declarations t = .ok ds ∧ ∀ d ∈ ds, d.IsNormal
  | _ => True

/-- Every smaller derivation tree can be read. -/
def ReadsBelow (t : Tree) : Prop :=
  ∀ n u, u.size < t.size → Derives (.nonterm n) u → u.Reads n

/-- A tree inside one that is about to be read. -/
structure Part (x : Grammar.Symbol) (t : Tree) : Prop extends Derives x t where
  below : t.ReadsBelow
  reads {n : Nonterminal} : x = .nonterm n → t.Reads n

theorem parts_of_derives {xs : List Grammar.Symbol} {ts : List Tree} (ih : t.ReadsBelow)
    (h : List.Forall₂ Derives xs ts) (hsize : sizeAll ts < t.size) : List.Forall₂ Part xs ts := by
  induction h with
  | nil => exact .nil
  | cons hu _ hrest =>
    simp only [sizeAll] at hsize
    refine .cons ⟨hu, fun m v hv => ih m v (by omega), ?_⟩ (hrest (by omega))
    rintro m rfl
    exact ih m _ (by omega) hu

theorem Derives.parts (h : Derives (.nonterm n) t) (ih : t.ReadsBelow) :
    ∃ xs ∈ productions n, ∃ ts, t = node n ts ∧ List.Forall₂ Part xs ts := by
  obtain ⟨xs, hxs, ts, rfl, hts⟩ := h.children
  exact ⟨xs, hxs, ts, rfl, parts_of_derives ih hts (by simp only [size]; omega)⟩

theorem Part.parts (h : Part (.nonterm n) t) :
    ∃ xs ∈ productions n, ∃ ts, t = node n ts ∧ List.Forall₂ Part xs ts :=
  h.toDerives.parts h.below

theorem eq_epsilon_of_parts {ts : List Tree} (h : List.Forall₂ Part [.epsilon] ts) :
    ts = [epsilon] :=
  eq_epsilon_of_derives (h.imp fun _ _ hpart => hpart.toDerives)

theorem reads_argDecls (ih : t.ReadsBelow) (h : Derives (.nonterm .argDecls) t) :
    t.Reads .argDecls := by
  obtain ⟨xs, hxs, ts, rfl, hts⟩ := h.parts ih
  rcases List.mem_pair.mp hxs with rfl | rfl
  · obtain _ | ⟨hname, _ | ⟨hrest, ⟨⟩⟩⟩ := hts
    obtain ⟨p, x, rfl⟩ := hname.exists_identifier
    obtain ⟨names, hnames⟩ := hrest.reads rfl
    exact ⟨x :: names, paramNames_cons hnames⟩
  · obtain rfl := eq_epsilon_of_parts hts
    exact ⟨[], rfl⟩

theorem reads_funcMods (ih : t.ReadsBelow) (h : Derives (.nonterm .funcMods) t) :
    t.Reads .funcMods := by
  obtain ⟨xs, hxs, ts, rfl, hts⟩ := h.parts ih
  rcases List.mem_pair.mp hxs with rfl | rfl
  · obtain _ | ⟨hmod, _ | ⟨hrest, ⟨⟩⟩⟩ := hts
    obtain ⟨ys, hys, us, rfl, hus⟩ := hmod.parts
    obtain rfl := List.mem_singleton.mp hys
    obtain _ | ⟨hword, ⟨⟩⟩ := hus
    obtain ⟨p, rfl⟩ := hword.exists_keyword
    obtain ⟨memoized, hmemoized⟩ := hrest.reads rfl
    exact ⟨true, hasMemo_cons hmemoized⟩
  · obtain rfl := eq_epsilon_of_parts hts
    exact ⟨false, rfl⟩

theorem reads_pattern (ih : t.ReadsBelow) (h : Derives (.nonterm .pattern) t) :
    t.Reads .pattern := by
  obtain ⟨xs, hxs, ts, rfl, hts⟩ := h.parts ih
  rcases List.mem_pair.mp hxs with rfl | rfl
  · obtain _ | ⟨hname, ⟨⟩⟩ := hts
    obtain ⟨p, x, rfl⟩ := hname.exists_identifier
    exact ⟨.name x, rfl, trivial⟩
  · obtain _ | ⟨hopen, _ | ⟨hname, _ | ⟨hrest, _ | ⟨hclose, ⟨⟩⟩⟩⟩⟩ := hts
    obtain ⟨p, x, rfl⟩ := hname.exists_identifier
    obtain ⟨names, hnames⟩ := hrest.reads rfl
    exact ⟨.array (x :: names), pattern_array hnames, by simp [Pattern.IsNormal]⟩

theorem reads_slot (ih : t.ReadsBelow) (h : Derives (.nonterm .slot) t) : t.Reads .slot := by
  obtain ⟨xs, hxs, ts, rfl, hts⟩ := h.parts ih
  rcases List.mem_pair.mp hxs with rfl | rfl
  · obtain _ | ⟨hcolon, _ | ⟨hpattern, ⟨⟩⟩⟩ := hts
    obtain ⟨p, hp, hnormal⟩ := hpattern.reads rfl
    exact ⟨some p, slot_pattern hp, by simpa using hnormal⟩
  · obtain rfl := eq_epsilon_of_parts hts
    exact ⟨none, rfl, by simp⟩

/-- The first segment and those after it. -/
theorem areNormalSegments_cons {e : Source} {link : Link} {s : Option Pattern}
    {rest : List (Segment Source)} (he : e.IsNormal) (hs : ∀ p, s = some p → p.IsNormal)
    (hrest : rest = [] ∨ ∃ link, AreNormalSegments link rest) :
    AreNormalSegments link (⟨e, link, s⟩ :: rest) := by
  have hmore : ∀ g ∈ rest, g.expr.IsNormal ∧ ∀ p, g.slot = some p → p.IsNormal := by
    rcases hrest with rfl | ⟨link, hrest⟩
    · simp
    · exact fun g hg => ⟨hrest.exprs g hg, hrest.slots g hg⟩
  refine ⟨by simp, ?_, ?_, by simp⟩
  · intro g hg
    rcases List.mem_cons.mp hg with rfl | hg
    · exact he
    · exact (hmore g hg).1
  · intro g hg
    rcases List.mem_cons.mp hg with rfl | hg
    · exact hs
    · exact (hmore g hg).2

theorem reads_cexpr (ih : t.ReadsBelow) (h : Derives (.nonterm .cexpr) t) : t.Reads .cexpr := by
  obtain ⟨xs, hxs, ts, rfl, hts⟩ := h.parts ih
  rcases List.mem_pair.mp hxs with rfl | rfl
  · obtain _ | ⟨hlet, ⟨⟩⟩ := hts
    obtain ⟨ys, hys, us, rfl, hus⟩ := hlet.parts
    obtain rfl := List.mem_singleton.mp hys
    obtain _ | ⟨hword, _ | ⟨hassign, ⟨⟩⟩⟩ := hus
    obtain ⟨zs, hzs, vs, rfl, hvs⟩ := hassign.parts
    rcases List.mem_pair.mp hzs with rfl | rfl
    · obtain _ | ⟨hmods, _ | ⟨hname, _ | ⟨hparams, _ | ⟨harrow, _ | ⟨hbody, ⟨⟩⟩⟩⟩⟩⟩ := hvs
      obtain ⟨p, x, rfl⟩ := hname.exists_identifier
      obtain ⟨memoized, hmemoized⟩ := hmods.reads rfl
      obtain ⟨params, hparams⟩ := hparams.reads rfl
      obtain ⟨body, hbody, hnormal⟩ := hbody.reads rfl .plain
      refine ⟨_, item_declaration hmemoized hparams hbody, ?_⟩
      exact isNormalItem_definition memoized x params (isNormal_ofSegments hnormal)
    · obtain _ | ⟨hpattern, _ | ⟨harrow, _ | ⟨hbody, ⟨⟩⟩⟩⟩ := hvs
      obtain ⟨q, rfl⟩ := harrow.exists_keyword
      obtain ⟨p, hp, hpnormal⟩ := hpattern.reads rfl
      obtain ⟨body, hbody, hnormal⟩ := hbody.reads rfl .plain
      refine ⟨_, item_pattern hp hbody, ?_⟩
      exact .bind hpnormal (isNormal_ofSegments hnormal)
  · obtain _ | ⟨hexpr, ⟨⟩⟩ := hts
    obtain ⟨gs, hgs, hnormal⟩ := hexpr.reads rfl .plain
    obtain ⟨us, rfl⟩ := symbol_eq_nonterm hexpr.root
    exact ⟨_, item_expr hgs, .expr (isNormal_ofSegments hnormal)⟩

theorem reads_expr (ih : t.ReadsBelow) (h : Derives (.nonterm .expr) t) : t.Reads .expr := by
  obtain ⟨xs, hxs, ts, rfl, hts⟩ := h.parts ih
  obtain rfl := List.mem_singleton.mp hxs
  obtain _ | ⟨hsingle, _ | ⟨hargs, _ | ⟨hswitch, _ | ⟨hslot, _ | ⟨hchain, ⟨⟩⟩⟩⟩⟩⟩ := hts
  intro link
  obtain ⟨func, hfunc, hfnormal⟩ := hsingle.reads rfl
  obtain ⟨args, hargs, hanormal⟩ := hargs.reads rfl
  obtain ⟨cases, hcases, hcnormal⟩ := hswitch.reads rfl
  obtain ⟨s, hs, hsnormal⟩ := hslot.reads rfl
  obtain ⟨rest, hrest, hrnormal⟩ := hchain.reads rfl
  refine ⟨_, segments_expr hfunc hargs hcases hs hrest, ?_⟩
  exact areNormalSegments_cons (isNormal_switched (isNormal_applied hfnormal hanormal) hcnormal)
    hsnormal hrnormal

theorem reads_chain (ih : t.ReadsBelow) (h : Derives (.nonterm .chain) t) : t.Reads .chain := by
  obtain ⟨xs, hxs, ts, rfl, hts⟩ := h.parts ih
  simp only [productions, List.mem_cons, List.not_mem_nil, or_false] at hxs
  rcases hxs with rfl | rfl | rfl | rfl
  · obtain _ | ⟨hword, _ | ⟨hnext, ⟨⟩⟩⟩ := hts
    obtain ⟨p, rfl⟩ := hword.exists_keyword
    obtain ⟨gs, hgs, hnormal⟩ := hnext.reads rfl .plain
    exact ⟨gs, moreSegments_link rfl hgs, .inr ⟨_, hnormal⟩⟩
  · obtain _ | ⟨hword, _ | ⟨hnext, ⟨⟩⟩⟩ := hts
    obtain ⟨p, rfl⟩ := hword.exists_keyword
    obtain ⟨gs, hgs, hnormal⟩ := hnext.reads rfl .ignored
    exact ⟨gs, moreSegments_link rfl hgs, .inr ⟨_, hnormal⟩⟩
  · obtain _ | ⟨hword, _ | ⟨hnext, ⟨⟩⟩⟩ := hts
    obtain ⟨p, rfl⟩ := hword.exists_keyword
    obtain ⟨gs, hgs, hnormal⟩ := hnext.reads rfl .recover
    exact ⟨gs, moreSegments_link rfl hgs, .inr ⟨_, hnormal⟩⟩
  · obtain rfl := eq_epsilon_of_parts hts
    exact ⟨[], rfl, .inl rfl⟩

theorem reads_args (ih : t.ReadsBelow) (h : Derives (.nonterm .args) t) : t.Reads .args := by
  obtain ⟨xs, hxs, ts, rfl, hts⟩ := h.parts ih
  rcases List.mem_pair.mp hxs with rfl | rfl
  · obtain _ | ⟨hsingle, _ | ⟨hrest, ⟨⟩⟩⟩ := hts
    obtain ⟨e, he, hnormal⟩ := hsingle.reads rfl
    obtain ⟨es, hes, hnormals⟩ := hrest.reads rfl
    exact ⟨e :: es, operands_cons he hes, List.forall_mem_cons.mpr ⟨hnormal, hnormals⟩⟩
  · obtain rfl := eq_epsilon_of_parts hts
    exact ⟨[], rfl, by simp⟩

theorem reads_switch (ih : t.ReadsBelow) (h : Derives (.nonterm .switch) t) : t.Reads .switch := by
  obtain ⟨xs, hxs, ts, rfl, hts⟩ := h.parts ih
  rcases List.mem_pair.mp hxs with rfl | rfl
  · obtain _ | ⟨hopen, _ | ⟨hcases, _ | ⟨hclose, ⟨⟩⟩⟩⟩ := hts
    obtain ⟨cs, hcs, hnormal⟩ := hcases.reads rfl
    exact ⟨some cs, switchBlock_cases hcs, by simpa using hnormal⟩
  · obtain rfl := eq_epsilon_of_parts hts
    exact ⟨none, rfl, by simp⟩

theorem reads_switches (ih : t.ReadsBelow) (h : Derives (.nonterm .switches) t) :
    t.Reads .switches := by
  obtain ⟨xs, hxs, ts, rfl, hts⟩ := h.parts ih
  rcases List.mem_pair.mp hxs with rfl | rfl
  · obtain _ | ⟨hlhs, _ | ⟨harrow, _ | ⟨hrhs, _ | ⟨hsemi, _ | ⟨hrest, ⟨⟩⟩⟩⟩⟩⟩ := hts
    obtain ⟨ls, hls, hlnormal⟩ := hlhs.reads rfl .plain
    obtain ⟨rs, hrs, hrnormal⟩ := hrhs.reads rfl .plain
    obtain ⟨cs, hcs, hnormal⟩ := hrest.reads rfl
    refine ⟨_, switchCases_cons hls hrs hcs, ?_⟩
    have hcase := And.intro (isNormal_ofSegments hlnormal) (isNormal_ofSegments hrnormal)
    exact List.forall_mem_cons.mpr ⟨hcase, hnormal⟩
  · obtain rfl := eq_epsilon_of_parts hts
    exact ⟨[], rfl, by simp⟩

theorem reads_single (ih : t.ReadsBelow) (h : Derives (.nonterm .single) t) : t.Reads .single := by
  obtain ⟨xs, hxs, ts, rfl, hts⟩ := h.parts ih
  simp only [productions, List.mem_cons, List.not_mem_nil, or_false] at hxs
  rcases hxs with rfl | rfl | rfl | rfl | rfl
  · obtain _ | ⟨hnumber, ⟨⟩⟩ := hts
    obtain ⟨p, x, rfl⟩ := hnumber.exists_number
    exact ⟨.number x, rfl, .number x⟩
  · obtain _ | ⟨hstring, ⟨⟩⟩ := hts
    obtain ⟨p, s, rfl⟩ := hstring.exists_string
    exact ⟨.string s, rfl, .string s⟩
  · obtain _ | ⟨harray, ⟨⟩⟩ := hts
    obtain ⟨ys, hys, us, rfl, hus⟩ := harray.parts
    obtain rfl := List.mem_singleton.mp hys
    obtain _ | ⟨hopen, _ | ⟨hitems, _ | ⟨hclose, ⟨⟩⟩⟩⟩ := hus
    obtain ⟨es, hes, hnormal⟩ := hitems.reads rfl
    exact ⟨_, operand_array hes, .array hnormal⟩
  · obtain _ | ⟨hlambda, ⟨⟩⟩ := hts
    obtain ⟨ys, hys, us, rfl, hus⟩ := hlambda.parts
    obtain rfl := List.mem_singleton.mp hys
    obtain _ | ⟨hopen, _ | ⟨hmods, _ | ⟨hname, _ | ⟨hparams, _ | ⟨harrow, _ | ⟨hfirst,
      _ | ⟨htail, _ | ⟨hclose, ⟨⟩⟩⟩⟩⟩⟩⟩⟩⟩ := hus
    obtain ⟨p, x, rfl⟩ := hname.exists_identifier
    obtain ⟨memoized, hmemoized⟩ := hmods.reads rfl
    obtain ⟨params, hparams⟩ := hparams.reads rfl
    obtain ⟨e, he, hnormal⟩ := hfirst.reads rfl
    obtain ⟨es, hes, hnormals⟩ := htail.reads rfl
    refine ⟨_, operand_lambda hmemoized hparams he hes, ?_⟩
    exact isNormal_function memoized x params
      (isNormal_ofItems (List.forall_mem_cons.mpr ⟨hnormal, hnormals⟩) (by simp))
  · obtain _ | ⟨href, ⟨⟩⟩ := hts
    obtain ⟨ys, hys, us, rfl, hus⟩ := href.parts
    rcases List.mem_pair.mp hys with rfl | rfl
    · obtain _ | ⟨hname, _ | ⟨hsub, ⟨⟩⟩⟩ := hus
      obtain ⟨p, x, rfl⟩ := hname.exists_identifier
      obtain ⟨e, he, hnormal⟩ := hsub.reads rfl (.var x) (.var x)
      exact ⟨e, operand_name he, hnormal⟩
    · obtain _ | ⟨hcompound, _ | ⟨hsub, ⟨⟩⟩⟩ := hus
      obtain ⟨base, hbase, hbnormal⟩ := hcompound.reads rfl
      obtain ⟨e, he, hnormal⟩ := hsub.reads rfl base hbnormal
      obtain ⟨vs, rfl⟩ := symbol_eq_nonterm hcompound.root
      exact ⟨e, operand_compound hbase he, hnormal⟩

theorem reads_sub (ih : t.ReadsBelow) (h : Derives (.nonterm .sub) t) : t.Reads .sub := by
  intro base hbase
  obtain ⟨xs, hxs, ts, rfl, hts⟩ := h.parts ih
  rcases List.mem_pair.mp hxs with rfl | rfl
  · obtain _ | ⟨hdot, _ | ⟨hmember, _ | ⟨hrest, ⟨⟩⟩⟩⟩ := hts
    obtain ⟨ys, hys, us, rfl, hus⟩ := hmember.parts
    rcases List.mem_pair.mp hys with rfl | rfl
    · obtain _ | ⟨hname, ⟨⟩⟩ := hus
      obtain ⟨p, x, rfl⟩ := hname.exists_identifier
      obtain ⟨e, he, hnormal⟩ := hrest.reads rfl (.member base x) (.member hbase x)
      exact ⟨e, members_name he, hnormal⟩
    · obtain _ | ⟨hcompound, ⟨⟩⟩ := hus
      obtain ⟨body, hbody, hbnormal⟩ := hcompound.reads rfl
      obtain ⟨e, he, hnormal⟩ := hrest.reads rfl (.within base body) (.within hbase hbnormal)
      obtain ⟨vs, rfl⟩ := symbol_eq_nonterm hcompound.root
      exact ⟨e, members_compound hbody he, hnormal⟩
  · obtain rfl := eq_epsilon_of_parts hts
    exact ⟨base, rfl, hbase⟩

theorem reads_arrayExprs (ih : t.ReadsBelow) (h : Derives (.nonterm .arrayExprs) t) :
    t.Reads .arrayExprs := by
  obtain ⟨xs, hxs, ts, rfl, hts⟩ := h.parts ih
  rcases List.mem_pair.mp hxs with rfl | rfl
  · obtain _ | ⟨hexpr, _ | ⟨htail, ⟨⟩⟩⟩ := hts
    obtain ⟨gs, hgs, hnormal⟩ := hexpr.reads rfl .plain
    obtain ⟨ys, hys, us, rfl, hus⟩ := htail.parts
    rcases List.mem_pair.mp hys with rfl | rfl
    · obtain _ | ⟨hsemi, _ | ⟨hmore, ⟨⟩⟩⟩ := hus
      obtain ⟨es, hes, hnormals⟩ := hmore.reads rfl
      refine ⟨_, arrayItems_more hgs hes, ?_⟩
      exact List.forall_mem_cons.mpr ⟨isNormal_ofSegments hnormal, hnormals⟩
    · obtain rfl := eq_epsilon_of_parts hus
      exact ⟨_, arrayItems_last hgs, by simpa using isNormal_ofSegments hnormal⟩
  · obtain rfl := eq_epsilon_of_parts hts
    exact ⟨[], rfl, by simp⟩

theorem reads_compound (ih : t.ReadsBelow) (h : Derives (.nonterm .compound) t) :
    t.Reads .compound := by
  obtain ⟨xs, hxs, ts, rfl, hts⟩ := h.parts ih
  rcases List.mem_pair.mp hxs with rfl | rfl
  · obtain _ | ⟨hopen, _ | ⟨hfirst, _ | ⟨htail, _ | ⟨hclose, ⟨⟩⟩⟩⟩⟩ := hts
    obtain ⟨p, rfl⟩ := hopen.exists_keyword
    obtain ⟨e, he, hnormal⟩ := hfirst.reads rfl
    obtain ⟨es, hes, hnormals⟩ := htail.reads rfl
    refine ⟨_, compound_paren he hes, ?_⟩
    exact isNormal_ofItems (List.forall_mem_cons.mpr ⟨hnormal, hnormals⟩) (by simp)
  · obtain _ | ⟨hopen, _ | ⟨hfirst, _ | ⟨htail, _ | ⟨hclose, ⟨⟩⟩⟩⟩⟩ := hts
    obtain ⟨p, rfl⟩ := hopen.exists_keyword
    obtain ⟨e, he, hnormal⟩ := hfirst.reads rfl
    obtain ⟨es, hes, hnormals⟩ := htail.reads rfl
    refine ⟨_, compound_collector he hes, ?_⟩
    exact .collector (List.forall_mem_cons.mpr ⟨hnormal, hnormals⟩) (by simp)

theorem reads_compoundTail (ih : t.ReadsBelow) (h : Derives (.nonterm .compoundTail) t) :
    t.Reads .compoundTail := by
  obtain ⟨xs, hxs, ts, rfl, hts⟩ := h.parts ih
  rcases List.mem_pair.mp hxs with rfl | rfl
  · obtain _ | ⟨hsemi, _ | ⟨hmore, ⟨⟩⟩⟩ := hts
    obtain ⟨ys, hys, us, rfl, hus⟩ := hmore.parts
    rcases List.mem_pair.mp hys with rfl | rfl
    · obtain _ | ⟨hitem, _ | ⟨htail, ⟨⟩⟩⟩ := hus
      obtain ⟨e, he, hnormal⟩ := hitem.reads rfl
      obtain ⟨es, hes, hnormals⟩ := htail.reads rfl
      exact ⟨e :: es, moreItems_cons he hes, List.forall_mem_cons.mpr ⟨hnormal, hnormals⟩⟩
    · obtain rfl := eq_epsilon_of_parts hus
      exact ⟨[], rfl, by simp⟩
  · obtain rfl := eq_epsilon_of_parts hts
    exact ⟨[], rfl, by simp⟩

theorem reads_fragExprs (ih : t.ReadsBelow) (h : Derives (.nonterm .fragExprs) t) :
    t.Reads .fragExprs := by
  obtain ⟨xs, hxs, ts, rfl, hts⟩ := h.parts ih
  rcases List.mem_pair.mp hxs with rfl | rfl
  · obtain _ | ⟨hitem, _ | ⟨htail, ⟨⟩⟩⟩ := hts
    obtain ⟨e, he, hnormal⟩ := hitem.reads rfl
    obtain ⟨ys, hys, us, rfl, hus⟩ := htail.parts
    rcases List.mem_pair.mp hys with rfl | rfl
    · obtain _ | ⟨hsemi, _ | ⟨hmore, ⟨⟩⟩⟩ := hus
      obtain ⟨es, hes, hnormals⟩ := hmore.reads rfl
      exact ⟨_, fragmentItems_more he hes, List.forall_mem_cons.mpr ⟨hnormal, hnormals⟩⟩
    · obtain rfl := eq_epsilon_of_parts hus
      exact ⟨_, fragmentItems_last he, by simpa using hnormal⟩
  · obtain rfl := eq_epsilon_of_parts hts
    exact ⟨[], rfl, by simp⟩

theorem reads_importDecl (ih : t.ReadsBelow) (h : Derives (.nonterm .importDecl) t) :
    t.Reads .importDecl := by
  obtain ⟨xs, hxs, ts, rfl, hts⟩ := h.parts ih
  obtain rfl := List.mem_singleton.mp hxs
  obtain _ | ⟨hpath, _ | ⟨harrow, _ | ⟨hname, ⟨⟩⟩⟩⟩ := hts
  obtain ⟨p, path, rfl⟩ := hpath.exists_string
  obtain ⟨q, x, rfl⟩ := hname.exists_identifier
  exact ⟨.imports path x, rfl, trivial⟩

theorem reads_funcDecl (ih : t.ReadsBelow) (h : Derives (.nonterm .funcDecl) t) :
    t.Reads .funcDecl := by
  obtain ⟨xs, hxs, ts, rfl, hts⟩ := h.parts ih
  obtain rfl := List.mem_singleton.mp hxs
  obtain _ | ⟨hmods, _ | ⟨hname, _ | ⟨hparams, _ | ⟨harrow, _ | ⟨hbody, ⟨⟩⟩⟩⟩⟩⟩ := hts
  obtain ⟨p, x, rfl⟩ := hname.exists_identifier
  obtain ⟨memoized, hmemoized⟩ := hmods.reads rfl
  obtain ⟨params, hparams⟩ := hparams.reads rfl
  obtain ⟨body, hbody, hnormal⟩ := hbody.reads rfl .plain
  refine ⟨_, declaration_function hmemoized hparams hbody, ?_⟩
  exact isNormal_function memoized x params (isNormal_ofSegments hnormal)

theorem reads_decls (ih : t.ReadsBelow) (h : Derives (.nonterm .decls) t) : t.Reads .decls := by
  obtain ⟨xs, hxs, ts, rfl, hts⟩ := h.parts ih
  rcases List.mem_pair.mp hxs with rfl | rfl
  · obtain _ | ⟨hdecl, _ | ⟨hrest, ⟨⟩⟩⟩ := hts
    obtain ⟨ds, hds, hnormals⟩ := hrest.reads rfl
    obtain ⟨ys, hys, us, rfl, hus⟩ := hdecl.parts
    rcases List.mem_pair.mp hys with rfl | rfl
    · obtain _ | ⟨himport, _ | ⟨hsemi, ⟨⟩⟩⟩ := hus
      obtain ⟨d, hd, hnormal⟩ := himport.reads rfl
      exact ⟨_, declarations_cons hd hds, List.forall_mem_cons.mpr ⟨hnormal, hnormals⟩⟩
    · obtain _ | ⟨hfunc, _ | ⟨hsemi, ⟨⟩⟩⟩ := hus
      obtain ⟨d, hd, hnormal⟩ := hfunc.reads rfl
      exact ⟨_, declarations_cons hd hds, List.forall_mem_cons.mpr ⟨hnormal, hnormals⟩⟩
  · obtain rfl := eq_epsilon_of_parts hts
    exact ⟨[], rfl, by simp⟩

theorem reads_of_derives (h : Derives (.nonterm n) t) : t.Reads n := by
  induction hsize : t.size using Nat.strong_induction_on generalizing t n with
  | _ size hbelow =>
    subst hsize
    have ih : t.ReadsBelow := fun m u hu hm => hbelow u.size hu hm rfl
    cases n with
    | argDecls => exact reads_argDecls ih h
    | funcMods => exact reads_funcMods ih h
    | pattern => exact reads_pattern ih h
    | slot => exact reads_slot ih h
    | cexpr => exact reads_cexpr ih h
    | expr => exact reads_expr ih h
    | chain => exact reads_chain ih h
    | args => exact reads_args ih h
    | switch => exact reads_switch ih h
    | switches => exact reads_switches ih h
    | single => exact reads_single ih h
    | sub => exact reads_sub ih h
    | arrayExprs => exact reads_arrayExprs ih h
    | compound => exact reads_compound ih h
    | compoundTail => exact reads_compoundTail ih h
    | fragExprs => exact reads_fragExprs ih h
    | importDecl => exact reads_importDecl ih h
    | funcDecl => exact reads_funcDecl ih h
    | decls => exact reads_decls ih h
    | _ => trivial

end ChainScript.Tree

namespace ChainScript

open Grammar ChainScript.Tree

theorem Script.exists_normal_ofTree {t : Tree} (h : Derives (.nonterm .script) t) :
    ∃ script, Script.ofTree t = .ok script ∧ ∀ d ∈ script, d.IsNormal := by
  obtain ⟨xs, hxs, ts, rfl, hts⟩ := h.children
  obtain rfl := List.mem_singleton.mp hxs
  obtain _ | ⟨hdecls, ⟨⟩⟩ := hts
  exact reads_of_derives hdecls

theorem Script.exists_ofTree {t : Tree} (h : Derives (.nonterm .script) t) :
    ∃ script, Script.ofTree t = .ok script := by
  obtain ⟨script, hscript, -⟩ := Script.exists_normal_ofTree h
  exact ⟨script, hscript⟩

/-- A fragment is the empty array or in normal form. -/
theorem Expr.exists_ofFragment {t : Tree} (h : Derives (.nonterm .fragment) t) :
    ∃ e, ofFragment t = .ok e ∧ (e = .empty ∨ e.IsNormal) := by
  obtain ⟨xs, hxs, ts, rfl, hts⟩ := h.children
  obtain rfl := List.mem_singleton.mp hxs
  obtain _ | ⟨hitems, ⟨⟩⟩ := hts
  obtain ⟨es, hes, hnormal⟩ := reads_of_derives hitems
  cases es with
  | nil => exact ⟨.empty, by simp [ofFragment, hes], .inl rfl⟩
  | cons e es => exact ⟨_, ofFragment_items hes, .inr (isNormal_ofItems hnormal (by simp))⟩

namespace Script

variable {τ : Type}

theorem bind_of_eq {α β : Type} {x : StateT Nat (StateM τ) α} {f : α → StateT Nat (StateM τ) β}
    {next next' : Nat} {state state' : τ} {a : α} (h : x next state = ((a, next'), state')) :
    (x >>= f) next state = f a next' state' := by
  simp only [bind, StateT.bind, h]

/-- Collecting declarations stops early only if an import is refused. -/
theorem collect_ok_or_refused (importer : Importer (StateM τ)) (script : Script) (draft : Draft)
    (next : Nat) (state : τ) :
    ∃ r next' state', collect importer script draft next state = ((r, next'), state') ∧
      ((∃ draft', r = .ok draft') ∨ ∃ path e, r = .error (.importRefused path e)) := by
  induction script generalizing draft next state with
  | nil => exact ⟨.ok draft, next, state, rfl, .inl ⟨draft, rfl⟩⟩
  | cons d rest ih =>
    cases d with
    | imports path name =>
      obtain ⟨⟨⟨r, next₁⟩, state₁⟩, hr⟩ : ∃ q, importer path next state = q := ⟨_, rfl⟩
      cases r with
      | error e =>
        refine ⟨.error (.importRefused path e), next₁, state₁, ?_, .inr ⟨path, e, rfl⟩⟩
        exact bind_of_eq hr
      | ok module =>
        obtain ⟨r, next', state', hrest, hcase⟩ := ih (draft.addImport name module) next₁ state₁
        refine ⟨r, next', state', ?_, hcase⟩
        exact (bind_of_eq hr).trans hrest
    | defines lambda =>
      obtain ⟨r, next', state', hrest, hcase⟩ :=
        ih (draft.addFunction (lambda.allot next).1) (lambda.allot next).2 state
      exact ⟨r, next', state', hrest, hcase⟩

theorem link_ok_or_refused (importer : Importer (StateM τ)) (script : Script) (next : Nat)
    (state : τ) :
    ∃ r next' state', script.link importer next state = ((r, next'), state') ∧
      ((∃ module, r = .ok module) ∨ ∃ path e, r = .error (.importRefused path e)) := by
  obtain ⟨r, next', state', hrun, hcase⟩ := collect_ok_or_refused importer script .empty next state
  rcases hcase with ⟨draft, rfl⟩ | ⟨path, e, rfl⟩
  · exact ⟨.ok ⟨next', draft.imports, draft.decls⟩, next' + 1, state', bind_of_eq hrun,
      .inl ⟨_, rfl⟩⟩
  · exact ⟨.error (.importRefused path e), next', state', bind_of_eq hrun, .inr ⟨path, e, rfl⟩⟩

end Script

namespace Tree

theorem exists_of_isSome {r : Except ParseError Tree} (h : r.toOption.isSome = true) :
    ∃ t, r = .ok t := by
  cases r with
  | error e => cases h
  | ok t => exact ⟨t, rfl⟩

/--
No parse is malformed: a parsed script is read, and linked or stopped by a refused import, and a
parsed fragment is read.
-/
theorem parse_never_malformed (source : String) :
    (∀ t, parseScript source = .ok t → ∃ script, Script.ofTree t = .ok script ∧
      ∀ (τ : Type) (importer : Importer (StateM τ)) (next : Nat) (state : τ),
        ∃ r next' state', ((script.link importer).run next).run state = ((r, next'), state') ∧
          ((∃ module, r = .ok module) ∨ ∃ path e, r = .error (.importRefused path e))) ∧
    ∀ t, parseFragment source = .ok t → ∃ e, Expr.ofFragment t = .ok e := by
  constructor
  · intro t ht
    obtain ⟨script, hscript⟩ := Script.exists_ofTree (derives_of_parse ht)
    exact ⟨script, hscript, fun τ importer => Script.link_ok_or_refused importer script⟩
  · intro t ht
    obtain ⟨e, he, -⟩ := Expr.exists_ofFragment (derives_of_parse ht)
    exact ⟨e, he⟩

theorem parse_never_malformed_import :
    (∃ t script, parseScript "'lib' => lib; memo f x => lib.f x;" = .ok t ∧
      Script.ofTree t = .ok script) ∧
    ∃ t e, parseFragment "let [x y] => z; (@ memo f => x) y : a -- (| 'b')" = .ok t ∧
      Expr.ofFragment t = .ok e := by
  obtain ⟨t, ht⟩ : ∃ t, parseScript "'lib' => lib; memo f x => lib.f x;" = .ok t :=
    exists_of_isSome (by decide +kernel)
  obtain ⟨u, hu⟩ : ∃ u,
      parseFragment "let [x y] => z; (@ memo f => x) y : a -- (| 'b')" = .ok u :=
    exists_of_isSome (by decide +kernel)
  obtain ⟨script, hscript, -⟩ := (parse_never_malformed _).1 t ht
  obtain ⟨e, he⟩ := (parse_never_malformed _).2 u hu
  exact ⟨⟨t, script, ht, hscript⟩, u, e, hu, he⟩

end Tree

end ChainScript
