import ChainScript.Proofs.Expr.OfTree
import ChainScript.Proofs.Token.Lexeme
import ChainScript.Proofs.Tree.Derives

/-!
Trees further down. A derivation tree stays one when its tokens are moved, and what it is read as
does not depend on where they stand.
-/
namespace ChainScript.Tree

open Grammar ChainScript.Expr

variable {lines : Nat} {t : Tree}

mutual
/-- The tree so many lines further down. -/
def down (lines : Nat) : Tree → Tree
  | leaf t => leaf (t.down lines)
  | epsilon => epsilon
  | node n children => node n (downAll lines children)
def downAll (lines : Nat) : List Tree → List Tree
  | [] => []
  | t :: rest => down lines t :: downAll lines rest
end

theorem downAll_eq_map (lines : Nat) (ts : List Tree) : downAll lines ts = ts.map (down lines) := by
  induction ts with
  | nil => rfl
  | cons t rest ih => rw [downAll, ih, List.map_cons]

mutual
@[simp] theorem leaves_down (lines : Nat) (t : Tree) :
    (t.down lines).leaves = t.leaves.map (Token.down lines) := by
  cases t with
  | leaf token => rfl
  | epsilon => rfl
  | node n children => exact leavesAll_down lines children
@[simp] theorem leavesAll_down (lines : Nat) (ts : List Tree) :
    leavesAll (downAll lines ts) = (leavesAll ts).map (Token.down lines) := by
  match ts with
  | [] => rfl
  | t :: rest =>
    rw [downAll, leavesAll_cons, leavesAll_cons, leaves_down lines t, leavesAll_down lines rest,
      List.map_append]
end

@[simp] theorem symbol_down (lines : Nat) (t : Tree) : (t.down lines).symbol = t.symbol := by
  cases t <;> rfl

theorem map_symbol_downAll (lines : Nat) (ts : List Tree) :
    (downAll lines ts).map symbol = ts.map symbol := by
  simp [downAll_eq_map, Function.comp_def]

theorem wordAll_downAll (lines : Nat) (ts : List Tree) :
    wordAll (downAll lines ts) = wordAll ts := by
  rw [wordAll, wordAll, leavesAll_down, List.map_map]
  rfl

theorem isDerivation_down (h : t.IsDerivation) : (t.down lines).IsDerivation := by
  induction h with
  | leaf token => exact .leaf _
  | epsilon => exact .epsilon
  | @node n children rule _ ih =>
    refine .node (by rwa [map_symbol_downAll]) ?_
    intro t ht
    rw [downAll_eq_map] at ht
    obtain ⟨u, hu, rfl⟩ := List.mem_map.mp ht
    exact ih u hu

theorem declaresNames_down (h : t.DeclaresNames) : (t.down lines).DeclaresNames := by
  induction h with
  | leaf token => exact .leaf _
  | epsilon => exact .epsilon
  | @node n children choice _ ih =>
    refine .node (by rwa [wordAll_downAll, map_symbol_downAll]) ?_
    intro t ht
    rw [downAll_eq_map] at ht
    obtain ⟨u, hu, rfl⟩ := List.mem_map.mp ht
    exact ih u hu

theorem Derives.down {x : Grammar.Symbol} (h : Derives x t) (lines : Nat) :
    Derives x (t.down lines) :=
  ⟨(symbol_down lines t).trans h.root, isDerivation_down h.derivation, declaresNames_down h.names⟩

theorem paramNames_down {names : List String} (h : paramNames t = .ok names) :
    paramNames (t.down lines) = .ok names := by
  fun_induction paramNames t generalizing names with
  | case1 p name rest ih =>
    obtain ⟨rest, hrest, hdone⟩ := bind_eq_ok.mp h
    cases hdone
    exact paramNames_cons (ih hrest)
  | case2 => exact h
  | case3 => cases h

theorem hasMemo_down {memoized : Bool} (h : hasMemo t = .ok memoized) :
    hasMemo (t.down lines) = .ok memoized := by
  fun_induction hasMemo t generalizing memoized with
  | case1 p k rest ih =>
    obtain ⟨rest, hrest, hdone⟩ := bind_eq_ok.mp h
    cases hdone
    simp [down, downAll, Token.down, hasMemo, ih hrest]
  | case2 => exact h
  | case3 => cases h

theorem pattern_down {pat : Pattern} (h : pattern t = .ok pat) :
    pattern (t.down lines) = .ok pat := by
  unfold pattern at h
  split at h
  next p name => exact h
  next a p first rest c =>
    obtain ⟨names, hnames, hdone⟩ := bind_eq_ok.mp h
    cases hdone
    exact pattern_array (paramNames_down hnames)
  next => cases h

theorem slot_down {s : Option Pattern} (h : slot t = .ok s) : slot (t.down lines) = .ok s := by
  unfold slot at h
  split at h
  next a b =>
    obtain ⟨pat, hpat, hdone⟩ := bind_eq_ok.mp h
    cases hdone
    exact slot_pattern (pattern_down hpat)
  next => exact h
  next => cases h

theorem exists_node_of_segments {link : Link} {gs : List (Segment Source)}
    (h : segments link t = .ok gs) : ∃ ts, t = node .expr ts := by
  unfold segments at h
  split at h
  next => exact ⟨_, rfl⟩
  next => cases h

theorem exists_node_of_compound {e : Source} (h : compound t = .ok e) :
    ∃ ts, t = node .compound ts := by
  unfold compound at h
  split at h
  next => exact ⟨_, rfl⟩
  next => cases h

mutual
/-- The cases are those of the readers, which go on with smaller trees inside. -/
theorem item_down (t : Tree) {e : Source} (h : item t = .ok e) :
    item (t.down lines) = .ok e := by
  -- What `t` is in each case is kept for the proof of termination.
  generalize ht : t = u at h ⊢
  unfold item at h
  split at h
  next a mods p name params c body =>
    obtain ⟨memoized, hmods, h⟩ := bind_eq_ok.mp h
    obtain ⟨params, hparams, h⟩ := bind_eq_ok.mp h
    obtain ⟨gs, hbody, h⟩ := bind_eq_ok.mp h
    cases h
    exact item_declaration (hasMemo_down hmods) (paramNames_down hparams) (segments_down body hbody)
  next a p c body =>
    obtain ⟨pat, hpat, h⟩ := bind_eq_ok.mp h
    obtain ⟨gs, hbody, h⟩ := bind_eq_ok.mp h
    cases h
    simp [down, downAll, item, pattern_down hpat, segments_down body hbody]
  next e _ _ =>
    obtain ⟨gs, hbody, h⟩ := bind_eq_ok.mp h
    cases h
    obtain ⟨ts, rfl⟩ := exists_node_of_segments hbody
    exact item_expr (segments_down _ hbody)
  next => cases h
termination_by t.size
decreasing_by all_goals (simp only [ht, size, sizeAll]; omega)
theorem segments_down (t : Tree) {link : Link} {gs : List (Segment Source)}
    (h : segments link t = .ok gs) : segments link (t.down lines) = .ok gs := by
  generalize ht : t = u at h ⊢
  unfold segments at h
  split at h
  next single args cases name chain =>
    obtain ⟨func, hfunc, h⟩ := bind_eq_ok.mp h
    obtain ⟨args, hargs, h⟩ := bind_eq_ok.mp h
    obtain ⟨block, hblock, h⟩ := bind_eq_ok.mp h
    obtain ⟨s, hs, h⟩ := bind_eq_ok.mp h
    obtain ⟨rest, hrest, h⟩ := bind_eq_ok.mp h
    cases h
    exact segments_expr (operand_down _ hfunc) (operands_down _ hargs) (switchBlock_down _ hblock)
      (slot_down hs) (moreSegments_down _ hrest)
  next => cases h
termination_by t.size
decreasing_by all_goals (simp only [ht, size, sizeAll]; omega)
theorem moreSegments_down (t : Tree) {gs : List (Segment Source)} (h : moreSegments t = .ok gs) :
    moreSegments (t.down lines) = .ok gs := by
  generalize ht : t = u at h ⊢
  unfold moreSegments at h
  split at h
  next p k next =>
    split at h
    next link hlink => exact moreSegments_link hlink (segments_down _ h)
    next => cases h
  next => exact h
  next => cases h
termination_by t.size
decreasing_by all_goals (simp only [ht, size, sizeAll]; omega)
theorem operands_down (t : Tree) {es : List Source} (h : operands t = .ok es) :
    operands (t.down lines) = .ok es := by
  generalize ht : t = u at h ⊢
  unfold operands at h
  split at h
  next single rest =>
    obtain ⟨e, he, h⟩ := bind_eq_ok.mp h
    obtain ⟨es, hes, h⟩ := bind_eq_ok.mp h
    cases h
    exact operands_cons (operand_down _ he) (operands_down _ hes)
  next => exact h
  next => cases h
termination_by t.size
decreasing_by all_goals (simp only [ht, size, sizeAll]; omega)
theorem switchBlock_down (t : Tree) {block : Option (List (Source × Source))}
    (h : switchBlock t = .ok block) : switchBlock (t.down lines) = .ok block := by
  generalize ht : t = u at h ⊢
  unfold switchBlock at h
  split at h
  next a cases b =>
    obtain ⟨cs, hcs, h⟩ := bind_eq_ok.mp h
    cases h
    exact switchBlock_cases (switchCases_down _ hcs)
  next => exact h
  next => cases h
termination_by t.size
decreasing_by all_goals (simp only [ht, size, sizeAll]; omega)
theorem switchCases_down (t : Tree) {cs : List (Source × Source)} (h : switchCases t = .ok cs) :
    switchCases (t.down lines) = .ok cs := by
  generalize ht : t = u at h ⊢
  unfold switchCases at h
  split at h
  next lhs a rhs b rest =>
    obtain ⟨ls, hls, h⟩ := bind_eq_ok.mp h
    obtain ⟨rs, hrs, h⟩ := bind_eq_ok.mp h
    obtain ⟨cs, hcs, h⟩ := bind_eq_ok.mp h
    cases h
    exact switchCases_cons (segments_down _ hls) (segments_down _ hrs) (switchCases_down _ hcs)
  next => exact h
  next => cases h
termination_by t.size
decreasing_by all_goals (simp only [ht, size, sizeAll]; omega)
theorem operand_down (t : Tree) {e : Source} (h : operand t = .ok e) :
    operand (t.down lines) = .ok e := by
  generalize ht : t = u at h ⊢
  unfold operand at h
  split at h
  next => exact h
  next => exact h
  next p name sub => exact operand_name (members_down _ h)
  next head sub _ =>
    obtain ⟨base, hbase, hsub⟩ := bind_eq_ok.mp h
    obtain ⟨ts, rfl⟩ := exists_node_of_compound hbase
    exact operand_compound (compound_down _ hbase) (members_down _ hsub)
  next a items b =>
    obtain ⟨es, hes, h⟩ := bind_eq_ok.mp h
    cases h
    exact operand_array (arrayItems_down _ hes)
  next a mods p name params b fst tail c =>
    obtain ⟨memoized, hmods, h⟩ := bind_eq_ok.mp h
    obtain ⟨params, hparams, h⟩ := bind_eq_ok.mp h
    obtain ⟨e, he, h⟩ := bind_eq_ok.mp h
    obtain ⟨es, hes, h⟩ := bind_eq_ok.mp h
    cases h
    exact operand_lambda (hasMemo_down hmods) (paramNames_down hparams) (item_down _ he)
      (moreItems_down _ hes)
  next => cases h
termination_by t.size
decreasing_by all_goals (simp only [ht, size, sizeAll]; omega)
theorem members_down (t : Tree) {base e : Source} (h : members base t = .ok e) :
    members base (t.down lines) = .ok e := by
  generalize ht : t = u at h ⊢
  unfold members at h
  split at h
  next a p name rest => exact members_name (members_down _ h)
  next a inner rest _ =>
    obtain ⟨body, hbody, hrest⟩ := bind_eq_ok.mp h
    obtain ⟨ts, rfl⟩ := exists_node_of_compound hbody
    exact members_compound (compound_down _ hbody) (members_down _ hrest)
  next => exact h
  next => cases h
termination_by t.size
decreasing_by all_goals (simp only [ht, size, sizeAll]; omega)
theorem arrayItems_down (t : Tree) {es : List Source} (h : arrayItems t = .ok es) :
    arrayItems (t.down lines) = .ok es := by
  generalize ht : t = u at h ⊢
  unfold arrayItems at h
  split at h
  next e a more =>
    obtain ⟨gs, hgs, h⟩ := bind_eq_ok.mp h
    obtain ⟨es, hes, h⟩ := bind_eq_ok.mp h
    cases h
    exact arrayItems_more (segments_down _ hgs) (arrayItems_down _ hes)
  next e =>
    obtain ⟨gs, hgs, h⟩ := bind_eq_ok.mp h
    cases h
    exact arrayItems_last (segments_down _ hgs)
  next => exact h
  next => cases h
termination_by t.size
decreasing_by all_goals (simp only [ht, size, sizeAll]; omega)
theorem compound_down (t : Tree) {e : Source} (h : compound t = .ok e) :
    compound (t.down lines) = .ok e := by
  generalize ht : t = u at h ⊢
  unfold compound at h
  split at h
  next p k fst tail a =>
    obtain ⟨e, he, h⟩ := bind_eq_ok.mp h
    obtain ⟨es, hes, h⟩ := bind_eq_ok.mp h
    cases h
    simp [down, downAll, Token.down, compound, item_down _ he, moreItems_down _ hes]
  next => cases h
termination_by t.size
decreasing_by all_goals (simp only [ht, size, sizeAll]; omega)
theorem moreItems_down (t : Tree) {es : List Source} (h : moreItems t = .ok es) :
    moreItems (t.down lines) = .ok es := by
  generalize ht : t = u at h ⊢
  unfold moreItems at h
  split at h
  next a e tail =>
    obtain ⟨e, he, h⟩ := bind_eq_ok.mp h
    obtain ⟨es, hes, h⟩ := bind_eq_ok.mp h
    cases h
    exact moreItems_cons (item_down _ he) (moreItems_down _ hes)
  next => exact h
  next => exact h
  next => cases h
termination_by t.size
decreasing_by all_goals (simp only [ht, size, sizeAll]; omega)
end

theorem declaration_down {d : Declaration} (h : declaration t = .ok d) :
    declaration (t.down lines) = .ok d := by
  unfold declaration at h
  split at h
  next => exact h
  next mods p name params a body =>
    obtain ⟨memoized, hmods, h⟩ := bind_eq_ok.mp h
    obtain ⟨params, hparams, h⟩ := bind_eq_ok.mp h
    obtain ⟨gs, hbody, h⟩ := bind_eq_ok.mp h
    cases h
    exact declaration_function (hasMemo_down hmods) (paramNames_down hparams)
      (segments_down _ hbody)
  next => cases h

theorem declarations_down {ds : List Declaration} (h : declarations t = .ok ds) :
    declarations (t.down lines) = .ok ds := by
  fun_induction declarations t generalizing ds with
  | case1 d a rest ih =>
    obtain ⟨d, hd, h⟩ := bind_eq_ok.mp h
    obtain ⟨ds, hds, h⟩ := bind_eq_ok.mp h
    cases h
    exact declarations_cons (declaration_down hd) (ih hds)
  | case2 => exact h
  | case3 => cases h

end ChainScript.Tree
