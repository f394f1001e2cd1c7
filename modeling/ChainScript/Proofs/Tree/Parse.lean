import ChainScript.Proofs.Grammar.Predict
import ChainScript.Tree.Parse

/-!
The parser accepts the words of the grammar and no others. A parse consumes the leaves of its tree
and follows any derivation tree in which names are declared; the bound on nested expansions is never
met, since only nonterminals of smaller rank are expanded before the next token is consumed.
-/
namespace ChainScript

namespace TokenStream

/-- The stream with more tokens in front. -/
def prepend : List Token → TokenStream → TokenStream
  | [], s => s
  | t :: tokens, s => token t (prepend tokens s)

@[simp] theorem prepend_nil (s : TokenStream) : prepend [] s = s := rfl

@[simp] theorem prepend_cons (t : Token) (tokens : List Token) (s : TokenStream) :
    prepend (t :: tokens) s = token t (prepend tokens s) := rfl

theorem prepend_append (tokens tokens' : List Token) (s : TokenStream) :
    prepend (tokens ++ tokens') s = prepend tokens (prepend tokens' s) := by
  induction tokens with
  | nil => rfl
  | cons t tokens ih => simp [ih]

theorem toList_prepend (tokens : List Token) (s : TokenStream) :
    (prepend tokens s).toList = tokens ++ s.toList := by
  induction tokens with
  | nil => rfl
  | cons t tokens ih => simp [toList, ih]

theorem fault_prepend (tokens : List Token) (s : TokenStream) :
    (prepend tokens s).fault = s.fault := by
  induction tokens with
  | nil => rfl
  | cons t tokens ih => simp [fault, ih]

/-- A stream without a fault is its tokens and a proper end. -/
theorem eq_prepend_finished {s : TokenStream} (h : s.fault = none) :
    s = prepend s.toList (finished s.reached) := by
  induction s with
  | token t rest ih =>
    have hrest := ih h
    simpa [toList, reached] using hrest
  | finished p => rfl
  | unclosed p => simp [fault] at h

end TokenStream

namespace Tree

open Grammar

variable {bound : Nat} {n start : Nonterminal} {x : Grammar.Symbol} {xs : List Grammar.Symbol}
  {s s' : TokenStream} {t : Tree} {ts : List Tree}

theorem parseAll_cons_eq_ok {parseOne : Grammar.Symbol → TokenStream → Outcome Tree} :
    parseAll parseOne (x :: xs) s = some (.ok (ts, s')) ↔
      ∃ t rest ts', parseOne x s = some (.ok (t, rest)) ∧
        parseAll parseOne xs rest = some (.ok (ts', s')) ∧ ts = t :: ts' := by
  simp only [parseAll]
  constructor
  · intro h
    split at h
    · simp at h
    · simp at h
    · split at h
      · simp at h
      · simp at h
      · rename_i t rest hone _ ts' s'' hall
        obtain ⟨rfl, rfl⟩ : t :: ts' = ts ∧ s'' = s' := by simpa using h
        exact ⟨t, rest, ts', hone, hall, rfl⟩
  · rintro ⟨t, rest, ts', hone, hall, rfl⟩
    simp [hone, hall]

/-- One expansion, unless the stream stands at its fault. -/
theorem parseSymbol_succ (hs : ∀ q, s ≠ .unclosed q) :
    parseSymbol (bound + 1) (.nonterm n) s =
      match expand? n (.ofStream s) with
      | none => some (.error (refuse n s))
      | some xs =>
        match parseAll (parseSymbol bound) xs s with
        | none => none
        | some (.error e) => some (.error e)
        | some (.ok (children, s)) => some (.ok (node n children, s)) := by
  cases s with
  | unclosed q => exact (hs q rfl).elim
  | _ => rfl

/-- An expansion that succeeds parses the right side that the lookahead selects. -/
theorem parseSymbol_nonterm_eq_ok :
    parseSymbol bound (.nonterm n) s = some (.ok (t, s')) →
      ∃ bound' xs children, bound = bound' + 1 ∧ expand? n (.ofStream s) = some xs ∧
        parseAll (parseSymbol bound') xs s = some (.ok (children, s')) ∧ t = node n children := by
  intro h
  cases bound with
  | zero => cases s <;> simp [parseSymbol] at h
  | succ bound' =>
    have hs : ∀ q, s ≠ .unclosed q := by
      rintro q rfl
      simp [parseSymbol] at h
    rw [parseSymbol_succ hs] at h
    split at h
    · simp at h
    · rename_i xs hxs
      split at h
      · simp at h
      · simp at h
      · rename_i children s'' hall
        obtain ⟨rfl, rfl⟩ : node n children = t ∧ s'' = s' := by simpa using h
        exact ⟨bound', xs, children, rfl, hxs, hall, rfl⟩

/-- What a successful parse of the right side `xs` from `s` to `s'` yields. -/
structure Spells (xs : List Grammar.Symbol) (s : TokenStream) (ts : List Tree) (s' : TokenStream) :
    Prop where
  symbols : ts.map symbol = xs
  derivations : ∀ t ∈ ts, t.IsDerivation
  names : ∀ t ∈ ts, t.DeclaresNames
  consumed : s = .prepend (leavesAll ts) s'

theorem spells_of_parseAll {parseOne : Grammar.Symbol → TokenStream → Outcome Tree}
    (hone : ∀ x s t s', parseOne x s = some (.ok (t, s')) → Spells [x] s [t] s')
    (h : parseAll parseOne xs s = some (.ok (ts, s'))) : Spells xs s ts s' := by
  induction xs generalizing s ts with
  | nil =>
    obtain ⟨rfl, rfl⟩ : [] = ts ∧ s = s' := by simpa [parseAll] using h
    exact ⟨rfl, by simp, by simp, rfl⟩
  | cons x xs ih =>
    obtain ⟨t, rest, ts, ht, hts, rfl⟩ := parseAll_cons_eq_ok.mp h
    have hfirst := hone x s t rest ht
    have hrest := ih hts
    refine ⟨?_, ?_, ?_, ?_⟩
    · have hx : t.symbol = x := by simpa using hfirst.symbols
      simp [hx, hrest.symbols]
    · intro u hu
      rcases List.mem_cons.mp hu with rfl | hu
      · exact hfirst.derivations u (by simp)
      · exact hrest.derivations u hu
    · intro u hu
      rcases List.mem_cons.mp hu with rfl | hu
      · exact hfirst.names u (by simp)
      · exact hrest.names u hu
    · have hs : s = .prepend t.leaves rest := by simpa using hfirst.consumed
      rw [leavesAll_cons, TokenStream.prepend_append, ← hrest.consumed, hs]

/-- The lookahead is the first token of what is consumed, if anything is. -/
theorem Spells.ofStream_eq (h : Spells xs s ts s') {token : Token} {tokens : List Token}
    (hleaves : leavesAll ts = token :: tokens) :
    Lookahead.ofStream s = .term (.ofToken token) := by
  rw [h.consumed, hleaves]
  rfl

/-- A pattern is chosen only in front of a bracket. -/
theorem Spells.declares (h : Spells xs s ts s') (hx : expand? n (.ofStream s) = some xs) :
    n = .assign → (wordAll ts).head? = some .id → ts.map symbol ≠ patternForm := by
  rintro rfl hid hform
  obtain ⟨token, tokens, hleaves⟩ : ∃ token tokens, leavesAll ts = token :: tokens := by
    cases hl : leavesAll ts with
    | nil => simp [wordAll, hl] at hid
    | cons token tokens => exact ⟨token, tokens, rfl⟩
  have htoken : Terminal.ofToken token = .id := by simpa [wordAll, hleaves] using hid
  rw [h.ofStream_eq hleaves, htoken, ← h.symbols, hform] at hx
  exact expand?_assign_id hx

/-- A terminal consumes one token, the empty expansion none. -/
theorem spells_leaf (hx : ∀ n, x ≠ .nonterm n)
    (h : parseSymbol bound x s = some (.ok (t, s'))) : Spells [x] s [t] s' := by
  cases x with
  | nonterm n => exact (hx n rfl).elim
  | epsilon =>
    obtain ⟨rfl, rfl⟩ : epsilon = t ∧ s = s' := by
      cases s with
      | unclosed q => simp [parseSymbol] at h
      | _ => simpa [parseSymbol] using h
    exact ⟨rfl, by simpa using .epsilon, by simpa using .epsilon, rfl⟩
  | term a =>
    cases s with
    | unclosed q => simp [parseSymbol] at h
    | finished p => simp [parseSymbol] at h
    | token token rest =>
      rw [parseSymbol] at h
      split at h
      · rename_i ha
        obtain ⟨rfl, rfl⟩ : leaf token = t ∧ rest = s' := by simpa using h
        have ha : Terminal.ofToken token = a := by simpa [Terminal.accepts] using ha
        exact ⟨by simp [ha], by simpa using .leaf token, by simpa using .leaf token, rfl⟩
      · simp at h

theorem spells_of_parseSymbol (h : parseSymbol bound x s = some (.ok (t, s'))) :
    Spells [x] s [t] s' := by
  induction bound generalizing x s t s' with
  | zero =>
    cases x with
    | nonterm n =>
      obtain ⟨_, _, _, hbound, _⟩ := parseSymbol_nonterm_eq_ok h
      omega
    | _ => exact spells_leaf (by simp) h
  | succ bound ih =>
    cases x with
    | nonterm n =>
      obtain ⟨_, xs, children, hbound, hx, hall, rfl⟩ := parseSymbol_nonterm_eq_ok h
      obtain rfl := Nat.succ.inj hbound
      have hparts := spells_of_parseAll (fun _ _ _ _ => ih) hall
      refine ⟨rfl, ?_, ?_, by simpa using hparts.consumed⟩
      · have hrule := hparts.symbols ▸ expand?_mem_productions hx
        simpa using IsDerivation.node hrule hparts.derivations
      · simpa using DeclaresNames.node (hparts.declares hx) hparts.names
    | _ => exact spells_leaf (by simp) h

theorem parseAll_mono {f g : Grammar.Symbol → TokenStream → Outcome Tree}
    (h : ∀ x s r, f x s = some r → g x s = some r) {r : Except ParseError (List Tree × TokenStream)}
    (hr : parseAll f xs s = some r) : parseAll g xs s = some r := by
  induction xs generalizing s r with
  | nil => exact hr
  | cons x xs ih =>
    simp only [parseAll] at hr ⊢
    cases hf : f x s with
    | none => simp [hf] at hr
    | some q =>
      rw [hf] at hr
      rw [h x s q hf]
      cases q with
      | error e => exact hr
      | ok q =>
        obtain ⟨t, rest⟩ := q
        simp only at hr ⊢
        cases hall : parseAll f xs rest with
        | none => simp [hall] at hr
        | some q' =>
          rw [hall] at hr
          rw [ih hall]
          exact hr

/-- A larger bound keeps a result. -/
theorem parseSymbol_mono {bound' : Nat} (hle : bound ≤ bound')
    {r : Except ParseError (Tree × TokenStream)} (hr : parseSymbol bound x s = some r) :
    parseSymbol bound' x s = some r := by
  induction bound generalizing bound' x s r with
  | zero => cases x <;> cases s <;> simp_all [parseSymbol]
  | succ bound ih =>
    obtain ⟨bound', rfl⟩ : ∃ k, bound' = k + 1 := ⟨bound' - 1, by omega⟩
    have hmono : ∀ x s r, parseSymbol bound x s = some r → parseSymbol bound' x s = some r :=
      fun _ _ _ h => ih (by omega) h
    cases x with
    | term a => cases s <;> simpa [parseSymbol] using hr
    | epsilon => cases s <;> simpa [parseSymbol] using hr
    | nonterm n =>
      by_cases hs : ∃ q, s = .unclosed q
      · obtain ⟨q, rfl⟩ := hs
        simpa [parseSymbol] using hr
      · have hs : ∀ q, s ≠ .unclosed q := fun q he => hs ⟨q, he⟩
        rw [parseSymbol_succ hs] at hr ⊢
        cases hx : expand? n (.ofStream s) with
        | none => simpa [hx] using hr
        | some xs =>
          simp only [hx] at hr ⊢
          cases hall : parseAll (parseSymbol bound) xs s with
          | none => simp [hall] at hr
          | some q =>
            rw [hall] at hr
            rw [parseAll_mono hmono hall]
            exact hr

/-- Terminals and empty expansions need no bound. -/
theorem parseSymbol_ne_none (hx : ∀ n, x ≠ .nonterm n) : parseSymbol bound x s ≠ none := by
  cases x with
  | nonterm n => exact (hx n rfl).elim
  | epsilon => cases s <;> simp [parseSymbol]
  | term a =>
    cases s with
    | token t rest =>
      simp only [parseSymbol]
      split <;> simp
    | _ => simp [parseSymbol]

/-- A parse of several symbols has a result if each of the parses it consists of has one. -/
theorem parseAll_cons_ne_none {parseOne : Grammar.Symbol → TokenStream → Outcome Tree}
    (hone : parseOne x s ≠ none)
    (hall : ∀ t rest, parseOne x s = some (.ok (t, rest)) → parseAll parseOne xs rest ≠ none) :
    parseAll parseOne (x :: xs) s ≠ none := by
  simp only [parseAll]
  cases hf : parseOne x s with
  | none => exact (hone hf).elim
  | some q =>
    cases q with
    | error e => simp
    | ok q =>
      have hrest := hall q.1 q.2 hf
      cases hg : parseAll parseOne xs q.2 with
      | none => exact (hrest hg).elim
      | some r => cases r <;> simp [hg]

section Bound

variable (ih : ∀ {n s}, Nonterminal.all.length * s.toList.length + rank n < bound →
  parseSymbol bound (.nonterm n) s ≠ none)

include ih

/-- Behind a consumed token any nonterminal may be expanded. -/
theorem parseAll_ne_none (hs : Nonterminal.all.length * (s.toList.length + 1) ≤ bound) :
    parseAll (parseSymbol bound) xs s ≠ none := by
  induction xs generalizing s with
  | nil => simp [parseAll]
  | cons x xs ihxs =>
    apply parseAll_cons_ne_none
    · cases x with
      | nonterm n =>
        have hrank := rank_lt n
        exact ih (by rw [Nat.mul_add] at hs; omega)
      | _ => exact parseSymbol_ne_none (by simp)
    · intro t rest ht
      have hspells := spells_of_parseSymbol ht
      have hlen : rest.toList.length ≤ s.toList.length := by
        rw [hspells.consumed, TokenStream.toList_prepend, List.length_append]
        omega
      exact ihxs (Nat.le_trans (Nat.mul_le_mul_left _ (by omega)) hs)

/-- Before that, ranks go down. -/
theorem parseAll_ne_none_of_rankedBelow {r : Nat} (hxs : rankedBelow r xs = true)
    (hs : Nonterminal.all.length * s.toList.length + r ≤ bound) :
    parseAll (parseSymbol bound) xs s ≠ none := by
  induction xs generalizing s with
  | nil => simp [parseAll]
  | cons x xs ihxs =>
    apply parseAll_cons_ne_none
    · cases x with
      | nonterm n =>
        have hrank : rank n < r := by simp_all [rankedBelow]
        exact ih (by omega)
      | _ => exact parseSymbol_ne_none (by simp)
    · intro t rest ht
      have hspells := spells_of_parseSymbol ht
      have hconsumed : s = .prepend t.leaves rest := by simpa using hspells.consumed
      cases hleaves : t.leaves with
      | nil =>
        have hroot : t.symbol = x := by simpa using hspells.symbols
        have hnull := (hspells.derivations t (by simp)).nullable hleaves
        have hrest : rankedBelow r xs = true := by
          cases x <;> simp_all [rankedBelow, Symbol.nullable]
        rw [hleaves, TokenStream.prepend_nil] at hconsumed
        exact ihxs hrest (hconsumed ▸ hs)
      | cons token tokens =>
        apply parseAll_ne_none ih
        rw [hconsumed, hleaves, TokenStream.toList_prepend, List.length_append,
          List.length_cons] at hs
        refine Nat.le_trans (Nat.mul_le_mul_left _ ?_) (Nat.le_trans (Nat.le_add_right _ _) hs)
        omega

end Bound

theorem parseSymbol_nonterm_ne_none
    (h : Nonterminal.all.length * s.toList.length + rank n < bound) :
    parseSymbol bound (.nonterm n) s ≠ none := by
  induction bound generalizing n s with
  | zero => omega
  | succ bound ih =>
    by_cases hs : ∃ q, s = .unclosed q
    · obtain ⟨q, rfl⟩ := hs
      simp [parseSymbol]
    · rw [parseSymbol_succ fun q he => hs ⟨q, he⟩]
      cases hx : expand? n (.ofStream s) with
      | none => simp
      | some xs =>
        have hall := parseAll_ne_none_of_rankedBelow ih
          (productions_rankedBelow n xs (expand?_mem_productions hx))
          (Nat.le_of_lt_succ h)
        cases hq : parseAll (parseSymbol bound) xs s with
        | none => exact (hall hq).elim
        | some q => cases q <;> simp [hq]

theorem parseSymbol_depthBound_ne_none (n : Nonterminal) (s : TokenStream) :
    parseSymbol (depthBound s) (.nonterm n) s ≠ none := by
  have hrank := rank_lt n
  apply parseSymbol_nonterm_ne_none
  rw [depthBound, Nat.mul_add]
  omega

/-- In front of what may follow, the parser selects the production that a tree spells. -/
theorem expand?_eq_symbols (rule : ts.map symbol ∈ productions n)
    (parts : ∀ t ∈ ts, t.IsDerivation)
    (choice : n = .assign → (wordAll ts).head? = some .id → ts.map symbol ≠ patternForm)
    (hs : Lookahead.ofStream s ∈ follow n) :
    expand? n (.ofStream (.prepend (leavesAll ts) s)) = some (ts.map symbol) := by
  cases hleaves : leavesAll ts with
  | nil =>
    have hnull := nullableAll_of_leavesAll (fun t ht => (parts t ht).nullable) hleaves
    exact expand?_of_mem_follow n _ rule hnull _ hs
  | cons token tokens =>
    have hfirst := mem_firstAll_of_leavesAll parts (fun t ht _ _ => (parts t ht).mem_first) hleaves
    rcases expand?_of_mem_firstAll n _ rule _ hfirst with hx | ⟨hn, hform, hid⟩
    · exact hx
    · have htoken : Terminal.ofToken token = .id := by simpa [Lookahead.id] using hid
      exact (choice hn (by simp [wordAll, hleaves, htoken]) hform).elim

/-- What follows a part of a right side is the rest of it, or what follows the whole. -/
theorem ofStream_mem_follow {after : List Lookahead}
    (hfollowed : followedBy after (.nonterm n :: ts.map symbol) = true)
    (parts : ∀ t ∈ ts, t.IsDerivation) (hs : Lookahead.ofStream s ∈ after) :
    Lookahead.ofStream (.prepend (leavesAll ts) s) ∈ follow n := by
  obtain ⟨⟨hfirst, hafter⟩, _⟩ : (firstAll (ts.map symbol) ⊆ follow n ∧
      (nullableAll (ts.map symbol) = false ∨ after ⊆ follow n)) ∧
      followedBy after (ts.map symbol) = true := by
    simpa [followedBy] using hfollowed
  cases hleaves : leavesAll ts with
  | nil =>
    have hnull := nullableAll_of_leavesAll (fun t ht => (parts t ht).nullable) hleaves
    rcases hafter with hfalse | hsubset
    · simp [hnull] at hfalse
    · exact hsubset hs
  | cons token tokens =>
    exact hfirst
      (mem_firstAll_of_leavesAll parts (fun t ht _ _ => (parts t ht).mem_first) hleaves)

/-- The parser gets through the trees of a right side if it gets through each of them. -/
theorem exists_parseAll {after : List Lookahead}
    (hone : ∀ t ∈ ts, ∀ s, s.fault = none →
      (∀ n, t.symbol = .nonterm n → Lookahead.ofStream s ∈ follow n) →
      ∃ bound, parseSymbol bound t.symbol (.prepend t.leaves s) = some (.ok (t, s)))
    (parts : ∀ t ∈ ts, t.IsDerivation) (hfollowed : followedBy after (ts.map symbol) = true)
    (hfault : s.fault = none) (hs : Lookahead.ofStream s ∈ after) :
    ∃ bound, parseAll (parseSymbol bound) (ts.map symbol) (.prepend (leavesAll ts) s) =
      some (.ok (ts, s)) := by
  induction ts with
  | nil => exact ⟨0, rfl⟩
  | cons t ts ih =>
    have hts : ∀ u ∈ ts, u.IsDerivation := fun u hu => parts u (by simp [hu])
    have hrest : followedBy after (ts.map symbol) = true := by
      rw [List.map_cons] at hfollowed
      cases hx : t.symbol <;> simp_all [followedBy]
    obtain ⟨b₁, h₁⟩ := hone t (by simp) (.prepend (leavesAll ts) s)
      (by rw [TokenStream.fault_prepend, hfault])
      (fun n hn => ofStream_mem_follow (by simpa [hn] using hfollowed) hts hs)
    obtain ⟨b₂, h₂⟩ := ih (fun u hu => hone u (by simp [hu])) hts hrest
    refine ⟨max b₁ b₂, ?_⟩
    rw [List.map_cons, leavesAll_cons, TokenStream.prepend_append]
    refine parseAll_cons_eq_ok.mpr ⟨t, _, ts, parseSymbol_mono (Nat.le_max_left _ _) h₁, ?_, rfl⟩
    exact parseAll_mono (fun _ _ _ => parseSymbol_mono (Nat.le_max_right _ _)) h₂

/-- The parser follows every derivation tree in which names are declared. -/
theorem exists_parseSymbol (h : t.IsDerivation) (hnames : t.DeclaresNames)
    (hfault : s.fault = none)
    (hs : ∀ n, t.symbol = .nonterm n → Lookahead.ofStream s ∈ follow n) :
    ∃ bound, parseSymbol bound t.symbol (.prepend t.leaves s) = some (.ok (t, s)) := by
  induction h generalizing s with
  | leaf token => exact ⟨0, by simp [parseSymbol, Terminal.accepts]⟩
  | epsilon =>
    refine ⟨0, ?_⟩
    cases s with
    | unclosed q => simp [TokenStream.fault] at hfault
    | _ => rfl
  | @node n children rule parts ih =>
    obtain ⟨choice, hchildren⟩ : (n = .assign → (wordAll children).head? = some .id →
        children.map symbol ≠ patternForm) ∧ ∀ c ∈ children, c.DeclaresNames := by
      cases hnames with
      | node choice hchildren => exact ⟨choice, hchildren⟩
    have hfollow : Lookahead.ofStream s ∈ follow n := hs n rfl
    obtain ⟨bound, hall⟩ := exists_parseAll
      (fun c hc s hfault hs => ih c hc (hchildren c hc) hfault hs) parts
      (productions_followedBy n _ rule) hfault hfollow
    refine ⟨bound + 1, ?_⟩
    have hstream : ∀ q, TokenStream.prepend (leavesAll children) s ≠ .unclosed q := by
      intro q he
      have hf := TokenStream.fault_prepend (leavesAll children) s
      rw [he, hfault] at hf
      simp [TokenStream.fault] at hf
    rw [symbol_node, leaves_node, parseSymbol_succ hstream,
      expand?_eq_symbols rule parts choice hfollow]
    simp [hall]

theorem parse_eq_ok_iff :
    parse start s = .ok t ↔
      ∃ p, parseSymbol (depthBound s) (.nonterm start) s = some (.ok (t, .finished p)) := by
  constructor
  · intro h
    rw [parse] at h
    split at h
    · rename_i t' p hok
      obtain rfl : t' = t := by simpa using h
      exact ⟨p, hok⟩
    all_goals simp at h
  · rintro ⟨p, hok⟩
    rw [parse, hok]

/-- A parse is a derivation tree of all the tokens. -/
theorem spells_of_parse (h : parse start s = .ok t) :
    t.symbol = .nonterm start ∧ t.IsDerivation ∧ t.DeclaresNames ∧ t.leaves = s.toList := by
  obtain ⟨p, hok⟩ := parse_eq_ok_iff.mp h
  have hspells := spells_of_parseSymbol hok
  have hroot : t.symbol = .nonterm start := by simpa using hspells.symbols
  have hconsumed : s = .prepend t.leaves (.finished p) := by simpa using hspells.consumed
  refine ⟨hroot, hspells.derivations t (by simp), hspells.names t (by simp), ?_⟩
  have hlist := congrArg TokenStream.toList hconsumed
  rw [TokenStream.toList_prepend] at hlist
  simpa [TokenStream.toList] using hlist.symm

theorem fault_of_parse (h : parse start s = .ok t) : s.fault = none := by
  obtain ⟨p, hok⟩ := parse_eq_ok_iff.mp h
  rw [(spells_of_parseSymbol hok).consumed, TokenStream.fault_prepend]
  rfl

/-- The parser finds every derivation tree of the tokens in which names are declared. -/
theorem parse_of_isDerivation (hstart : .eof ∈ follow start) (hfault : s.fault = none)
    (hroot : t.symbol = .nonterm start) (ht : t.IsDerivation) (hnames : t.DeclaresNames)
    (hleaves : t.leaves = s.toList) : parse start s = .ok t := by
  have hstream : s = .prepend t.leaves (.finished s.reached) :=
    hleaves ▸ TokenStream.eq_prepend_finished hfault
  obtain ⟨bound, hbound⟩ := exists_parseSymbol ht hnames
    (s := .finished s.reached) rfl (by simpa [hroot, Lookahead.ofStream] using hstart)
  rw [hroot, ← hstream] at hbound
  refine parse_eq_ok_iff.mpr ⟨s.reached, ?_⟩
  cases hr : parseSymbol (depthBound s) (.nonterm start) s with
  | none => exact (parseSymbol_depthBound_ne_none start s hr).elim
  | some r =>
    -- Both bounds give a result, so a bound above both shows the results to be the same.
    have h₁ := parseSymbol_mono (Nat.le_max_left bound (depthBound s)) hbound
    have h₂ := parseSymbol_mono (Nat.le_max_right bound (depthBound s)) hr
    exact h₂.symm.trans h₁

/-- The parser finds the derivation tree of any word of the language. -/
theorem exists_parse_of_mem_language (hstart : .eof ∈ follow start) (hfault : s.fault = none)
    (h : s.toList.map Terminal.ofToken ∈ (bnf start).language) :
    ∃ t, parse start s = .ok t := by
  obtain ⟨t, hroot, ht, hnames, hleaves⟩ := exists_isDerivation_of_mem_language h
  exact ⟨t, parse_of_isDerivation hstart hfault hroot ht hnames hleaves⟩

/--
A source that scans is accepted just when its tokens are a word of the grammar, and its parse is a
derivation tree of them in which a name after `let` is a declaration.
-/
theorem parse_accepts_language {source : String}
    (hsource : (TokenStream.ofSource source).fault = none)
    (hstart : start = .script ∨ start = .fragment) :
    ((∃ t, parse start (.ofSource source) = .ok t) ↔
      (TokenStream.ofSource source).toList.map Terminal.ofToken ∈ (bnf start).language) ∧
    ∀ t, parse start (.ofSource source) = .ok t →
      t.symbol = .nonterm start ∧ t.IsDerivation ∧ t.DeclaresNames ∧
        t.leaves = (TokenStream.ofSource source).toList := by
  have heof : .eof ∈ follow start := by
    rcases hstart with rfl | rfl <;> decide
  refine ⟨⟨?_, exists_parse_of_mem_language heof hsource⟩, fun t => spells_of_parse⟩
  rintro ⟨t, ht⟩
  obtain ⟨hroot, hderivation, _, hleaves⟩ := spells_of_parse ht
  rw [← hleaves]
  exact hderivation.word_mem_language hroot

theorem parse_accepts_language_let :
    (TokenStream.ofSource "let [a b] => x; let c => a.(b) 'd' : e -> f").fault = none ∧
    ((∃ t, parse .fragment (.ofSource "let [a b] => x; let c => a.(b) 'd' : e -> f") = .ok t) ↔
      (TokenStream.ofSource "let [a b] => x; let c => a.(b) 'd' : e -> f").toList.map
        Terminal.ofToken ∈ (bnf .fragment).language) := by
  have hsource :
      (TokenStream.ofSource "let [a b] => x; let c => a.(b) 'd' : e -> f").fault = none := by
    decide +kernel
  exact ⟨hsource, (parse_accepts_language hsource (Or.inr rfl)).1⟩

end Tree

end ChainScript
