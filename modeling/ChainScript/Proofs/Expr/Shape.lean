import ChainScript.Proofs.Link

/-!
The shape of translated code, at every depth. What an expression has to be by itself and where it
may stand are told apart: an expression is in normal form if each part of it has its shape and
stands where it belongs.
-/
namespace ChainScript

namespace Expr

variable {κ : Type} {c d e : Expr κ}

/-- What is asked of an expression by itself. The empty array is never a part of others. -/
def IsShaped : Expr κ → Prop
  | empty => False
  | apply _ args => args ≠ []
  | chain segments => ∃ first rest, segments = first :: rest ∧ first.link = .plain ∧
      (rest = [] → first.slot ≠ none) ∧ ∀ g ∈ segments, ∀ p, g.slot = some p → p.IsNormal
  | compound items => 2 ≤ items.length ∨ ∃ pattern value, items = [.bind pattern value]
  | collector items => items ≠ []
  | bind pattern _ => pattern.IsNormal
  | _ => True

/--
What is asked of an expression `c` right inside `d`. A `let` is an item, and a memo is the body of a
function with the same parameters or what a `let` binds to a name.
-/
structure Admits (d c : Expr κ) : Prop where
  binding : ∀ pattern value, c = .bind pattern value →
    (∃ items, d = .compound items) ∨ ∃ items, d = .collector items
  memo : ∀ mark params body, c = .memo mark params body →
    (∃ name, d = .lambda name params c) ∨ params = [] ∧ ∃ name, d = .bind (.name name) c

/-- Every part of the expression has its shape and its place. -/
structure InNormalForm (e : Expr κ) : Prop where
  not_let : ∀ pattern value, e ≠ .bind pattern value
  not_memo : ∀ mark params body, e ≠ .memo mark params body
  shaped : ∀ d, Occurs d e → d.IsShaped
  placed : ∀ d c, Occurs d e → c ∈ d.children → d.Admits c

section Normal

variable {c d e : Source}

theorem not_let_of_isNormal (h : e.IsNormal) (pattern : Pattern) (value : Source) :
    e ≠ .bind pattern value := by
  rintro rfl
  cases h

theorem not_memo_of_isNormal (h : e.IsNormal) (mark : Unit) (params : List String)
    (body : Source) : e ≠ .memo mark params body := by
  rintro rfl
  cases h

/-- What stands anywhere in normal code: an item, or a memo below its function or its `let`. -/
inductive Stands : Source → Prop
  | item {d : Source} (h : d.IsNormalItem) : Stands d
  | memo (params : List String) {body : Source} (h : body.IsNormal) :
      Stands (.memo () params body)

theorem isShaped_of_isNormal (h : d.IsNormal) : d.IsShaped := by
  cases h with
  | apply _ _ hne => exact hne
  | chain _ hslot hlink hmore =>
    refine ⟨_, _, rfl, hlink, ?_, hslot⟩
    rintro rfl
    exact hmore.resolve_left (fun hne => hne rfl)
  | compound _ hmore => exact hmore
  | collector _ hne => exact hne
  | _ => trivial

theorem isShaped_of_stands (h : Stands d) : d.IsShaped := by
  cases h with
  | item h =>
    cases h with
    | expr h => exact isShaped_of_isNormal h
    | bind hp _ => exact hp
    | memo name _ => exact trivial
  | memo params _ => exact trivial

/-- An expression that is neither a `let` nor a memo may stand anywhere. -/
theorem admits_of_isNormal (d : Source) (h : c.IsNormal) : d.Admits c := by
  refine ⟨?_, ?_⟩
  · intro pattern value hc
    exact absurd hc (not_let_of_isNormal h pattern value)
  · intro mark params body hc
    exact absurd hc (not_memo_of_isNormal h mark params body)

theorem stands_and_admits (d : Source) (h : c.IsNormal) : Stands c ∧ d.Admits c :=
  ⟨.item (.expr h), admits_of_isNormal d h⟩

theorem admits_item (hd : (∃ items, d = .compound items) ∨ ∃ items, d = .collector items)
    (h : c.IsNormalItem) : d.Admits c := by
  cases h with
  | expr h => exact admits_of_isNormal d h
  | bind _ _ => exact ⟨fun _ _ _ => hd, by simp⟩
  | memo name _ => exact ⟨fun _ _ _ => hd, by simp⟩

/-- What is right inside a part of normal code is such a part again, at its place. -/
theorem stands_child_of_isNormal (h : d.IsNormal) (hc : c ∈ d.children) :
    Stands c ∧ d.Admits c := by
  cases h with
  | number | string | var => cases hc
  | array h => exact stands_and_admits _ (h c hc)
  | lambda name params h =>
    obtain rfl := List.mem_singleton.mp hc
    exact stands_and_admits _ h
  | memoLambda name params h =>
    obtain rfl := List.mem_singleton.mp hc
    refine ⟨.memo params h, by simp, ?_⟩
    rintro mark params body ⟨⟩
    exact .inl ⟨name, rfl⟩
  | apply hf ha _ =>
    rcases List.mem_cons.mp hc with rfl | hc
    · exact stands_and_admits _ hf
    · exact stands_and_admits _ (ha c hc)
  | switch hs hl hr =>
    rcases List.mem_cons.mp hc with rfl | hc
    · exact stands_and_admits _ hs
    · obtain ⟨⟨lhs, rhs⟩, hmem, hc⟩ := List.mem_flatMap.mp hc
      rcases List.mem_pair.mp hc with rfl | rfl
      · exact stands_and_admits _ (hl _ hmem)
      · exact stands_and_admits _ (hr _ hmem)
  | chain he _ _ _ =>
    obtain ⟨g, hg, rfl⟩ := List.mem_map.mp hc
    exact stands_and_admits _ (he g hg)
  | compound h _ => exact ⟨.item (h c hc), admits_item (.inl ⟨_, rfl⟩) (h c hc)⟩
  | collector h _ => exact ⟨.item (h c hc), admits_item (.inr ⟨_, rfl⟩) (h c hc)⟩
  | member hb name =>
    obtain rfl := List.mem_singleton.mp hc
    exact stands_and_admits _ hb
  | within hb h =>
    rcases List.mem_pair.mp hc with rfl | rfl
    · exact stands_and_admits _ hb
    · exact stands_and_admits _ h

theorem stands_child (h : Stands d) (hc : c ∈ d.children) : Stands c ∧ d.Admits c := by
  cases h with
  | item h =>
    cases h with
    | expr h => exact stands_child_of_isNormal h hc
    | bind _ h =>
      obtain rfl := List.mem_singleton.mp hc
      exact stands_and_admits _ h
    | memo name h =>
      obtain rfl := List.mem_singleton.mp hc
      refine ⟨.memo [] h, by simp, ?_⟩
      rintro mark params body ⟨⟩
      exact .inr ⟨rfl, name, rfl⟩
  | memo params h =>
    obtain rfl := List.mem_singleton.mp hc
    exact stands_and_admits _ h

theorem stands_of_occurs (h : Occurs d e) (he : Stands e) : Stands d := by
  induction h with
  | self => exact he
  | child hmem _ ih => exact ih (stands_child he hmem).1

/-- Code built by the rules of normal code is in normal form throughout. -/
theorem inNormalForm_of_isNormal (h : e.IsNormal) : e.InNormalForm := by
  have hstands : ∀ d, Occurs d e → Stands d := fun d hd => stands_of_occurs hd (.item (.expr h))
  refine ⟨not_let_of_isNormal h, not_memo_of_isNormal h, ?_, ?_⟩
  · intro d hd
    exact isShaped_of_stands (hstands d hd)
  · intro d c hd hc
    exact (stands_child (hstands d hd) hc).2

end Normal

section Unmark

theorem unmarkAll_eq_map (es : List (Expr κ)) : unmarkAll es = es.map unmark := by
  induction es with
  | nil => rfl
  | cons e rest ih => simp [unmarkAll, ih]

theorem unmarkCases_eq_map (cases : List (Expr κ × Expr κ)) :
    unmarkCases cases = cases.map fun (lhs, rhs) => (lhs.unmark, rhs.unmark) := by
  induction cases with
  | nil => rfl
  | cons c rest ih => simp [unmarkCases, ih]

theorem unmarkSegments_eq_map (segments : List (Segment (Expr κ))) :
    unmarkSegments segments = segments.map fun g => ⟨g.expr.unmark, g.link, g.slot⟩ := by
  induction segments with
  | nil => rfl
  | cons g rest ih => simp [unmarkSegments, ih]

/-- Marks do not matter for what is inside an expression. -/
theorem children_unmark (e : Expr κ) : e.unmark.children = e.children.map unmark := by
  cases e with
  | switch subject cases =>
    simp [unmark, children, unmarkCases_eq_map, List.map_flatMap, List.flatMap_map]
  | _ => simp [unmark, children, unmarkAll_eq_map, unmarkSegments_eq_map]

theorem occurs_unmark (h : Occurs d e) : Occurs d.unmark e.unmark := by
  induction h with
  | self => exact .self
  | child he _ ih =>
    refine .child ?_ ih
    rw [children_unmark]
    exact List.mem_map_of_mem he

theorem exists_bind_of_unmark {pattern : Pattern} {value : Source}
    (h : e.unmark = .bind pattern value) : ∃ value', e = .bind pattern value' := by
  cases e <;> cases h
  exact ⟨_, rfl⟩

theorem exists_lambda_of_unmark {name : String} {params : List String} {body : Source}
    (h : e.unmark = .lambda name params body) : ∃ body', e = .lambda name params body' := by
  cases e <;> cases h
  exact ⟨_, rfl⟩

theorem isShaped_of_unmark (h : d.unmark.IsShaped) : d.IsShaped := by
  cases d with
  | empty => exact h
  | apply func args => simpa [unmark, IsShaped, unmarkAll_eq_map] using h
  | chain segments =>
    obtain ⟨first, rest, hsegments, hlink, hslot, hnormal⟩ := h
    rw [unmarkSegments_eq_map] at hsegments hnormal
    obtain ⟨g, gs, rfl, rfl, rfl⟩ := List.map_eq_cons_iff.mp hsegments
    refine ⟨g, gs, rfl, hlink, ?_, ?_⟩
    · rintro rfl
      exact hslot rfl
    · intro g' hg'
      exact hnormal _ (List.mem_map_of_mem hg')
  | compound items =>
    simp only [unmark, IsShaped, unmarkAll_eq_map, List.length_map] at h
    refine h.imp id ?_
    rintro ⟨pattern, value, hitems⟩
    obtain ⟨e, rfl, he⟩ := List.map_eq_singleton_iff.mp hitems
    obtain ⟨value', rfl⟩ := exists_bind_of_unmark he
    exact ⟨pattern, value', rfl⟩
  | collector items => simpa [unmark, IsShaped, unmarkAll_eq_map] using h
  | bind pattern value => exact h
  | _ => trivial

theorem admits_of_unmark (hc : c ∈ d.children) (h : d.unmark.Admits c.unmark) : d.Admits c := by
  refine ⟨?_, ?_⟩
  · rintro pattern value rfl
    rcases h.binding pattern _ rfl with ⟨items, hd⟩ | ⟨items, hd⟩
    · cases d <;> cases hd
      exact .inl ⟨_, rfl⟩
    · cases d <;> cases hd
      exact .inr ⟨_, rfl⟩
  · rintro mark params body rfl
    rcases h.memo () params _ rfl with ⟨name, hd⟩ | ⟨rfl, name, hd⟩
    · obtain ⟨body', rfl⟩ := exists_lambda_of_unmark hd
      obtain rfl := List.mem_singleton.mp hc
      exact .inl ⟨name, rfl⟩
    · obtain ⟨value, rfl⟩ := exists_bind_of_unmark hd
      obtain rfl := List.mem_singleton.mp hc
      exact .inr ⟨rfl, name, rfl⟩

/-- Marked code is in normal form if it is so without its marks. -/
theorem inNormalForm_of_unmark (h : e.unmark.InNormalForm) : e.InNormalForm := by
  refine ⟨?_, ?_, ?_, ?_⟩
  · rintro pattern value rfl
    exact h.not_let pattern _ rfl
  · rintro mark params body rfl
    exact h.not_memo () params _ rfl
  · intro d hd
    exact isShaped_of_unmark (h.shaped _ (occurs_unmark hd))
  · intro d c hd hc
    have hchild : c.unmark ∈ d.unmark.children := by
      rw [children_unmark]
      exact List.mem_map_of_mem hc
    exact admits_of_unmark hc (h.placed _ _ (occurs_unmark hd) hchild)

end Unmark

end Expr

namespace Script

variable {τ : Type} {script : Script} {draft : Draft} {requests : List Request} {m : Module}
  {name : String} {d : Decl}

/-- What a script declares is its functions. -/
theorem exists_function_of_folds (h : Folds script .empty requests (.ok draft))
    (hd : (name, d) ∈ draft.decls) : ∃ l, d = .lambda l ∧ .defines l.unmark ∈ script := by
  obtain ⟨-, -, -, -, hdecls⟩ := tables_of_folds h
  have hmem : (name, d.unmark) ∈ Table.mapValues Decl.unmark draft.decls :=
    List.mem_map_of_mem hd
  rw [hdecls] at hmem
  obtain ⟨l, hl, heq⟩ := List.mem_map.mp (Table.mem_ofList hmem)
  obtain ⟨declaration, hdeclaration, hfunction⟩ := List.mem_filterMap.mp hl
  cases d with
  | value v => cases heq
  | lambda marked =>
    cases heq
    cases declaration with
    | imports path name => cases hfunction
    | defines l =>
      cases hfunction
      exact ⟨marked, rfl, hdeclaration⟩

theorem exists_function_of_link {importer : Importer (StateM τ)} {next next' : Nat}
    {state state' : τ} (h : script.link importer next state = ((.ok m, next'), state'))
    (hd : (name, d) ∈ m.decls) : ∃ l, d = .lambda l ∧ .defines l.unmark ∈ script := by
  obtain ⟨r, after, requests, state₁, hplain, -, hcase⟩ := folds_link importer script next state
  rw [h] at hplain
  cases hplain
  rcases hcase with ⟨e, ⟨⟩, -⟩ | ⟨id, draft, hm, hfolds⟩
  cases hm
  exact exists_function_of_folds hfolds hd

end Script

theorem Expr.inNormalForm_toExpr {l : Lambda Code} (h : (Declaration.defines l.unmark).IsNormal) :
    l.toExpr.InNormalForm :=
  inNormalForm_of_unmark (inNormalForm_of_isNormal h)

namespace Tree

open Grammar

theorem fragmentItems_ne_nil {first tail : Tree} {es : List Source}
    (h : fragmentItems (node .fragExprs [first, tail]) = .ok es) : es ≠ [] := by
  unfold fragmentItems at h
  split at h
  next hitems =>
    obtain ⟨e, -, h⟩ := bind_eq_ok.mp h
    obtain ⟨more, -, h⟩ := bind_eq_ok.mp h
    cases h
    exact List.cons_ne_nil e more
  next hitems =>
    obtain ⟨e, -, h⟩ := bind_eq_ok.mp h
    cases h
    exact List.cons_ne_nil e []
  next hitems => cases hitems
  next => cases h

/-- The empty fragment is the empty array, and no other fragment is. -/
theorem leaves_eq_nil_iff {t : Tree} {e : Source} (h : Derives (.nonterm .fragment) t)
    (he : Expr.ofFragment t = .ok e) : t.leaves = [] ↔ e = .empty := by
  obtain ⟨xs, hxs, ts, rfl, hts⟩ := h.children
  obtain rfl := List.mem_singleton.mp hxs
  obtain _ | ⟨hitems, ⟨⟩⟩ := hts
  obtain ⟨es, hes, hnormal⟩ := reads_of_derives hitems
  obtain ⟨ys, hys, us, rfl, hus⟩ := hitems.children
  rcases List.mem_pair.mp hys with rfl | rfl
  · obtain _ | ⟨hfirst, _ | ⟨htail, ⟨⟩⟩⟩ := hus
    have hne := fragmentItems_ne_nil hes
    constructor
    · intro hnil
      have hfirst_nil : leaves _ = [] := (List.append_eq_nil_iff.mp (by simpa using hnil)).1
      have hnullable := hfirst.derivation.nullable hfirst_nil
      rw [hfirst.root] at hnullable
      cases hnullable
    · rintro rfl
      cases es with
      | nil => exact absurd rfl hne
      | cons e es =>
        rw [Expr.ofFragment_items hes] at he
        have hempty := Expr.isNormal_ofItems hnormal hne
        rw [Except.ok.inj he] at hempty
        cases hempty
  · obtain rfl := eq_epsilon_of_derives hus
    cases hes
    cases he
    simp

/--
Translated code is in normal form at every depth: the expression of a fragment that is not empty,
and each function of a module that a script is loaded as.
-/
theorem translated_in_normal_form (source : String) :
    (∀ t, parseFragment source = .ok t → ∃ e, Expr.ofFragment t = .ok e ∧
      ((TokenStream.ofSource source).toList = [] ∧ e = .empty ∨
        (TokenStream.ofSource source).toList ≠ [] ∧ e.InNormalForm)) ∧
    ∀ t, parseScript source = .ok t →
      ∀ (τ : Type) (importer : Importer (StateM τ)) (next next' : Nat) (state state' : τ)
        (m : Module),
        ((Script.load importer source).run next).run state = ((.ok m, next'), state') →
        ∀ name d, (name, d) ∈ m.decls →
          ∃ l : Lambda Code, d = .lambda l ∧ l.toExpr.InNormalForm := by
  constructor
  · intro t ht
    obtain ⟨e, he, hcase⟩ := Expr.exists_ofFragment (derives_of_parse ht)
    obtain ⟨-, -, -, hleaves⟩ := spells_of_parse ht
    have hempty := leaves_eq_nil_iff (derives_of_parse ht) he
    rw [hleaves] at hempty
    refine ⟨e, he, ?_⟩
    rcases hcase with rfl | hnormal
    · exact .inl ⟨hempty.mpr rfl, rfl⟩
    · refine .inr ⟨?_, Expr.inNormalForm_of_isNormal hnormal⟩
      intro hnil
      obtain rfl := hempty.mp hnil
      cases hnormal
  · intro t ht τ importer next next' state state' m hload name d hd
    obtain ⟨script, hscript, hnormal⟩ := Script.exists_normal_ofTree (derives_of_parse ht)
    rw [Script.load_eq_link importer (Script.ofSource_eq_ok_iff_parse.mpr ⟨t, ht, hscript⟩)]
      at hload
    obtain ⟨l, rfl, hl⟩ := Script.exists_function_of_link hload hd
    exact ⟨l, rfl, Expr.inNormalForm_toExpr (hnormal _ hl)⟩

namespace Nested

def fragment : String :=
  "let [x y] => z; let memo w => x; (@ memo f a => let b => a) y : c -- (| 'd'; [])"

def script : String := "memo f x => (let y => x; g y); g x => x \x7b'a' => f;\x7d : y -> y;"

def declaresFunction (name : String) : Except LoadError Module → Bool
  | .ok m => (Table.get? name m.decls).isSome
  | .error _ => false

theorem exists_of_declaresFunction {name : String} {r : Except LoadError Module}
    (h : declaresFunction name r = true) : ∃ m d, r = .ok m ∧ (name, d) ∈ m.decls := by
  cases r with
  | error e => cases h
  | ok m =>
    obtain ⟨d, hd⟩ := Option.isSome_iff_exists.mp h
    exact ⟨m, d, rfl, Table.mem_of_get? hd⟩

theorem translated_in_normal_form_nested :
    (∃ t e, parseFragment fragment = .ok t ∧ Expr.ofFragment t = .ok e ∧ e.InNormalForm) ∧
    ∃ m next l,
      ((Script.load (Registry.importer []) script : StateT Nat (StateM Unit) _).run 0).run () =
        ((.ok m, next), ()) ∧
      ("f", Decl.lambda l) ∈ m.decls ∧ l.toExpr.InNormalForm := by
  constructor
  · obtain ⟨t, ht⟩ : ∃ t, parseFragment fragment = .ok t := exists_of_isSome (by decide +kernel)
    obtain ⟨e, he, ⟨hnil, -⟩ | ⟨-, hnormal⟩⟩ := (translated_in_normal_form fragment).1 t ht
    · have hsome : (TokenStream.ofSource fragment).toList.isEmpty = false := by decide +kernel
      rw [hnil] at hsome
      cases hsome
    · exact ⟨t, e, ht, he, hnormal⟩
  · obtain ⟨t, ht⟩ : ∃ t, parseScript script = .ok t := exists_of_isSome (by decide +kernel)
    obtain ⟨⟨⟨r, next⟩, ⟨⟩⟩, hrun⟩ : ∃ q,
      ((Script.load (Registry.importer []) script : StateT Nat (StateM Unit) _).run 0).run () = q :=
      ⟨_, rfl⟩
    have hdeclares : declaresFunction "f" r = true :=
      (congrArg (fun q => declaresFunction "f" q.1.1) hrun).symm.trans (by decide +kernel)
    obtain ⟨m, d, rfl, hd⟩ := exists_of_declaresFunction hdeclares
    obtain ⟨l, rfl, hnormal⟩ :=
      (translated_in_normal_form script).2 t ht Unit _ 0 next () () m hrun "f" d hd
    exact ⟨m, next, l, hrun, hd, hnormal⟩

end Nested

end Tree

end ChainScript
