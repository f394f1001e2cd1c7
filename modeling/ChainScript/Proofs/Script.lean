import ChainScript.Proofs.Load
import ChainScript.Proofs.Token.Scan
import ChainScript.Proofs.Tree.Down
import ChainScript.Proofs.Tree.Spelt
import ChainScript.World

/-!
Scripts below each other. The text of one script, a line break and the text of another make the
script with the declarations of both, and its module has what the second one declares wherever it
declares something, and what the first one declares elsewhere.
-/
namespace ChainScript

open Grammar

namespace Tree

/-- Where one list of declarations ends, another one can go on. -/
theorem exists_declarations_append {a b : Tree} {ds es : Script}
    (ha : Derives (.nonterm .decls) a) (hds : declarations a = .ok ds)
    (hb : Derives (.nonterm .decls) b) (hes : declarations b = .ok es) :
    ∃ t, Derives (.nonterm .decls) t ∧ t.leaves = a.leaves ++ b.leaves ∧
      declarations t = .ok (ds ++ es) := by
  -- The empty expansion that ends the first list gives way to the second one.
  fun_induction declarations a generalizing ds with
  | case1 d semicolon rest ih =>
    obtain ⟨decl, hdecl, h⟩ := bind_eq_ok.mp hds
    obtain ⟨ds, hrest, h⟩ := bind_eq_ok.mp h
    cases h
    obtain ⟨xs, hxs, ts, hts, hparts⟩ := ha.children
    cases hts
    rcases List.mem_pair.mp hxs with rfl | rfl
    · obtain _ | ⟨hfirst, _ | ⟨hmore, ⟨⟩⟩⟩ := hparts
      obtain ⟨t, ht, hleaves, hread⟩ := ih hmore hrest
      refine ⟨node .decls [node .decl [d, semicolon], t], ?_, by simp [hleaves], ?_⟩
      · exact derives_node hxs (by simp) (.cons hfirst (.cons ht .nil))
      · exact declarations_cons hdecl hread
    · obtain _ | ⟨-, ⟨⟩⟩ := hparts
  | case2 =>
    cases hds
    exact ⟨b, hb, by simp, hes⟩
  | case3 => cases hds

end Tree

namespace Script

open ChainScript.Tree

variable {a b : String} {s s' : Script}

theorem mapError_eq_ok {ε ε' α : Type} {f : ε → ε'} {x : Except ε α} {a : α} :
    x.mapError f = .ok a ↔ x = .ok a := by
  cases x <;> simp [Except.mapError]

theorem ofSource_eq_ok_iff_parse {source : String} :
    ofSource source = .ok s ↔ ∃ t, parseScript source = .ok t ∧ ofTree t = .ok s := by
  unfold ofSource
  simp only [bind_eq_ok, mapError_eq_ok]

/-- A source is a script if its tokens are those of a list of declarations. -/
theorem ofSource_eq_ok_iff {source : String} :
    ofSource source = .ok s ↔ (TokenStream.ofSource source).fault = none ∧
      ∃ t, Derives (.nonterm .decls) t ∧ t.leaves = (TokenStream.ofSource source).toList ∧
        declarations t = .ok s := by
  rw [ofSource_eq_ok_iff_parse]
  constructor
  · rintro ⟨t, hparse, hread⟩
    obtain ⟨xs, hxs, ts, rfl, hparts⟩ := (derives_of_parse hparse).children
    obtain rfl := List.mem_singleton.mp hxs
    obtain _ | ⟨hdecls, ⟨⟩⟩ := hparts
    obtain ⟨-, -, -, hleaves⟩ := spells_of_parse hparse
    exact ⟨fault_of_parse hparse, _, hdecls, by simpa using hleaves, hread⟩
  · rintro ⟨hfault, t, ht, hleaves, hread⟩
    have hscript : Derives (.nonterm .script) (node .script [t]) :=
      derives_node (List.mem_singleton_self _) (by simp) (.cons ht .nil)
    refine ⟨node .script [t], ?_, hread⟩
    exact parse_of_isDerivation (by decide) hfault rfl hscript.derivation hscript.names
      (by simpa using hleaves)

/-- The declarations of a script are followed by those of the script below it. -/
theorem ofSource_append (ha : ofSource a = .ok s) (hb : ofSource b = .ok s') :
    ofSource (a ++ "\n" ++ b) = .ok (s ++ s') := by
  obtain ⟨hfault, ta, hta, hleaves, hread⟩ := ofSource_eq_ok_iff.mp ha
  obtain ⟨hfault', tb, htb, hleaves', hread'⟩ := ofSource_eq_ok_iff.mp hb
  obtain ⟨htokens, hfaults⟩ := TokenStream.ofSource_line hfault b
  obtain ⟨t, ht, hboth, hjoined⟩ := exists_declarations_append hta hread
    (htb.down _) (declarations_down hread')
  refine ofSource_eq_ok_iff.mpr ⟨?_, t, ht, ?_, hjoined⟩
  · rw [hfaults, hfault']
    rfl
  · rw [hboth, htokens, hleaves, leaves_down, hleaves']

end Script

/--
The importer has no effect that shows: what it answers depends on the path alone, even though it may
use up numbers.
-/
def Importer.Answers (importer : Importer Id) (resolve : String → Except ImportError Module) :
    Prop :=
  ∀ path next, ∃ next', next ≤ next' ∧ (importer path).run next = (resolve path, next')

/-- The module that a registry has under a path. -/
def Registry.resolve (registry : Registry) (path : String) : Except ImportError Module :=
  match Table.get? path registry with
  | some module => .ok module
  | none => .error (.unknown path)

theorem Registry.answers_importer (registry : Registry) :
    Importer.Answers registry.importer registry.resolve := by
  intro path next
  refine ⟨next, Nat.le_refl next, ?_⟩
  unfold importer resolve
  cases Table.get? path registry <;> rfl

def Lambda.unmark (l : Lambda Code) : Lambda Source := ⟨l.name, l.params, l.body.unmark⟩

/-- The declaration without the marks of the memos in a function. -/
def Decl.unmark : Decl → Lambda Source ⊕ Value
  | lambda l => .inl l.unmark
  | value v => .inr v

theorem Decl.unmark_allot (l : Lambda Source) (next : Nat) :
    unmark (.lambda (l.allot next).1) = .inl l := by
  simp only [unmark, Lambda.unmark, Lambda.allot, Expr.unmark_allot]

/-- A function whose memos have the numbers from `next` on. -/
def Decl.MarkedFrom (next : Nat) : Decl → Prop
  | lambda l => ∀ mark params body, l.body.memos mark params body → next ≤ mark
  | value _ => False

theorem Decl.markedFrom_of_le {d : Decl} {next next' : Nat} (h : d.MarkedFrom next')
    (hle : next ≤ next') : d.MarkedFrom next := by
  cases d with
  | lambda l => exact fun mark params body hm => Nat.le_trans hle (h mark params body hm)
  | value v => exact h.elim

namespace Script

variable {importer : Importer Id} {resolve : String → Except ImportError Module}
  {script more : Script} {modules modules' : Table String Module}
  {functions functions' : Table String (Lambda Source ⊕ Value)} {draft draft' : Draft}
  {next next' : Nat} {m : Module} {source : String}

/-- The script imports these modules and defines these functions, each in this order. -/
inductive Declares (resolve : String → Except ImportError Module) :
    Script → Table String Module → Table String (Lambda Source ⊕ Value) → Prop
  | nil : Declares resolve [] [] []
  | imports {path name : String} {module : Module} {script : Script}
      {modules : Table String Module} {functions : Table String (Lambda Source ⊕ Value)}
      (hpath : resolve path = .ok module) (hrest : Declares resolve script modules functions) :
      Declares resolve (.imports path name :: script) ((name, module) :: modules) functions
  | defines {l : Lambda Source} {script : Script} {modules : Table String Module}
      {functions : Table String (Lambda Source ⊕ Value)}
      (hrest : Declares resolve script modules functions) :
      Declares resolve (.defines l :: script) modules ((l.name, .inl l) :: functions)

theorem declares_append (h : Declares resolve script modules functions)
    (h' : Declares resolve more modules' functions') :
    Declares resolve (script ++ more) (modules ++ modules') (functions ++ functions') := by
  induction h with
  | nil => exact h'
  | imports hpath _ ih => exact .imports hpath ih
  | defines _ ih => exact .defines ih

theorem declares_of_collect (himporter : importer.Answers resolve)
    (h : (collect importer script draft).run next = (.ok draft', next')) :
    ∃ modules functions, Declares resolve script modules functions := by
  induction script generalizing draft next with
  | nil => exact ⟨[], [], .nil⟩
  | cons declaration rest ih =>
    cases declaration with
    | imports path name =>
      obtain ⟨after, -, hrun⟩ := himporter path next
      simp only [collect, StateT.run_bind, hrun] at h
      cases hpath : resolve path with
      | error e =>
        rw [hpath] at h
        cases h
      | ok module =>
        rw [hpath] at h
        obtain ⟨modules, functions, hrest⟩ := ih h
        exact ⟨_, _, .imports hpath hrest⟩
    | defines lambda =>
      obtain ⟨modules, functions, hrest⟩ := ih h
      exact ⟨_, _, .defines hrest⟩

/-- What collecting declarations makes of a draft, when `next` is the first free number. -/
structure Adds (modules : Table String Module)
    (functions : Table String (Lambda Source ⊕ Value)) (next : Nat) (draft draft' : Draft) :
    Prop where
  imports : draft'.imports = Table.insertAll modules draft.imports
  decls : Table.mapValues Decl.unmark draft'.decls =
    Table.insertAll functions (Table.mapValues Decl.unmark draft.decls)
  marks : ∀ e ∈ draft'.decls, e ∈ draft.decls ∨ e.2.MarkedFrom next

theorem collect_of_declares (himporter : importer.Answers resolve)
    (h : Declares resolve script modules functions) (draft : Draft) (next : Nat) :
    ∃ draft' next', (collect importer script draft).run next = (.ok draft', next') ∧
      Adds modules functions next draft draft' := by
  induction h generalizing draft next with
  | nil => exact ⟨draft, next, rfl, rfl, rfl, fun e he => .inl he⟩
  | @imports path name module script modules functions hpath _ ih =>
    obtain ⟨after, hle, hrun⟩ := himporter path next
    obtain ⟨draft', next', hrest, hadds⟩ := ih (draft.addImport name module) after
    refine ⟨draft', next', ?_, hadds.imports, hadds.decls, ?_⟩
    · simp only [collect, StateT.run_bind, hrun, hpath]
      exact hrest
    · intro e he
      exact (hadds.marks e he).imp id fun hmarks => Decl.markedFrom_of_le hmarks hle
  | @defines l script modules functions _ ih =>
    obtain ⟨draft', next', hrest, hadds⟩ :=
      ih (draft.addFunction (l.allot next).1) (l.allot next).2
    have hnumbered := Expr.numbered_allot l.body next
    refine ⟨draft', next', hrest, hadds.imports, ?_, ?_⟩
    · rw [hadds.decls, Draft.addFunction, ← Table.insert_mapValues, Decl.unmark_allot]
      rfl
    · intro e he
      rcases hadds.marks e he with he | hmarks
      · rcases Table.mem_insert he with rfl | he
        · exact .inr fun mark params body hm => (hnumbered.range hm).1
        · exact .inl he
      · exact .inr (Decl.markedFrom_of_le hmarks hnumbered.le)

/-- The module is that of a script which declares these modules and functions. -/
structure Links (modules : Table String Module)
    (functions : Table String (Lambda Source ⊕ Value)) (m : Module) : Prop where
  imports : m.imports = Table.ofList modules
  decls : Table.mapValues Decl.unmark m.decls = Table.ofList functions

theorem load_of_declares (himporter : importer.Answers resolve)
    (hsource : ofSource source = .ok script) (h : Declares resolve script modules functions)
    (next : Nat) :
    ∃ m next', (load importer source).run next = (.ok m, next') ∧ Links modules functions m ∧
      ∀ e ∈ m.decls, e.2.MarkedFrom next := by
  obtain ⟨draft, after, hcollect, hadds⟩ := collect_of_declares himporter h .empty next
  refine ⟨_, _, load_eq_ok_iff.mpr ⟨script, draft, after, hsource, hcollect, rfl, rfl⟩,
    ⟨hadds.imports, hadds.decls⟩, ?_⟩
  intro e he
  rcases hadds.marks e he with hempty | hmarks
  · cases hempty
  · exact hmarks

theorem declares_of_load (himporter : importer.Answers resolve)
    (h : (load importer source).run next = (.ok m, next')) :
    ∃ script modules functions, ofSource source = .ok script ∧
      Declares resolve script modules functions ∧ Links modules functions m := by
  obtain ⟨script, draft, after, hsource, hcollect, rfl, rfl⟩ := load_eq_ok_iff.mp h
  obtain ⟨modules, functions, hdeclares⟩ := declares_of_collect himporter hcollect
  obtain ⟨draft', after', hcollect', hadds⟩ :=
    collect_of_declares himporter hdeclares .empty next
  rw [hcollect] at hcollect'
  cases hcollect'
  exact ⟨script, modules, functions, hsource, hdeclares, hadds.imports, hadds.decls⟩

/--
If two texts load as scripts, so does the one with the other below it. Its module declares the names
of the first and then the new names of the second, with the meanings of the second for all that it
declares, and its memos remember nothing yet.
-/
theorem load_append {a b : String} {na na' nb nb' : Nat} {ma mb : Module}
    (himporter : importer.Answers resolve) (ha : (load importer a).run na = (.ok ma, na'))
    (hb : (load importer b).run nb = (.ok mb, nb')) (next : Nat) :
    ∃ m next', (load importer (a ++ "\n" ++ b)).run next = (.ok m, next') ∧
      Table.keys m.decls =
        Table.keys ma.decls ++ (Table.keys mb.decls).filter (· ∉ Table.keys ma.decls) ∧
      Table.keys m.imports =
        Table.keys ma.imports ++ (Table.keys mb.imports).filter (· ∉ Table.keys ma.imports) ∧
      (∀ name, (Table.get? name m.decls).map Decl.unmark =
        ((Table.get? name mb.decls).or (Table.get? name ma.decls)).map Decl.unmark) ∧
      (∀ name, Table.get? name m.imports =
        (Table.get? name mb.imports).or (Table.get? name ma.imports)) ∧
      ∀ {σ : Type} (w : World σ),
        (∀ mark, next ≤ mark → ∀ keys, w.stored? mark keys = none) →
        ∀ name d, (name, d) ∈ m.decls → ∃ l, d = .lambda l ∧
          ∀ mark params body, l.body.memos mark params body →
            ∀ keys, w.stored? mark keys = none := by
  obtain ⟨sa, modules, functions, hsa, hda, hla⟩ := declares_of_load himporter ha
  obtain ⟨sb, modules', functions', hsb, hdb, hlb⟩ := declares_of_load himporter hb
  obtain ⟨m, next', hload, hlinks, hmarks⟩ := load_of_declares himporter
    (ofSource_append hsa hsb) (declares_append hda hdb) next
  have himports : m.imports = Table.insertAll modules' ma.imports := by
    rw [hlinks.imports, hla.imports]
    exact Table.insertAll_append modules modules' []
  have hdecls : Table.mapValues Decl.unmark m.decls =
      Table.insertAll functions' (Table.mapValues Decl.unmark ma.decls) := by
    rw [hlinks.decls, hla.decls]
    exact Table.insertAll_append functions functions' []
  refine ⟨m, next', hload, ?_, ?_, ?_, ?_, ?_⟩
  · have hkeys := Table.keys_insertAll functions' (Table.mapValues Decl.unmark ma.decls)
    rwa [← hdecls, ← hlb.decls, Table.keys_mapValues, Table.keys_mapValues, Table.keys_mapValues]
      at hkeys
  · rw [himports, hlb.imports, Table.keys_insertAll]
  · intro name
    have hget := Table.get?_insertAll functions' (Table.mapValues Decl.unmark ma.decls) name
    rw [← hdecls, ← hlb.decls] at hget
    simpa [Option.map_or] using hget
  · intro name
    rw [himports, hlb.imports, Table.get?_insertAll]
  · intro σ w hfree name d hd
    have hmarked := hmarks _ hd
    cases d with
    | lambda l =>
      refine ⟨l, rfl, ?_⟩
      intro mark params body hm
      exact hfree mark (hmarked mark params body hm)
    | value v => exact hmarked.elim

namespace Joined

def upper : String := "'lib' => l; f x => x; g => l.f;  # the upper one"

def lower : String := "memo f x => m.f x; 'lib' => m; h => f g;"

def shelf : Registry := [("lib", ⟨0, [], []⟩)]

def hasNames (decls imports : List String) : Except LoadError Module × Nat → Bool
  | (.ok m, _) => Table.keys m.decls = decls && Table.keys m.imports = imports
  | _ => false

theorem exists_of_hasNames {decls imports : List String} {r : Except LoadError Module × Nat}
    (h : hasNames decls imports r = true) :
    ∃ m next, r = (.ok m, next) ∧ Table.keys m.decls = decls ∧ Table.keys m.imports = imports := by
  unfold hasNames at h
  split at h
  next m next =>
    obtain ⟨hdecls, himports⟩ := Bool.and_eq_true_iff.mp h
    exact ⟨m, next, rfl, of_decide_eq_true hdecls, of_decide_eq_true himports⟩
  next => cases h

theorem load_append_joined :
    ∃ m next, (load shelf.importer (upper ++ "\n" ++ lower) : StateM Nat _).run 3 = (.ok m, next) ∧
      Table.keys m.decls = ["f", "g", "h"] ∧ Table.keys m.imports = ["l", "m"] := by
  have hupper : hasNames ["f", "g"] ["l"] ((load shelf.importer upper : StateM Nat _).run 1) = true
      := by decide +kernel
  have hlower : hasNames ["f", "h"] ["m"] ((load shelf.importer lower : StateM Nat _).run 2) = true
      := by decide +kernel
  obtain ⟨ma, na, ha, hdecls, himports⟩ := exists_of_hasNames hupper
  obtain ⟨mb, nb, hb, hdecls', himports'⟩ := exists_of_hasNames hlower
  obtain ⟨m, next, hload, hd, hi, -⟩ := load_append (Registry.answers_importer shelf) ha hb 3
  rw [hdecls, hdecls'] at hd
  rw [himports, himports'] at hi
  exact ⟨m, next, hload, hd, hi⟩

end Joined

end Script

end ChainScript
