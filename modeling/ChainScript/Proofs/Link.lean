import ChainScript.Proofs.Script
import ChainScript.Proofs.Tree.Reading

/-!
Linking a script. Its declarations are taken from left to right: the importer is asked for one path
after the other, up to the first one that it refuses, and each name ends with its last meaning at
the place where it first came.
-/
namespace ChainScript

/-- An import path that was asked for, and what the importer answered. -/
structure Request where
  path : String
  answer : Except ImportError Module

namespace Request

def refusal (path : String) (e : ImportError) : Request := ⟨path, .error e⟩

def supply (path : String) (module : Module) : Request := ⟨path, .ok module⟩

end Request

/-- The importer that answers the same and writes down each request. -/
def Importer.recorded {τ : Type} (importer : Importer (StateM τ)) :
    Importer (StateM (List Request × τ)) := fun path next (requests, state) =>
  let ((answer, next'), state') := importer path next state
  ((answer, next'), (requests ++ [⟨path, answer⟩], state'))

namespace Declaration

def import? : Declaration → Option (String × String)
  | imports path name => some (path, name)
  | defines _ => none

def function? : Declaration → Option (Lambda Source)
  | imports .. => none
  | defines lambda => some lambda

end Declaration

namespace Script

variable {τ : Type} {script : Script} {draft draft' : Draft} {requests : List Request}
  {r : Except LoadError Draft}

/-- The paths that a script imports, in order. -/
def paths (script : Script) : List String := (script.filterMap Declaration.import?).map (·.1)

/-- The names that a script imports modules under, in order. -/
def aliases (script : Script) : List String := (script.filterMap Declaration.import?).map (·.2)

/-- The functions that a script defines, in order. -/
def functions (script : Script) : List (Lambda Source) := script.filterMap Declaration.function?

@[simp] theorem paths_imports (path name : String) (script : Script) :
    paths (.imports path name :: script) = path :: script.paths := rfl

@[simp] theorem paths_defines (l : Lambda Source) (script : Script) :
    paths (.defines l :: script) = script.paths := rfl

@[simp] theorem aliases_imports (path name : String) (script : Script) :
    aliases (.imports path name :: script) = name :: script.aliases := rfl

@[simp] theorem aliases_defines (l : Lambda Source) (script : Script) :
    aliases (.defines l :: script) = script.aliases := rfl

@[simp] theorem functions_imports (path name : String) (script : Script) :
    functions (.imports path name :: script) = script.functions := rfl

@[simp] theorem functions_defines (l : Lambda Source) (script : Script) :
    functions (.defines l :: script) = l :: script.functions := rfl

/--
What taking the declarations in order makes of a draft, when these are the imports asked for on the
way. The marks that functions get do not matter.
-/
inductive Folds : Script → Draft → List Request → Except LoadError Draft → Prop
  | done {draft : Draft} : Folds [] draft [] (.ok draft)
  | refused {path name : String} {rest : Script} {draft : Draft} {e : ImportError} :
      Folds (.imports path name :: rest) draft [.refusal path e] (.error (.importRefused path e))
  | imports {path name : String} {rest : Script} {draft : Draft} {module : Module}
      {requests : List Request} {r : Except LoadError Draft}
      (h : Folds rest (draft.addImport name module) requests r) :
      Folds (.imports path name :: rest) draft (.supply path module :: requests) r
  | defines {l : Lambda Source} {marked : Lambda Code} {rest : Script} {draft : Draft}
      {requests : List Request} {r : Except LoadError Draft} (hl : marked.unmark = l)
      (h : Folds rest (draft.addFunction marked) requests r) :
      Folds (.defines l :: rest) draft requests r

/-- Writing the requests down changes nothing else, and what is collected follows from them. -/
theorem folds_collect (importer : Importer (StateM τ)) (script : Script) (draft : Draft)
    (earlier : List Request) (next : Nat) (state : τ) :
    ∃ r next' requests state',
      collect importer script draft next state = ((r, next'), state') ∧
      collect importer.recorded script draft next (earlier, state) =
        ((r, next'), (earlier ++ requests, state')) ∧
      Folds script draft requests r := by
  induction script generalizing draft earlier next state with
  | nil => exact ⟨.ok draft, next, [], state, rfl, by rw [List.append_nil]; rfl, .done⟩
  | cons d rest ih =>
    cases d with
    | imports path name =>
      obtain ⟨⟨⟨answer, after⟩, state₁⟩, hanswer⟩ : ∃ q, importer path next state = q := ⟨_, rfl⟩
      have hrecorded : importer.recorded path next (earlier, state) =
          ((answer, after), (earlier ++ [⟨path, answer⟩], state₁)) := by
        simp only [Importer.recorded, hanswer]
      cases answer with
      | error e =>
        exact ⟨_, _, _, _, bind_of_eq hanswer, bind_of_eq hrecorded, .refused⟩
      | ok module =>
        obtain ⟨r, next', requests, state', hrest, hrest', hfolds⟩ :=
          ih (draft.addImport name module) (earlier ++ [⟨path, .ok module⟩]) after state₁
        rw [List.append_assoc] at hrest'
        exact ⟨r, next', _, state', (bind_of_eq hanswer).trans hrest,
          (bind_of_eq hrecorded).trans hrest', .imports hfolds⟩
    | defines l =>
      obtain ⟨r, next', requests, state', hrest, hrest', hfolds⟩ :=
        ih (draft.addFunction (l.allot next).1) earlier (l.allot next).2 state
      refine ⟨r, next', requests, state', hrest, hrest', .defines ?_ hfolds⟩
      exact Sum.inl.inj (Decl.unmark_allot l next)

/-- Paths are asked for in the order of the declarations. -/
theorem paths_of_folds (h : Folds script draft requests r) :
    requests.map (·.path) <+: script.paths := by
  induction h with
  | done => exact List.prefix_refl _
  | refused => simp [Request.refusal]
  | imports _ ih => simpa [Request.supply, List.cons_prefix_cons] using ih
  | defines _ _ ih => exact ih

/-- All requests before the last one are met. -/
theorem supplied_of_folds (h : Folds script draft requests r) :
    ∀ q ∈ requests.dropLast, ∃ module, q = .supply q.path module := by
  induction h with
  | done => simp
  | refused => simp
  | @imports path name rest draft module requests r _ ih =>
    intro q hq
    cases requests with
    | nil => cases hq
    | cons first more =>
      rw [List.dropLast_cons_cons] at hq
      rcases List.mem_cons.mp hq with rfl | hq
      · exact ⟨module, rfl⟩
      · exact ih q hq
  | defines _ _ ih => exact ih

/-- What goes wrong is a request that is refused. -/
theorem refusal_of_folds (h : Folds script draft requests r) (e : LoadError) :
    r = .error e ↔
      ∃ path cause, e = .importRefused path cause ∧ Request.refusal path cause ∈ requests := by
  induction h with
  | done => simp
  | @refused path name rest draft cause =>
    simp only [Except.error.injEq, List.mem_singleton, Request.refusal, Request.mk.injEq]
    constructor
    · rintro rfl
      exact ⟨path, cause, rfl, rfl, rfl⟩
    · rintro ⟨_, _, rfl, rfl, rfl⟩
      rfl
  | imports _ ih =>
    rw [ih]
    simp [Request.refusal, Request.supply]
  | defines _ _ ih => exact ih

/-- What a whole script adds to a draft, when its imports are met with these modules. -/
theorem tables_of_folds (h : Folds script draft requests (.ok draft')) :
    ∃ modules : List Module, modules.length = script.paths.length ∧
      requests = List.zipWith Request.supply script.paths modules ∧
      draft'.imports = Table.insertAll (script.aliases.zip modules) draft.imports ∧
      Table.mapValues Decl.unmark draft'.decls =
        Table.insertAll (script.functions.map fun l => (l.name, .inl l))
          (Table.mapValues Decl.unmark draft.decls) := by
  generalize hr : (Except.ok draft' : Except LoadError Draft) = r at h
  induction h with
  | done =>
    cases hr
    exact ⟨[], rfl, rfl, rfl, rfl⟩
  | refused => cases hr
  | @imports path name rest draft module requests r _ ih =>
    obtain ⟨modules, hlength, hrequests, himports, hdecls⟩ := ih hr
    refine ⟨module :: modules, by simp [hlength], by simp [hrequests], himports, hdecls⟩
  | @defines l marked rest draft requests r hl _ ih =>
    obtain ⟨modules, hlength, hrequests, himports, hdecls⟩ := ih hr
    refine ⟨modules, hlength, hrequests, himports, ?_⟩
    have hname : marked.name = l.name := by rw [← hl]; rfl
    rw [hdecls, Draft.addFunction, ← Table.insert_mapValues, Decl.unmark, hl, hname]
    rfl

/--
The module has the functions and imports of the script: each name with its last meaning, at the
place of its first.
-/
structure Gives (script : Script) (modules : List Module) (m : Module) : Prop where
  functions : Table.keys m.decls = (script.functions.map (·.name)).eraseDups
  function : ∀ name, (Table.get? name m.decls).map Decl.unmark =
    (script.functions.reverse.find? (·.name = name)).map .inl
  aliases : Table.keys m.imports = script.aliases.eraseDups
  imported : ∀ name, Table.get? name m.imports =
    ((script.aliases.zip modules).reverse.find? (·.1 = name)).map (·.2)

theorem gives_of_folds (h : Folds script .empty requests (.ok draft)) (id : Nat) :
    ∃ modules : List Module, modules.length = script.paths.length ∧
      requests = List.zipWith Request.supply script.paths modules ∧
      Gives script modules ⟨id, draft.imports, draft.decls⟩ := by
  obtain ⟨modules, hlength, hrequests, himports, hdecls⟩ := tables_of_folds h
  have himports : draft.imports = Table.ofList (script.aliases.zip modules) := himports
  have hdecls : Table.mapValues Decl.unmark draft.decls =
      Table.ofList (script.functions.map fun l => (l.name, .inl l)) := hdecls
  have haliases : script.aliases.length ≤ modules.length := by
    simp [hlength, aliases, paths]
  refine ⟨modules, hlength, hrequests, ?_, ?_, ?_, ?_⟩
  · have hkeys := congrArg Table.keys hdecls
    rw [Table.keys_mapValues, Table.keys_ofList, List.map_map] at hkeys
    exact hkeys
  · intro name
    have hget := congrArg (Table.get? name) hdecls
    rw [Table.get?_mapValues, Table.get?_ofList, ← List.map_reverse, List.find?_map,
      Option.map_map] at hget
    exact hget
  · rw [himports, Table.keys_ofList, List.map_fst_zip haliases]
  · intro name
    rw [himports, Table.get?_ofList]

/-- Linking follows the requests, too. -/
theorem folds_link (importer : Importer (StateM τ)) (script : Script) (next : Nat) (state : τ) :
    ∃ r next' requests state',
      script.link importer next state = ((r, next'), state') ∧
      script.link importer.recorded next ([], state) = ((r, next'), (requests, state')) ∧
      ((∃ e, r = .error e ∧ Folds script .empty requests (.error e)) ∨
        ∃ id draft, r = .ok ⟨id, draft.imports, draft.decls⟩ ∧
          Folds script .empty requests (.ok draft)) := by
  obtain ⟨r, next', requests, state', hplain, hrecorded, hfolds⟩ :=
    folds_collect importer script .empty [] next state
  cases r with
  | error e =>
    exact ⟨.error e, next', requests, state', bind_of_eq hplain, bind_of_eq hrecorded,
      .inl ⟨e, rfl, hfolds⟩⟩
  | ok draft =>
    exact ⟨.ok ⟨next', draft.imports, draft.decls⟩, next' + 1, requests, state',
      bind_of_eq hplain, bind_of_eq hrecorded, .inr ⟨next', draft, rfl, hfolds⟩⟩

theorem load_eq_link {m : Type → Type} [Monad m] (importer : Importer m) {source : String}
    (h : ofSource source = .ok script) : load importer source = script.link importer := by
  unfold load
  rw [h]

open ChainScript.Tree

/--
Loading takes the declarations of a parsed script in order. The importer is asked for the paths of
the script one after the other, and for none after one that it refuses. The loading fails, with the
path and the reason, exactly if a path is refused. Otherwise each name stands for its last
declaration at the place of its first one, functions before imports.
-/
theorem load_takes_in_order {source : String} {t : Tree} (h : parseScript source = .ok t) :
    ∃ script, ofTree t = .ok script ∧
      ∀ (τ : Type) (importer : Importer (StateM τ)) (next : Nat) (state : τ),
        ∃ r next' requests state',
          ((load importer source).run next).run state = ((r, next'), state') ∧
          ((load importer.recorded source).run next).run ([], state) =
            ((r, next'), (requests, state')) ∧
          requests.map (·.path) <+: script.paths ∧
          (∀ q ∈ requests.dropLast, ∃ module, q = .supply q.path module) ∧
          (∀ e, r = .error e ↔
            ∃ path cause, e = .importRefused path cause ∧ .refusal path cause ∈ requests) ∧
          ∀ m, r = .ok m → ∃ modules : List Module, modules.length = script.paths.length ∧
            requests = List.zipWith Request.supply script.paths modules ∧
            Gives script modules m ∧
            m.names = (script.functions.map (·.name)).eraseDups ++ script.aliases.eraseDups := by
  obtain ⟨script, hscript⟩ := exists_ofTree (derives_of_parse h)
  have hsource : ofSource source = .ok script := ofSource_eq_ok_iff_parse.mpr ⟨t, h, hscript⟩
  refine ⟨script, hscript, ?_⟩
  intro τ importer next state
  obtain ⟨r, next', requests, state', hplain, hrecorded, hcase⟩ :=
    folds_link importer script next state
  rw [load_eq_link importer hsource, load_eq_link importer.recorded hsource]
  refine ⟨r, next', requests, state', hplain, hrecorded, ?_⟩
  rcases hcase with ⟨e, rfl, hfolds⟩ | ⟨id, draft, rfl, hfolds⟩
  · refine ⟨paths_of_folds hfolds, supplied_of_folds hfolds, ?_, by simp⟩
    intro e'
    rw [← refusal_of_folds hfolds]
    simp
  · refine ⟨paths_of_folds hfolds, supplied_of_folds hfolds, ?_, ?_⟩
    · intro e'
      rw [← refusal_of_folds hfolds]
      simp
    · rintro m ⟨⟩
      obtain ⟨modules, hlength, hrequests, hgives⟩ := gives_of_folds hfolds id
      refine ⟨modules, hlength, hrequests, hgives, ?_⟩
      rw [Module.names, hgives.functions, hgives.aliases]

namespace Repeated

/-- Functions and imports take turns, and names come again among both. -/
def source : String :=
  "'b' => l; f x => x; 'a' => f; g => f; memo f y => l.f y; 'c' => l; 'd' => d; h => g;"

def shelf : Registry := [("a", ⟨0, [], []⟩), ("b", ⟨1, [], []⟩), ("c", ⟨2, [], []⟩),
  ("d", ⟨3, [], []⟩)]

def gap : Registry := [("a", ⟨0, [], []⟩), ("b", ⟨1, [], []⟩), ("d", ⟨3, [], []⟩)]

def declares (functions aliases : List String) : Except LoadError Script → Bool
  | .ok script => script.functions.map (·.name) = functions && script.aliases = aliases
  | .error _ => false

theorem exists_of_declares {functions aliases : List String} {r : Except LoadError Script}
    (h : declares functions aliases r = true) :
    ∃ script, r = .ok script ∧ script.functions.map (·.name) = functions ∧
      script.aliases = aliases := by
  cases r with
  | error e => cases h
  | ok script =>
    obtain ⟨hfunctions, haliases⟩ := Bool.and_eq_true_iff.mp h
    exact ⟨script, rfl, of_decide_eq_true hfunctions, of_decide_eq_true haliases⟩

def isLinked : Except LoadError Module → Bool
  | .ok _ => true
  | .error _ => false

def isMissing (missing : String) : Except LoadError Module → Bool
  | .error (.importRefused path (.unknown path')) => path = missing && path' = missing
  | _ => false

theorem eq_of_isMissing {missing : String} {r : Except LoadError Module}
    (h : isMissing missing r = true) : r = .error (.importRefused missing (.unknown missing)) := by
  unfold isMissing at h
  split at h
  next path path' =>
    obtain ⟨hpath, hpath'⟩ := Bool.and_eq_true_iff.mp h
    rw [of_decide_eq_true hpath, of_decide_eq_true hpath']
  next => cases h

theorem load_takes_in_order_repeated :
    ∃ t script, parseScript source = .ok t ∧ ofTree t = .ok script ∧
      (∃ m next, ((load shelf.importer source : StateT Nat (StateM Unit) _).run 4).run () =
          ((.ok m, next), ()) ∧
        m.names = ["f", "g", "h", "l", "f", "d"]) ∧
      ∃ r next requests,
        ((load (gap.importer : Importer (StateM Unit)).recorded source).run 4).run ([], ()) =
          ((r, next), (requests, ())) ∧
        requests.map (·.path) <+: script.paths ∧
        Request.refusal "c" (.unknown "c") ∈ requests := by
  have hdeclares : declares ["f", "g", "f", "h"] ["l", "f", "l", "d"] (ofSource source) = true := by
    decide +kernel
  obtain ⟨script, hsource, hfunctions, haliases⟩ := exists_of_declares hdeclares
  obtain ⟨t, ht, hscript⟩ := ofSource_eq_ok_iff_parse.mp hsource
  obtain ⟨script', hscript', hload⟩ := load_takes_in_order ht
  obtain rfl : script = script' := Except.ok.inj (hscript.symm.trans hscript')
  refine ⟨t, script, ht, hscript, ?_, ?_⟩
  · obtain ⟨r, next, requests, ⟨⟩, hrun, -, -, -, -, hok⟩ := hload Unit shelf.importer 4 ()
    have hlinked : isLinked r = true :=
      (congrArg (fun q => isLinked q.1.1) hrun).symm.trans (by decide +kernel)
    cases r with
    | error e => cases hlinked
    | ok m =>
      obtain ⟨modules, -, -, -, hnames⟩ := hok m rfl
      refine ⟨m, next, hrun, ?_⟩
      rw [hnames, hfunctions, haliases]
      decide
  · obtain ⟨r, next, requests, ⟨⟩, hrun, hrecorded, hpaths, -, herror, -⟩ :=
      hload Unit gap.importer 4 ()
    have hmissing : isMissing "c" r = true :=
      (congrArg (fun q => isMissing "c" q.1.1) hrun).symm.trans (by decide +kernel)
    obtain ⟨path, cause, hcause, hmem⟩ := (herror _).mp (eq_of_isMissing hmissing)
    cases hcause
    exact ⟨r, next, requests, hrecorded, hpaths, hmem⟩

end Repeated

end Script

end ChainScript
