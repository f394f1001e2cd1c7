import ChainScript.Import
import ChainScript.Proofs.Expr.Allot
import ChainScript.Proofs.Table

/-!
Loaded modules. All that a script declares is functions, and loading it gives its memos numbers that
no other memo has.
-/
namespace ChainScript

variable {given more : Memos}

/--
The module comes from a script: it declares functions only, with memos that are among those given,
and so does every module that it imports.
-/
inductive Module.Loaded (given : Memos) : Module → Prop
  | mk {id : Nat} {imports : List (String × Module)} {decls : List (String × Decl)}
      (hi : ∀ e ∈ imports, Module.Loaded given e.2)
      (hd : ∀ e ∈ decls, ∃ l : Lambda Code, e.2 = .lambda l ∧ l.body.MemosIn given) :
      Module.Loaded given ⟨id, imports, decls⟩

theorem Module.loaded_of_imp {m : Module} (h : m.Loaded given)
    (himp : ∀ mark params body, given mark params body → more mark params body) :
    m.Loaded more := by
  induction h with
  | mk _ hd ih =>
    refine .mk ih ?_
    intro e he
    obtain ⟨l, hl, hmemos⟩ := hd e he
    exact ⟨l, hl, fun mark params body hm => himp _ _ _ (hmemos mark params body hm)⟩

/-- The memos in the functions of a module and of the modules that it imports. -/
inductive Module.HasMemo (mark : Nat) (params : List String) (body : Code) : Module → Prop
  | declared {m : Module} {name : String} {l : Lambda Code} (h : (name, Decl.lambda l) ∈ m.decls)
      (hm : l.body.memos mark params body) : Module.HasMemo mark params body m
  | imported {m : Module} {e : String × Module} (h : e ∈ m.imports)
      (hm : Module.HasMemo mark params body e.2) : Module.HasMemo mark params body m

theorem Module.given_of_hasMemo {m : Module} {mark : Nat} {params : List String} {body : Code}
    (h : m.HasMemo mark params body) (hm : m.Loaded given) : given mark params body := by
  induction h with
  | declared hmem hocc =>
    obtain ⟨_, hd⟩ := hm
    obtain ⟨l, hl, hmemos⟩ := hd _ hmem
    obtain rfl := Decl.lambda.inj hl
    exact hmemos _ _ _ hocc
  | imported hmem _ ih =>
    obtain ⟨hi, _⟩ := hm
    exact ih (hi _ hmem)

/--
The modules of the registry come from scripts that were loaded while the numbers below `next` were
given out.
-/
def Registry.Loaded (registry : Registry) (next : Nat) : Prop :=
  ∃ given : Memos, given.Numbered 0 next ∧ ∀ e ∈ registry, e.2.Loaded given

theorem Registry.loaded_nil (next : Nat) : Registry.Loaded [] next :=
  ⟨fun _ _ _ => False, Memos.numbered_of_le (Memos.numbered_none 0) (Nat.zero_le next), by simp⟩

namespace Draft

/-- What has been collected so far is imports and functions of loaded modules. -/
structure Loaded (given : Memos) (draft : Draft) : Prop where
  imports : ∀ e ∈ draft.imports, e.2.Loaded given
  decls : ∀ e ∈ draft.decls, ∃ l : Lambda Code, e.2 = .lambda l ∧ l.body.MemosIn given

variable {draft : Draft}

theorem loaded_of_imp (h : draft.Loaded given)
    (himp : ∀ mark params body, given mark params body → more mark params body) :
    draft.Loaded more := by
  refine ⟨fun e he => Module.loaded_of_imp (h.imports e he) himp, ?_⟩
  intro e he
  obtain ⟨l, hl, hmemos⟩ := h.decls e he
  exact ⟨l, hl, fun mark params body hm => himp _ _ _ (hmemos mark params body hm)⟩

theorem loaded_addImport {m : Module} (h : draft.Loaded given) (hm : m.Loaded given)
    (name : String) : (draft.addImport name m).Loaded given := by
  refine ⟨?_, h.decls⟩
  intro e he
  rcases Table.mem_insert he with rfl | he
  · exact hm
  · exact h.imports e he

theorem loaded_addFunction {l : Lambda Code} (h : draft.Loaded given)
    (hl : l.body.MemosIn given) : (draft.addFunction l).Loaded given := by
  refine ⟨h.imports, ?_⟩
  intro e he
  rcases Table.mem_insert he with rfl | he
  · exact ⟨l, rfl, hl⟩
  · exact h.decls e he

end Draft

namespace Script

variable {registry : Registry} {script : Script} {draft draft' : Draft} {next next' : Nat}
  {m : Module}

/-- The memos met while declarations are collected are numbered from the first free number on. -/
theorem loaded_of_collect (hreg : ∀ e ∈ registry, e.2.Loaded given) (hdraft : draft.Loaded given)
    (h : (collect registry.importer script draft : StateM Nat _).run next = (.ok draft', next')) :
    ∃ added : Memos, added.Numbered next next' ∧ draft'.Loaded (given.or added) := by
  induction script generalizing given draft next with
  | nil =>
    have hdone : (Except.ok draft, next) = (.ok draft', next') := h
    cases hdone
    exact ⟨_, Memos.numbered_none _, Draft.loaded_of_imp hdraft fun _ _ _ hm => .inl hm⟩
  | cons declaration rest ih =>
    cases declaration with
    | imports path name =>
      simp only [collect, Registry.importer, StateT.run_bind] at h
      cases hget : Table.get? path registry with
      | none =>
        rw [hget] at h
        cases h
      | some module =>
        rw [hget] at h
        exact ih hreg (Draft.loaded_addImport hdraft (hreg _ (Table.mem_of_get? hget)) name) h
    | defines lambda =>
      have hnumbered := Expr.numbered_allot lambda.body next
      have hreg' : ∀ e ∈ registry, e.2.Loaded (given.or (lambda.body.allot next).1.memos) :=
        fun e he => Module.loaded_of_imp (hreg e he) fun _ _ _ hm => .inl hm
      have hdraft' : (draft.addFunction (lambda.allot next).1).Loaded
          (given.or (lambda.body.allot next).1.memos) :=
        Draft.loaded_addFunction (Draft.loaded_of_imp hdraft fun _ _ _ hm => .inl hm)
          fun _ _ _ hm => .inr hm
      obtain ⟨added, hadded, hloaded⟩ := ih hreg' hdraft' h
      refine ⟨_, Memos.numbered_or hnumbered hadded, Draft.loaded_of_imp hloaded ?_⟩
      rintro mark params body ((hm | hm) | hm)
      · exact .inl hm
      · exact .inr (.inl hm)
      · exact .inr (.inr hm)

theorem load_eq_ok_iff {importer : Importer Id} {source : String} :
    (load importer source).run next = (.ok m, next') ↔
      ∃ script draft after, ofSource source = .ok script ∧
        (collect importer script .empty).run next = (.ok draft, after) ∧
        m = ⟨after, draft.imports, draft.decls⟩ ∧ next' = after + 1 := by
  unfold load
  cases hsource : ofSource source with
  | error e => exact ⟨nofun, fun ⟨_, _, _, h, _⟩ => nomatch h⟩
  | ok script =>
    simp only [link, StateT.run_bind]
    constructor
    · intro h
      rcases hcollect : (collect importer script .empty).run next with ⟨_ | draft, after⟩
      · rw [hcollect] at h
        cases h
      · rw [hcollect] at h
        cases h
        exact ⟨script, draft, after, rfl, hcollect, rfl, rfl⟩
    · rintro ⟨_, draft, after, hscript, hcollect, rfl, rfl⟩
      cases hscript
      rw [hcollect]
      rfl

theorem loaded_of_load {source : String} (hreg : ∀ e ∈ registry, e.2.Loaded given)
    (h : (load registry.importer source : StateM Nat _).run next = (.ok m, next')) :
    ∃ added : Memos, added.Numbered next next' ∧ m.Loaded (given.or added) := by
  obtain ⟨script, draft, after, -, hcollect, rfl, rfl⟩ := load_eq_ok_iff.mp h
  have hempty : Draft.empty.Loaded given := ⟨by simp [Draft.empty], by simp [Draft.empty]⟩
  obtain ⟨added, hadded, hloaded⟩ := loaded_of_collect hreg hempty hcollect
  refine ⟨added, ?_, .mk hloaded.imports hloaded.decls⟩
  exact Memos.numbered_of_le hadded (by omega)

/-- A registry of loaded modules stays one when a script that it can load is added. -/
theorem loaded_register {source path : String} (hreg : registry.Loaded next)
    (h : (load registry.importer source : StateM Nat _).run next = (.ok m, next')) :
    Registry.Loaded ((path, m) :: registry) next' := by
  obtain ⟨given, hgiven, hmodules⟩ := hreg
  obtain ⟨added, hadded, hm⟩ := loaded_of_load hmodules h
  refine ⟨_, Memos.numbered_or hgiven hadded, ?_⟩
  intro e he
  rcases List.mem_cons.mp he with rfl | he
  · exact hm
  · exact Module.loaded_of_imp (hmodules e he) fun _ _ _ hmemo => .inl hmemo

end Script

end ChainScript
