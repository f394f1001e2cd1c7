import Mathlib.Data.List.Nodup
import Mathlib.Data.List.Perm.Subperm
import ChainScript.Proofs.Load

/-!
Imports from finitely many files. A path is read when it is first asked for and kept once it is
loaded; the paths being loaded are different files, so there are never more imports inside each
other than files, and every loading comes to an end.
-/
namespace ChainScript

/-- Where a loading stands: the free numbers, the library, and the paths read so far. -/
@[ext]
structure Stage where
  next : Nat
  library : Library
  reads : List String

/-- Loading from a library, with every path noted that is read. -/
abbrev Loading (α : Type) := StateT Nat (StateT Library (StateT (List String) Option)) α

/-- Reads the source of a path. -/
def Loading.fetch (files : String → Except ImportError String) (path : String) :
    StateT (List String) Option (Except ImportError String) := do
  modify (· ++ [path])
  return files path

/-- The result of a loading that does not go too deep, and where it leaves off. -/
def Loading.exec {α : Type} (action : Loading α) (s : Stage) : Option (α × Stage) :=
  (((action.run s.next).run s.library).run s.reads).map fun (((a, next), library), reads) =>
    (a, ⟨next, library, reads⟩)

namespace Stage

def start (next : Nat) : Stage := ⟨next, .empty, []⟩

/-- The path has neither been loaded nor is it being loaded. -/
def isFresh (s : Stage) (path : String) : Bool :=
  (Table.get? path s.library.loaded).isNone && !s.library.loading.contains path

/-- After the path was read, while its source is being loaded. -/
def enter (s : Stage) (path : String) : Stage :=
  { s with library := s.library.enter path, reads := s.reads ++ [path] }

def leave (s : Stage) : Stage := { s with library := s.library.leave }

def add (s : Stage) (path : String) (module : Module) : Stage :=
  { s with library := s.library.add path module }

/-- The loaded modules of `s` are still there in `s'`. -/
def Keeps (s s' : Stage) : Prop :=
  ∀ path module, Table.get? path s.library.loaded = some module →
    Table.get? path s'.library.loaded = some module

end Stage

namespace Loading

variable {α β : Type} {s s' : Stage}

theorem exec_bind (action : Loading α) (next : α → Loading β) :
    (action >>= next).exec s = (action.exec s).bind fun (a, s') => (next a).exec s' := by
  simp only [exec, StateT.run_bind]
  cases h : ((action.run s.next).run s.library).run s.reads with
  | none => simp
  | some last => simp

theorem exec_bind_of_exec {action : Loading α} {a : α} (h : action.exec s = some (a, s'))
    (next : α → Loading β) : (action >>= next).exec s = (next a).exec s' := by
  rw [exec_bind, h, Option.bind_some]

end Loading

variable {files : String → Except ImportError String} {depth : Nat} {path name : String}
  {s s' : Stage}

/-- Imports from the files, whose paths are noted as they are read. -/
abbrev Library.filer (files : String → Except ImportError String) (depth : Nat) (path : String) :
    Loading (Except ImportError Module) :=
  importer (Loading.fetch files) depth path

namespace Script

variable {importer : String → Loading (Except ImportError Module)} {rest : Script} {draft : Draft}

theorem exec_collect_defines {lambda : Lambda Source} :
    Loading.exec (collect importer (.defines lambda :: rest) draft) s =
      Loading.exec (collect importer rest (draft.addFunction (lambda.allot s.next).1))
        { s with next := (lambda.allot s.next).2 } := rfl

theorem exec_link {script : Script} :
    Loading.exec (link importer script) s =
      (Loading.exec (collect importer script .empty) s).map fun
        | (.error e, s') => (.error e, s')
        | (.ok draft, s') =>
          (.ok ⟨s'.next, draft.imports, draft.decls⟩, { s' with next := s'.next + 1 }) := by
  rw [link, Loading.exec_bind]
  cases Loading.exec (collect importer script .empty) s with
  | none => rfl
  | some last =>
    obtain ⟨result, s'⟩ := last
    cases result <;> rfl

end Script

theorem Library.exec_filer :
    (filer files (depth + 1) path).exec s =
      match Table.get? path s.library.loaded with
      | some module => some (.ok module, s)
      | none =>
        if s.library.loading.contains path then some (.error (.cycle path), s)
        else
          match files path with
          | .error e => some (.error e, { s with reads := s.reads ++ [path] })
          | .ok source =>
            (Loading.exec (Script.load (filer files depth) source) (s.enter path)).map fun
              | (.error e, s') => (.error (.notLoaded path e), s'.leave)
              | (.ok module, s') => (.ok module, s'.leave.add path module) := by
  have hlibrary : Loading.exec (getThe Library) s = some (s.library, s) := rfl
  rw [filer, importer, Loading.exec_bind_of_exec hlibrary]
  cases Table.get? path s.library.loaded with
  | some module => rfl
  | none =>
    dsimp only
    by_cases hloading : s.library.loading.contains path = true
    · rw [if_pos hloading, if_pos hloading]
      rfl
    · rw [if_neg hloading, if_neg hloading]
      have hfetch : Loading.exec (liftM (Loading.fetch files path) : Loading _) s =
          some (files path, { s with reads := s.reads ++ [path] }) := rfl
      rw [Loading.exec_bind_of_exec hfetch]
      cases files path with
      | error e => rfl
      | ok source =>
        have henter : Loading.exec (modifyThe Library (enter path) : Loading _)
            { s with reads := s.reads ++ [path] } = some ((), s.enter path) := rfl
        dsimp only
        rw [Loading.exec_bind_of_exec henter, Loading.exec_bind]
        cases Loading.exec (Script.load (filer files depth) source) (s.enter path) with
        | none => rfl
        | some last =>
          obtain ⟨result, s'⟩ := last
          cases result <;> rfl

/-- An import that is asked for: the path, how deep its imports may go, and at which stage. -/
structure Library.Visit where
  depth : Nat
  path : String
  stage : Stage

namespace Library.Visit

def isFresh (v : Visit) : Bool := v.stage.isFresh v.path

def exec (files : String → Except ImportError String) (v : Visit) :
    Option (Except ImportError Module × Stage) :=
  (filer files v.depth v.path).exec v.stage

/-- The path is read, and loading its source succeeds. -/
def Loads (files : String → Except ImportError String) (v : Visit) (module : Module) : Prop :=
  v.isFresh = true ∧ ∃ depth source s', v.depth = depth + 1 ∧ files v.path = .ok source ∧
    Loading.exec (Script.load (filer files depth) source) (v.stage.enter v.path) =
      some (.ok module, s')

end Library.Visit

open Library (Visit)

/-- The imports asked for by the declarations in order, each with those inside it. -/
def Script.visits (importer : String → Loading (Except ImportError Module))
    (inner : String → Stage → List Visit) : Script → Stage → List Visit
  | [], _ => []
  | .imports path _ :: rest, s =>
    inner path s ++
      match (importer path).exec s with
      | some (.ok _, s') => visits importer inner rest s'
      | _ => []
  | .defines lambda :: rest, s =>
    visits importer inner rest { s with next := (lambda.allot s.next).2 }

/-- The imports asked for while a source is loaded. -/
def Script.visitsOf (importer : String → Loading (Except ImportError Module))
    (inner : String → Stage → List Visit) (source : String) (s : Stage) : List Visit :=
  match ofSource source with
  | .error _ => []
  | .ok script => script.visits importer inner s

/-- An import with the imports inside it. -/
def Library.visits (files : String → Except ImportError String) :
    Nat → String → Stage → List Visit
  | 0, path, s => [⟨0, path, s⟩]
  | depth + 1, path, s =>
    ⟨depth + 1, path, s⟩ ::
      if s.isFresh path then
        match files path with
        | .error _ => []
        | .ok source =>
          Script.visitsOf (filer files depth) (visits files depth) source (s.enter path)
      else []

/--
A stage at which an import may be asked for: the paths being loaded are different files, and room is
left for `depth` more of them.
-/
structure Stage.Sound (paths : List String) (depth : Nat) (s : Stage) : Prop where
  nodup : s.library.loading.Nodup
  files : ∀ path ∈ s.library.loading, path ∈ paths
  loading : ∀ path ∈ s.library.loading, Table.get? path s.library.loaded = none
  reads : s.reads.Nodup
  known : ∀ path ∈ s.reads, s.isFresh path = false
  room : paths.length < depth + s.library.loading.length

/-- What has happened from one stage to a later one at which the same paths are being loaded. -/
structure Course (files : String → Except ImportError String) (paths : List String)
    (s s' : Stage) (visits : List Visit) : Prop where
  loading : s'.library.loading = s.library.loading
  keeps : s.Keeps s'
  gained : ∀ path module, Table.get? path s'.library.loaded = some module →
    Table.get? path s.library.loaded = some module ∨
      ∃ v ∈ visits, v.path = path ∧ v.Loads files module
  reads : s'.reads = s.reads ++ (visits.filter Visit.isFresh).map Visit.path
  nodup : s'.reads.Nodup
  visited : ∀ v ∈ visits, v.stage.Sound paths v.depth ∧
    ∃ result s₁, v.exec files = some (result, s₁) ∧ s₁.Keeps s'

variable {paths : List String} {s₁ s₂ : Stage} {made more : List Visit} {module : Module}

namespace Stage

theorem isFresh_eq_true : s.isFresh path = true ↔
    Table.get? path s.library.loaded = none ∧ path ∉ s.library.loading := by
  simp [isFresh]

theorem isFresh_eq_false : s.isFresh path = false ↔
    (∃ module, Table.get? path s.library.loaded = some module) ∨ path ∈ s.library.loading := by
  rw [← Bool.not_eq_true, isFresh_eq_true, not_and_or, not_not, ← ne_eq,
    Option.ne_none_iff_exists']

theorem sound_start (next : Nat) (h : paths.length < depth) : (start next).Sound paths depth where
  nodup := List.nodup_nil
  files := by simp [start, Library.empty]
  loading := by simp [start, Library.empty]
  reads := List.nodup_nil
  known := by simp [start]
  room := by simpa [start, Library.empty] using h

theorem Sound.setNext (hs : s.Sound paths depth) (next : Nat) :
    ({ s with next := next } : Stage).Sound paths depth :=
  ⟨hs.nodup, hs.files, hs.loading, hs.reads, hs.known, hs.room⟩

/-- There is no room for more paths than there are files. -/
theorem Sound.depth_ne_zero (hs : s.Sound paths depth) : depth ≠ 0 := by
  rintro rfl
  have hle : s.library.loading.length ≤ paths.length :=
    (hs.nodup.subperm hs.files).length_le
  have hroom := hs.room
  omega

theorem Sound.nodup_read (hs : s.Sound paths depth) (hfresh : s.isFresh path = true) :
    (s.reads ++ [path]).Nodup := by
  refine List.nodup_append.mpr ⟨hs.reads, List.nodup_singleton path, ?_⟩
  rintro p hp _ (_ | ⟨_, ⟨⟩⟩) rfl
  rw [hs.known p hp] at hfresh
  cases hfresh

theorem Sound.enter (hs : s.Sound paths (depth + 1)) (hfresh : s.isFresh path = true)
    (hpath : path ∈ paths) : (s.enter path).Sound paths depth := by
  obtain ⟨hloaded, hloading⟩ := isFresh_eq_true.mp hfresh
  refine ⟨List.nodup_cons.mpr ⟨hloading, hs.nodup⟩, ?_, ?_, hs.nodup_read hfresh, ?_, ?_⟩
  · rintro p (_ | ⟨_, hp⟩)
    · exact hpath
    · exact hs.files p hp
  · rintro p (_ | ⟨_, hp⟩)
    · exact hloaded
    · exact hs.loading p hp
  · intro p hp
    rw [isFresh_eq_false]
    rcases List.mem_append.mp hp with hp | hp
    · rcases isFresh_eq_false.mp (hs.known p hp) with hp | hp
      · exact .inl hp
      · exact .inr (List.mem_cons_of_mem _ hp)
    · obtain rfl := List.mem_singleton.mp hp
      exact .inr List.mem_cons_self
  · have hroom := hs.room
    simp only [Stage.enter, Library.enter, List.length_cons]
    omega

/-- Once the path in front is loaded, there is room for one more. -/
theorem Sound.leave_add {rest : List String} (hs : s.Sound paths depth)
    (hloading : s.library.loading = path :: rest) :
    (s.leave.add path module).Sound paths (depth + 1) := by
  have hrest : (s.leave.add path module).library.loading = rest := by
    simp [leave, add, Library.leave, Library.add, hloading]
  have hget : ∀ p, Table.get? p (s.leave.add path module).library.loaded =
      if path = p then some module else Table.get? p s.library.loaded :=
    fun p => Table.get?_insert path p module s.library.loaded
  have hnodup := hs.nodup
  rw [hloading, List.nodup_cons] at hnodup
  refine ⟨?_, ?_, ?_, hs.reads, ?_, ?_⟩
  · rw [hrest]
    exact hnodup.2
  · intro p hp
    rw [hrest] at hp
    exact hs.files p (hloading ▸ List.mem_cons_of_mem _ hp)
  · intro p hp
    rw [hrest] at hp
    rw [hget, if_neg]
    · exact hs.loading p (hloading ▸ List.mem_cons_of_mem _ hp)
    · rintro rfl
      exact hnodup.1 hp
  · intro p hp
    rw [isFresh_eq_false, hget, hrest]
    by_cases hpath : path = p
    · exact .inl ⟨module, if_pos hpath⟩
    · rw [if_neg hpath]
      have hknown := isFresh_eq_false.mp (hs.known p hp)
      rw [hloading, List.mem_cons] at hknown
      rcases hknown with hp | hp | hp
      · exact .inl hp
      · exact (hpath hp.symm).elim
      · exact .inr hp
  · have hroom := hs.room
    rw [hloading, List.length_cons] at hroom
    rw [hrest]
    omega

theorem keeps_refl (s : Stage) : s.Keeps s := fun _ _ h => h

theorem Keeps.trans (h : s.Keeps s₁) (h' : s₁.Keeps s') : s.Keeps s' :=
  fun path module hget => h' path module (h path module hget)

end Stage

namespace Course

theorem refl (hreads : s.reads.Nodup) : Course files paths s s [] where
  loading := rfl
  keeps := s.keeps_refl
  gained := fun _ _ h => .inl h
  reads := (List.append_nil _).symm
  nodup := hreads
  visited := by simp

theorem setNext (h : Course files paths s s' made) (next : Nat) :
    Course files paths s { s' with next := next } made :=
  ⟨h.loading, h.keeps, h.gained, h.reads, h.nodup, h.visited⟩

theorem trans (h : Course files paths s s₁ made) (h' : Course files paths s₁ s' more) :
    Course files paths s s' (made ++ more) where
  loading := h'.loading.trans h.loading
  keeps := h.keeps.trans h'.keeps
  gained := by
    intro path module hget
    rcases h'.gained path module hget with hget | ⟨v, hv, hloads⟩
    · rcases h.gained path module hget with hget | ⟨v, hv, hloads⟩
      · exact .inl hget
      · exact .inr ⟨v, List.mem_append_left _ hv, hloads⟩
    · exact .inr ⟨v, List.mem_append_right _ hv, hloads⟩
  reads := by rw [h'.reads, h.reads, List.filter_append, List.map_append, List.append_assoc]
  nodup := h'.nodup
  visited := by
    intro v hv
    rcases List.mem_append.mp hv with hv | hv
    · obtain ⟨hsound, result, s₂, hexec, hkeeps⟩ := h.visited v hv
      exact ⟨hsound, result, s₂, hexec, hkeeps.trans h'.keeps⟩
    · exact h'.visited v hv

/-- An import that is settled at once. -/
theorem single {v : Visit} {result : Except ImportError Module} (hs : v.stage.Sound paths v.depth)
    (hexec : v.exec files = some (result, v.stage)) (hfresh : v.isFresh = false) :
    Course files paths v.stage v.stage [v] where
  loading := rfl
  keeps := v.stage.keeps_refl
  gained := fun _ _ h => .inl h
  reads := by simp [hfresh]
  nodup := hs.reads
  visited := by
    rintro _ (_ | ⟨_, ⟨⟩⟩)
    exact ⟨hs, result, v.stage, hexec, v.stage.keeps_refl⟩

/-- An import around what happens once its path was read. -/
theorem enclose {v : Visit} {result : Except ImportError Module} (hs : v.stage.Sound paths v.depth)
    (hexec : v.exec files = some (result, s')) (hfresh : v.isFresh = true)
    (h : Course files paths (v.stage.enter v.path) s₁ made)
    (hloading : s'.library.loading = v.stage.library.loading) (hkeeps : s₁.Keeps s')
    (hgained : ∀ path module, Table.get? path s'.library.loaded = some module →
      Table.get? path s₁.library.loaded = some module ∨ v.path = path ∧ v.Loads files module)
    (hreads : s'.reads = s₁.reads) :
    Course files paths v.stage s' (v :: made) where
  loading := hloading
  keeps := Stage.Keeps.trans h.keeps hkeeps
  gained := by
    intro path module hget
    rcases hgained path module hget with hget | ⟨hpath, hloads⟩
    · rcases h.gained path module hget with hget | ⟨u, hu, hloads⟩
      · exact .inl hget
      · exact .inr ⟨u, List.mem_cons_of_mem _ hu, hloads⟩
    · exact .inr ⟨v, List.mem_cons_self, hpath, hloads⟩
  reads := by
    rw [hreads, h.reads, List.filter_cons_of_pos hfresh, List.map_cons]
    exact List.append_assoc _ [v.path] _
  nodup := hreads ▸ h.nodup
  visited := by
    rintro u (_ | ⟨_, hu⟩)
    · exact ⟨hs, result, s', hexec, s'.keeps_refl⟩
    · obtain ⟨hsound, result, s₂, hexec, hkept⟩ := h.visited u hu
      exact ⟨hsound, result, s₂, hexec, hkept.trans hkeeps⟩

/-- An import whose source is refused. -/
theorem not_loaded {v : Visit} {result : Except ImportError Module}
    (hs : v.stage.Sound paths v.depth) (hexec : v.exec files = some (result, s₁.leave))
    (hfresh : v.isFresh = true) (h : Course files paths (v.stage.enter v.path) s₁ made) :
    Course files paths v.stage s₁.leave (v :: made) := by
  refine enclose hs hexec hfresh h ?_ s₁.keeps_refl (fun _ _ hget => .inl hget) rfl
  simp [Stage.leave, Library.leave, h.loading, Stage.enter, Library.enter]

/-- An import whose source is loaded. Its path is new among those loaded: it was being loaded. -/
theorem loaded {v : Visit} {result : Except ImportError Module} (hs : v.stage.Sound paths v.depth)
    (hexec : v.exec files = some (result, s₁.leave.add v.path module))
    (hloads : v.Loads files module) (hsound : s₁.Sound paths depth)
    (h : Course files paths (v.stage.enter v.path) s₁ made) :
    Course files paths v.stage (s₁.leave.add v.path module) (v :: made) := by
  have hget : ∀ path, Table.get? path (s₁.leave.add v.path module).library.loaded =
      if v.path = path then some module else Table.get? path s₁.library.loaded :=
    fun path => Table.get?_insert v.path path module s₁.library.loaded
  refine enclose hs hexec hloads.1 h ?_ ?_ ?_ rfl
  · simp [Stage.leave, Stage.add, Library.leave, Library.add, h.loading, Stage.enter,
      Library.enter]
  · intro path other hother
    have hne : v.path ≠ path := by
      rintro rfl
      have hnone := hsound.loading v.path (h.loading ▸ List.mem_cons_self)
      rw [hother] at hnone
      cases hnone
    rw [hget, if_neg hne, hother]
  · intro path other hother
    rw [hget] at hother
    split at hother
    next hpath =>
      obtain rfl := Option.some.inj hother
      exact .inr ⟨hpath, hloads⟩
    next => exact .inl hother

end Course

/-- Every import that may be asked for ends, and one that succeeds is kept under its path. -/
def Completes (files : String → Except ImportError String) (paths : List String) (depth : Nat)
    (importer : String → Loading (Except ImportError Module))
    (inner : String → Stage → List Visit) : Prop :=
  ∀ path s, s.Sound paths depth → ∃ result s', (importer path).exec s = some (result, s') ∧
    Course files paths s s' (inner path s) ∧
    ∀ module, result = .ok module → s'.Sound paths depth ∧
      Table.get? path s'.library.loaded = some module

namespace Script

variable {importer : String → Loading (Except ImportError Module)}
  {inner : String → Stage → List Visit}

theorem course_of_collect (himporter : Completes files paths depth importer inner)
    (script : Script) (draft : Draft) (hs : s.Sound paths depth) :
    ∃ result s', Loading.exec (collect importer script draft) s = some (result, s') ∧
      Course files paths s s' (script.visits importer inner s) ∧
      ∀ draft', result = .ok draft' → s'.Sound paths depth := by
  induction script generalizing draft s with
  | nil => exact ⟨.ok draft, s, rfl, .refl hs.reads, fun _ _ => hs⟩
  | cons declaration rest ih =>
    cases declaration with
    | imports path name =>
      obtain ⟨result, s₁, hexec, hcourse, hok⟩ := himporter path s hs
      rw [collect, Loading.exec_bind_of_exec hexec, visits, hexec]
      cases result with
      | error e =>
        refine ⟨.error (.importRefused path e), s₁, rfl, ?_, by simp⟩
        simpa using hcourse
      | ok module =>
        obtain ⟨result, s', hrest, hcourse', hok'⟩ := ih (draft.addImport name module) (hok _ rfl).1
        exact ⟨result, s', hrest, hcourse.trans hcourse', hok'⟩
    | defines lambda =>
      have hs₁ := hs.setNext (lambda.allot s.next).2
      obtain ⟨result, s', hrest, hcourse, hok⟩ :=
        ih (draft.addFunction (lambda.allot s.next).1) hs₁
      rw [exec_collect_defines, visits]
      exact ⟨result, s', hrest, ((Course.refl hs.reads).setNext _).trans hcourse, hok⟩

theorem course_of_load (himporter : Completes files paths depth importer inner) (source : String)
    (hs : s.Sound paths depth) :
    ∃ result s', Loading.exec (load importer source) s = some (result, s') ∧
      Course files paths s s' (visitsOf importer inner source s) ∧
      ∀ module, result = .ok module → s'.Sound paths depth := by
  unfold load visitsOf
  cases ofSource source with
  | error e => exact ⟨.error e, s, rfl, .refl hs.reads, by simp⟩
  | ok script =>
    obtain ⟨result, s₁, hexec, hcourse, hok⟩ := course_of_collect himporter script .empty hs
    dsimp only
    rw [exec_link, hexec]
    cases result with
    | error e => exact ⟨.error e, s₁, rfl, hcourse, by simp⟩
    | ok draft => exact ⟨_, _, rfl, hcourse.setNext _, fun _ _ => (hok _ rfl).setNext _⟩

end Script

namespace Library

/-- A path that is loaded or being loaded is settled at once. -/
theorem exec_of_not_fresh (files : String → Except ImportError String) (depth : Nat)
    (hfresh : s.isFresh path = false) :
    ∃ result, (filer files (depth + 1) path).exec s = some (result, s) ∧
      ∀ module, result = .ok module → Table.get? path s.library.loaded = some module := by
  rw [exec_filer]
  cases hget : Table.get? path s.library.loaded with
  | some module => exact ⟨.ok module, rfl, fun _ h => congrArg some (Except.ok.inj h)⟩
  | none =>
    have hloading : path ∈ s.library.loading := by simpa [Stage.isFresh, hget] using hfresh
    exact ⟨.error (.cycle path), by simp [hloading], by simp⟩

theorem exec_of_loading {v : Visit} (hs : v.stage.Sound paths v.depth)
    (hloading : v.path ∈ v.stage.library.loading) :
    v.exec files = some (.error (.cycle v.path), v.stage) := by
  obtain ⟨depth, hdepth⟩ := Nat.exists_eq_succ_of_ne_zero hs.depth_ne_zero
  rw [Visit.exec, hdepth, exec_filer, hs.loading v.path hloading]
  simp [hloading]

theorem exec_of_unreadable {e : ImportError} (hfresh : s.isFresh path = true)
    (hfile : files path = .error e) :
    (filer files (depth + 1) path).exec s =
      some (.error e, { s with reads := s.reads ++ [path] }) := by
  obtain ⟨hget, hloading⟩ := Stage.isFresh_eq_true.mp hfresh
  simp [exec_filer, hget, hloading, hfile]

theorem exec_of_not_loaded {source : String} {e : LoadError} (hfresh : s.isFresh path = true)
    (hfile : files path = .ok source)
    (hload : Loading.exec (Script.load (filer files depth) source) (s.enter path) =
      some (.error e, s₁)) :
    (filer files (depth + 1) path).exec s = some (.error (.notLoaded path e), s₁.leave) := by
  obtain ⟨hget, hloading⟩ := Stage.isFresh_eq_true.mp hfresh
  simp [exec_filer, hget, hloading, hfile, hload]

theorem exec_of_loaded {source : String} (hfresh : s.isFresh path = true)
    (hfile : files path = .ok source)
    (hload : Loading.exec (Script.load (filer files depth) source) (s.enter path) =
      some (.ok module, s₁)) :
    (filer files (depth + 1) path).exec s = some (.ok module, s₁.leave.add path module) := by
  obtain ⟨hget, hloading⟩ := Stage.isFresh_eq_true.mp hfresh
  simp [exec_filer, hget, hloading, hfile, hload]

/-- By induction on the room that is left: a path that is read takes up some of it. -/
theorem filer_completes (hfiles : ∀ path source, files path = .ok source → path ∈ paths)
    (depth : Nat) : Completes files paths depth (filer files depth) (visits files depth) := by
  induction depth with
  | zero => exact fun _ _ hs => (hs.depth_ne_zero rfl).elim
  | succ depth ih =>
    intro path s hs
    let v : Visit := ⟨depth + 1, path, s⟩
    rw [visits]
    cases hfresh : s.isFresh path with
    | false =>
      obtain ⟨result, hexec, hkept⟩ := exec_of_not_fresh files depth hfresh
      have hcourse : Course files paths s s [v] := .single (v := v) hs hexec hfresh
      exact ⟨result, s, hexec, hcourse, fun module hok => ⟨hs, hkept module hok⟩⟩
    | true =>
      cases hfile : files path with
      | error e =>
        have hexec : v.exec files = some (.error e, { s with reads := s.reads ++ [path] }) :=
          exec_of_unreadable hfresh hfile
        have hcourse : Course files paths s { s with reads := s.reads ++ [path] } [v] :=
          .enclose hs hexec hfresh (.refl (hs.nodup_read hfresh)) rfl (Stage.keeps_refl _)
            (fun _ _ h => .inl h) rfl
        exact ⟨.error e, _, hexec, hcourse, by simp⟩
      | ok source =>
        have hentered := hs.enter hfresh (hfiles path source hfile)
        obtain ⟨result, s₁, hload, hcourse, hok⟩ := Script.course_of_load ih source hentered
        cases result with
        | error e =>
          have hexec : v.exec files = some (.error (.notLoaded path e), s₁.leave) :=
            exec_of_not_loaded hfresh hfile hload
          exact ⟨_, _, hexec, .not_loaded hs hexec hfresh hcourse, by simp⟩
        | ok module =>
          have hexec : v.exec files = some (.ok module, s₁.leave.add path module) :=
            exec_of_loaded hfresh hfile hload
          have hloads : v.Loads files module := ⟨hfresh, depth, source, s₁, rfl, hfile, hload⟩
          have hsound := hok module rfl
          refine ⟨_, _, hexec, .loaded hs hexec hloads hsound hcourse, ?_⟩
          intro other hother
          obtain rfl := Except.ok.inj hother
          refine ⟨hsound.leave_add hcourse.loading, ?_⟩
          exact (Table.get?_insert path path module _).trans (if_pos rfl)

end Library

section Deeper

variable {importer deeper : String → Loading (Except ImportError Module)}

/-- Loading asks its importer only: one that ends wherever another does leads to the same. -/
theorem Script.exec_load_mono {source : String} {last : Except LoadError Module × Stage}
    (h : ∀ path s last, (importer path).exec s = some last → (deeper path).exec s = some last)
    (hload : Loading.exec (load importer source) s = some last) :
    Loading.exec (load deeper source) s = some last := by
  have hcollect : ∀ (script : Script) draft s last,
      Loading.exec (collect importer script draft) s = some last →
        Loading.exec (collect deeper script draft) s = some last := by
    intro script
    induction script with
    | nil => exact fun _ _ _ hlast => hlast
    | cons declaration rest ih =>
      intro draft s last hlast
      cases declaration with
      | imports path name =>
        rw [collect, Loading.exec_bind] at hlast ⊢
        obtain ⟨⟨result, s₁⟩, himport, hrest⟩ := Option.bind_eq_some_iff.mp hlast
        rw [h path s _ himport, Option.bind_some]
        cases result with
        | error e => exact hrest
        | ok module => exact ih _ _ _ hrest
      | defines lambda =>
        rw [exec_collect_defines] at hlast ⊢
        exact ih _ _ _ hlast
  unfold load at hload ⊢
  cases hsource : ofSource source with
  | error e =>
    rw [hsource] at hload
    exact hload
  | ok script =>
    rw [hsource] at hload
    dsimp only at hload ⊢
    rw [exec_link] at hload ⊢
    obtain ⟨collected, hcollected, rfl⟩ := Option.map_eq_some_iff.mp hload
    rw [hcollect script .empty s collected hcollected, Option.map_some]

theorem Library.exec_filer_mono {last : Except ImportError Module × Stage}
    (h : (filer files depth path).exec s = some last) :
    (filer files (depth + 1) path).exec s = some last := by
  induction depth generalizing path s last with
  | zero => cases h
  | succ depth ih =>
    rw [exec_filer] at h ⊢
    cases hget : Table.get? path s.library.loaded with
    | some module => simpa only [hget] using h
    | none =>
      by_cases hloading : s.library.loading.contains path = true
      · simpa only [hget, if_pos hloading] using h
      · simp only [hget, if_neg hloading] at h ⊢
        cases hfile : files path with
        | error e => simpa only [hfile] using h
        | ok source =>
          simp only [hfile] at h ⊢
          obtain ⟨loaded, hload, rfl⟩ := Option.map_eq_some_iff.mp h
          rw [Script.exec_load_mono (fun _ _ _ => ih) hload, Option.map_some]

end Deeper

namespace Library

/--
From a fresh library, a script is loaded to the same end with any depth beyond the number of files.
Every path is read once at most. Every import that is asked for on the way ends: in a cycle, if its
path is being loaded; with the paths being loaded as they were, and with no more loaded than the
paths whose load it saw succeed; and with the module that is kept under its path, if with any.
-/
theorem load_reads_once (hfiles : ∀ path source, files path = .ok source → path ∈ paths)
    (source : String) (next : Nat) :
    ∃ result last, ∀ depth, paths.length < depth →
      Loading.exec (Script.load (filer files depth) source) (.start next) = some (result, last) ∧
      last.library.loading = [] ∧
      last.reads = (((Script.visitsOf (filer files depth) (visits files depth) source
        (.start next)).filter Visit.isFresh).map Visit.path) ∧
      last.reads.Nodup ∧
      ∀ v ∈ Script.visitsOf (filer files depth) (visits files depth) source (.start next),
        ∃ outcome s', v.exec files = some (outcome, s') ∧
          (v.path ∈ v.stage.library.loading → outcome = .error (.cycle v.path)) ∧
          s'.library.loading = v.stage.library.loading ∧
          v.stage.Keeps s' ∧
          (∀ path module, Table.get? path s'.library.loaded = some module →
            Table.get? path v.stage.library.loaded = some module ∨
              ∃ u ∈ visits files v.depth v.path v.stage, u.path = path ∧ u.Loads files module) ∧
          ∀ module, outcome = .ok module →
            Table.get? v.path last.library.loaded = some module := by
  have hends : ∀ depth, paths.length < depth → ∃ result last,
      Loading.exec (Script.load (filer files depth) source) (.start next) = some (result, last) ∧
      Course files paths (.start next) last
        (Script.visitsOf (filer files depth) (visits files depth) source (.start next)) := by
    intro depth hdepth
    obtain ⟨result, last, hexec, hcourse, -⟩ := Script.course_of_load (filer_completes hfiles depth)
      source (Stage.sound_start next hdepth)
    exact ⟨result, last, hexec, hcourse⟩
  obtain ⟨result, last, hexec, -⟩ := hends (paths.length + 1) (Nat.lt_succ_self _)
  refine ⟨result, last, ?_⟩
  intro depth hdepth
  have hsame : Loading.exec (Script.load (filer files depth) source) (.start next) =
      some (result, last) := by
    induction hdepth with
    | refl => exact hexec
    | step _ ih => exact Script.exec_load_mono (fun _ _ _ => exec_filer_mono) ih
  obtain ⟨result', last', hexec', hcourse⟩ := hends depth hdepth
  obtain ⟨rfl, rfl⟩ := Prod.mk.inj (Option.some.inj (hsame.symm.trans hexec'))
  refine ⟨hsame, hcourse.loading, hcourse.reads, hcourse.nodup, ?_⟩
  intro v hv
  obtain ⟨hsound, outcome, s', hvisit, hkept⟩ := hcourse.visited v hv
  obtain ⟨outcome', s'', hvisit', hown, hok⟩ := filer_completes hfiles v.depth v.path v.stage hsound
  obtain ⟨rfl, rfl⟩ := Prod.mk.inj (Option.some.inj (hvisit.symm.trans hvisit'))
  refine ⟨outcome, s', hvisit, ?_, hown.loading, hown.keeps, hown.gained, ?_⟩
  · intro hloading
    rw [exec_of_loading hsound hloading] at hvisit
    exact (Prod.mk.inj (Option.some.inj hvisit)).1.symm
  · intro module houtcome
    exact hkept _ _ (hok module houtcome).2

/-- Two files that import each other. -/
def circular (path : String) : Except ImportError String :=
  if path = "a" then .ok "'b' => b;"
  else if path = "b" then .ok "'a' => a;"
  else .error (.unknown path)

theorem load_reads_once_circular :
    (∀ path source, circular path = .ok source → path ∈ ["a", "b"]) ∧
    ∃ result last,
      Loading.exec (Script.load (filer circular 3) "'a' => a;") (.start 0) = some (result, last) ∧
      last.library.loading = [] ∧ last.reads = ["a", "b"] := by
  have hfiles : ∀ path source, circular path = .ok source → path ∈ ["a", "b"] := by
    intro path source h
    unfold circular at h
    grind
  refine ⟨hfiles, ?_⟩
  obtain ⟨result, last, hlast⟩ := load_reads_once hfiles "'a' => a;" 0
  obtain ⟨hexec, hloading, -⟩ := hlast 3 (by decide)
  have hreads : (Loading.exec (Script.load (filer circular 3) "'a' => a;") (.start 0)).map
      (·.2.reads) = some ["a", "b"] := by decide +kernel
  rw [hexec] at hreads
  exact ⟨result, last, hexec, hloading, Option.some.inj hreads⟩

end Library

end ChainScript
