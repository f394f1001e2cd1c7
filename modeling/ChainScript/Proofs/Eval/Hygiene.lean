import ChainScript.Proofs.Eval.Application
import ChainScript.Proofs.Eval.Scoping

/-!
Import hygiene. However a module is reached through imports, its functions are closed over the base
scope and the level of that module, and over nothing of the modules on the way. So a function does
the same wherever it is imported, as long as it is given no more arguments than it takes: what is
left over goes to its result in the frame of the caller.
-/
namespace ChainScript

open Proc

variable {σ : Type} {host : Host σ} {m target : Module} {base s t : Scope} {x f : String}
  {l : Lambda Code} {frame : Frame} {args : List Value} {v : Value} {w w' : World σ}

/-- The aliases lead from a module through its imports. A declared name hides an alias. -/
inductive Module.Leads : Module → List String → Module → Prop
  | here (m : Module) : Leads m [] m
  | step {m next target : Module} {hop : String} {rest : List String}
      (hd : Table.get? hop m.decls = none) (hi : Table.get? hop m.imports = some next)
      (h : Leads next rest target) : Leads m (hop :: rest) target

/-- The scope is `base` with more levels in front of it, none of which has the name `x`. -/
inductive Scope.Over (x : String) (base : Scope) : Scope → Prop
  | refl : Over x base base
  | bound {names : List (String × Value)} {s : Scope} (hx : Table.get? x names = none)
      (h : Over x base s) : Over x base (.bound names s)
  | members {space : Namespace} {s : Scope} (hx : space.resolve? x = none) (h : Over x base s) :
      Over x base (.members space s)

namespace Scope

theorem find?_of_over (h : Over x base s) : s.find? x = base.find? x := by
  induction h with
  | refl => rfl
  | bound hx _ ih => simp [find?, hx, ih]
  | members hx _ ih => simp [find?, hx, ih]

theorem over_addAll {names : List (String × Value)} (h : Over x base s)
    (hx : x ∉ names.map (·.1)) : Over x base (s.addAll names) := by
  rw [addAll]
  split
  · exact h
  · refine .bound ?_ h
    cases hget : Table.get? x (Table.ofList names) with
    | none => rfl
    | some v =>
      have hmem := Table.mem_ofList (Table.mem_of_get? hget)
      exact (hx (List.mem_map_of_mem hmem)).elim

end Scope

namespace Module

theorem resolve?_import {next : Module} (hd : Table.get? x m.decls = none)
    (hi : Table.get? x m.imports = some next) :
    m.resolve? x (.module m base) = some (.value (.module (next.space base))) := by
  simp [resolve?, hd, hi, Scope.outer, space]

theorem resolve?_function (hf : Table.get? f m.decls = some (.lambda l)) :
    m.resolve? f (.module m base) = some (.function l (.module m base)) := by
  simp [resolve?, hf]

/-- The scope in which the body of a function of the module runs, with `base` around the module. -/
def bodyScope (m : Module) (base : Scope) (id : Nat) (l : Lambda Code) (args : List Value) :
    Scope :=
  ((Scope.module m base).add l.name (.closure id l (.module m base))).addAll (l.params.zip args)

theorem over_bodyScope {id : Nat} (hname : x ≠ l.name) (hparams : x ∉ l.params) :
    Scope.Over x (.module m base) (m.bodyScope base id l args) := by
  refine Scope.over_addAll (.bound ?_ .refl) ?_
  · simp [Table.get?, hname.symm]
  · intro hx
    obtain ⟨⟨y, v⟩, hmem, rfl⟩ := List.mem_map.mp hx
    exact hparams (List.of_mem_zip hmem).1

/-- A module that is called closes its functions over its own level and the scope of the frame. -/
theorem call_runs_iff (hf : Table.get? f m.decls = some (.lambda l))
    (henough : l.params.length ≤ args.length) :
    (m.call frame f args).Runs host w v w' ↔
      (Call.checked (frame.descend l.name)
        (l.body.eval ((frame.descend l.name).withScope (m.bodyScope frame.scope w.next l args)) [])
        (frame.withScope (.module m frame.scope)) (args.drop l.params.length)).Runs host
        { w with next := w.next + 1 } v w' := by
  have hspace : (m.space frame.scope).resolve? f =
      some (.function l (.module m frame.scope)) := resolve?_function hf
  have hclosure : (realize (.function l (.module m frame.scope)) : Proc σ Value).Runs host w
      (.closure w.next l (.module m frame.scope)) { w with next := w.next + 1 } := ⟨0, rfl⟩
  unfold call
  simp only [hspace]
  rw [runs_bind_iff hclosure, runs_invoke_iff, Call.answers_iff_runs]
  simp only [Call.proc, Call.runClosure, if_neg (Nat.not_lt.mpr henough)]
  rfl

end Module

namespace Expr

variable {κ : Type} {e : Code} {hop : String} {rest : List String}

/-- The access to a member through further members, from left to right. -/
def path (first : String) (rest : List String) : Expr κ := rest.foldl member (var first)

theorem runs_member {space : Namespace} {b : Binding}
    (he : (e.eval frame []).Runs host w (.module space) w') (hb : space.resolve? x = some b)
    {w'' : World σ} :
    ((member e x).eval frame args).Runs host w v w'' ↔
      (do invoke (← realize b) frame args).Runs host w' v w'' := by
  rw [eval, runs_bind_iff he]
  simp only [hb]

/-- Aliases in a row are followed without a change of the world, each to the level of its module. -/
theorem runs_members (hleads : m.Leads rest target)
    (he : (e.eval frame []).Runs host w (.module (m.space base)) w) :
    ((rest.foldl member e).eval frame []).Runs host w (.module (target.space base)) w := by
  induction hleads generalizing e with
  | here m => exact he
  | @step m next target hop rest hd hi _ ih =>
    refine ih ?_
    rw [runs_member he (Module.resolve?_import hd hi)]
    exact runs_bind runs_done (runs_invoke (Call.answers_iff_runs.mpr runs_done))

theorem runs_path (hleads : m.Leads (hop :: rest) target)
    (hs : Scope.Over hop (.module m base) frame.scope) :
    ((path hop rest).eval frame []).Runs host w (.module (target.space base)) w := by
  obtain _ | @⟨_, next, _, _, _, hd, hi, hrest⟩ := hleads
  refine runs_members hrest ?_
  have hfind : frame.scope.find? hop = some (.value (.module (next.space base))) := by
    rw [Scope.find?_of_over hs, Scope.find?, Module.resolve?_import hd hi]
    rfl
  rw [eval, hfind]
  exact runs_bind runs_done (runs_invoke (Call.answers_iff_runs.mpr runs_done))

/--
The expression stands for a function in a frame: it does what a new closure of the function over the
scope does.
-/
def StandsFor (host : Host σ) (l : Lambda Code) (scope : Scope) (e : Code) (frame : Frame) :
    Prop :=
  ∀ args w v w', (e.eval frame args).Runs host w v w' ↔
    Call.Answers host ⟨.closure w.next l scope, frame, args⟩ { w with next := w.next + 1 } v w'

theorem runs_realized_function {scope : Scope} :
    (do invoke (← realize (.function l scope)) frame args).Runs host w v w' ↔
      Call.Answers host ⟨.closure w.next l scope, frame, args⟩ { w with next := w.next + 1 }
        v w' := by
  have hclosure : (realize (.function l scope) : Proc σ Value).Runs host w
      (.closure w.next l scope) { w with next := w.next + 1 } := ⟨0, rfl⟩
  rw [runs_bind_iff hclosure, runs_invoke_iff]

/--
The expression is an access to the member `f` of `target` from code of the module `m` with `base`
around it: through a path of aliases, or by its name alone inside the parentheses after such a path.
-/
inductive Accesses (base : Scope) (target : Module) (f : String) : Module → Code → Frame → Prop
  | member {m : Module} {hop : String} {rest : List String} {frame : Frame}
      (hleads : m.Leads (hop :: rest) target)
      (hs : Scope.Over hop (.module m base) frame.scope) :
      Accesses base target f m (.member (.path hop rest) f) frame
  | inside {m : Module} {hop : String} {rest : List String} {s : Scope} {frame : Frame}
      (hleads : m.Leads (hop :: rest) target) (hs : Scope.Over hop (.module m base) s)
      (hf : Scope.Over f (.members (target.space base) s) frame.scope) :
      Accesses base target f m (.var f) frame

/-- Whichever way a function is reached, it is closed over the level of its own module. -/
theorem standsFor_of_accesses (hf : Table.get? f target.decls = some (.lambda l))
    (h : Accesses base target f m e frame) :
    StandsFor host l (.module target base) e frame := by
  intro args w v w'
  cases h with
  | member hleads hs =>
    have hfound : (target.space base).resolve? f = some (.function l (.module target base)) :=
      Module.resolve?_function hf
    rw [runs_member (runs_path hleads hs) hfound, runs_realized_function]
  | inside _ _ hname =>
    have hfind : frame.scope.find? f = some (.function l (.module target base)) := by
      rw [Scope.find?_of_over hname, Scope.find?, Namespace.resolve?]
      simp [Module.space, Module.resolve?_function hf]
    rw [eval, hfind]
    exact runs_realized_function

/-- The parentheses after a path have the members of its module in front. -/
theorem runs_within_path {body : Code} (hleads : m.Leads (hop :: rest) target)
    (hs : Scope.Over hop (.module m base) frame.scope) :
    ((within (path hop rest) body).eval frame args).Runs host w v w' ↔
      (body.eval (frame.withScope (.members (target.space base) frame.scope)) args).Runs host
        w v w' := by
  rw [eval, runs_bind_iff (runs_path hleads hs)]

end Expr

namespace Call

variable {id : Nat} {scope : Scope}

/-- With no more arguments than it takes, a function leaves the scope of its caller alone. -/
theorem proc_closure_withScope (hargs : args.length ≤ l.params.length) (s : Scope) :
    proc host ⟨.closure id l scope, frame.withScope s, args⟩ =
      proc host ⟨.closure id l scope, frame, args⟩ := by
  have hdrop : args.drop l.params.length = [] := List.drop_eq_nil_iff.mpr hargs
  simp only [proc, runClosure, hdrop, applyRest]
  rfl

/-- Nothing in the base scope, the module, the arguments and the caches is code without a scope. -/
structure Sealed (target : Module) (base : Scope) (args : List Value) (w : World σ) : Prop where
  module : target.Obeys (Policy.sealed σ)
  base : base.Obeys (Policy.sealed σ)
  args : ∀ a ∈ args, a.Obeys (Policy.sealed σ)
  world : w.Obeys (Policy.sealed σ)

theorem answers_withScope
    (h : args.length ≤ l.params.length ∨ Sealed target base args w) (s : Scope) :
    Answers host ⟨.closure id l (.module target base), frame.withScope s, args⟩ w v w' ↔
      Answers host ⟨.closure id l (.module target base), frame, args⟩ w v w' := by
  rcases h with hfew | hsealed
  · rw [answers_iff_runs, answers_iff_runs, proc_closure_withScope hfew]
  · have hc : Call.Obeys (Policy.sealed σ)
        ⟨.closure id l (.module target base), frame, args⟩ :=
      ⟨.closure id (fun _ _ _ _ => trivial) (.module hsealed.module hsealed.base), hsealed.args⟩
    exact exists_congr fun fuel => by rw [← answer_withScope fuel hc hsealed.world s]

end Call

namespace Module

/--
The functions of a called module see its level behind their own names. From there a function of an
imported module is closed over the base scope and the level of its own module, whichever way it is
reached; and it does the same from any two modules, if there are no more arguments than it takes or
nothing looks at the scope of its caller.
-/
theorem import_hygiene (hf : Table.get? f target.decls = some (.lambda l)) (host : Host σ) :
    (∀ m name entry frame args w v w', Table.get? name m.decls = some (.lambda entry) →
      entry.params.length ≤ args.length →
      ((m.call frame name args).Runs host w v w' ↔
        (Call.checked (frame.descend entry.name)
          (entry.body.eval
            ((frame.descend entry.name).withScope (m.bodyScope frame.scope w.next entry args)) [])
          (frame.withScope (.module m frame.scope)) (args.drop entry.params.length)).Runs host
          { w with next := w.next + 1 } v w') ∧
      ∀ x, x ≠ entry.name → x ∉ entry.params →
        Scope.Over x (.module m frame.scope) (m.bodyScope frame.scope w.next entry args)) ∧
    (∀ m base frame hop rest body args w v w', m.Leads (hop :: rest) target →
      Scope.Over hop (.module m base) frame.scope →
      (((Expr.within (.path hop rest) body).eval frame args).Runs host w v w' ↔
        (body.eval (frame.withScope (.members (target.space base) frame.scope)) args).Runs host
          w v w')) ∧
    ∀ m base frame e, Expr.Accesses base target f m e frame →
      Expr.StandsFor host l (.module target base) e frame ∧
      ∀ m' s e', Expr.Accesses base target f m' e' (frame.withScope s) →
        ∀ args w, args.length ≤ l.params.length ∨ Call.Sealed target base args w →
          ∀ v w', (e.eval frame args).Runs host w v w' ↔
            (e'.eval (frame.withScope s) args).Runs host w v w' := by
  refine ⟨?_, ?_, ?_⟩
  · intro m name entry frame args w v w' hentry henough
    exact ⟨call_runs_iff hentry henough, fun x => over_bodyScope⟩
  · intro m base frame hop rest body args w v w' hleads hs
    exact Expr.runs_within_path hleads hs
  · intro m base frame e he
    refine ⟨Expr.standsFor_of_accesses hf he, ?_⟩
    intro m' s e' he' args w hargs v w'
    have hargs' : args.length ≤ l.params.length ∨
        Call.Sealed target base args { w with next := w.next + 1 } :=
      hargs.imp_right fun h => ⟨h.module, h.base, h.args, World.obeys_of_caches h.world rfl⟩
    rw [Expr.standsFor_of_accesses hf he, Expr.standsFor_of_accesses hf he',
      Call.answers_withScope hargs']

end Module

namespace Surplus

/-- A function of one argument whose result is the first element of an array in the base scope. -/
def first : Lambda Code := ⟨"f", ["y"], .apply (.var "at") [.var "x", .number 0]⟩

def library : Module := ⟨0, [], [("f", .lambda first)]⟩

/-- That element is code without a scope, so it runs in the scope of whoever calls it. -/
def around : Scope :=
  (Scope.root.addAll (Builtin.bindings 3)).add "x" (.array [.code 20 (.var "secret")])

/-- A module with an import and with declarations of its own. -/
def importing (decls : List (String × Decl)) : Module := ⟨1, [("m", library)], decls⟩

def telling : Module := importing [("secret", .lambda ⟨"secret", [], .string "importer"⟩)]

def caller (m : Module) : Frame := .ofScope (.module m around) ⟨21, none⟩

def world : World Unit := { World.initial 0 () with next := 22 }

def access : Code := .member (.path "m" []) "f"

/-- What the function makes of one argument too many when it is reached from the frame. -/
def outcome (frame : Frame) : Option (Value × World Unit) :=
  (access.eval frame [.string "a", .string "b"]).exec (Call.answer Host.none 20) world

/-- It runs to an end, and what it yields passes the test. -/
def ends (frame : Frame) (test : Value → Bool) : Bool :=
  match outcome frame with
  | some (v, _) => test v
  | none => false

theorem exists_runs_of_ends {test : Value → Bool} (h : ends frame test = true) :
    ∃ v w', (access.eval frame [.string "a", .string "b"]).Runs Host.none world v w' ∧
      test v = true := by
  unfold ends at h
  split at h
  next v w' hrun => exact ⟨v, w', ⟨20, hrun⟩, h⟩
  next => cases h

theorem accesses_importing (decls : List (String × Decl)) (h : Table.get? "m" decls = none) :
    Expr.Accesses around library "f" (importing decls) access (caller (importing decls)) :=
  .member (.step h rfl (.here library)) .refl

/-- An argument too many goes to the result of the function, here with the names of the importer. -/
theorem surplus_sees_importer :
    ∃ (base : Scope) (target m m' : Module) (f : String) (l : Lambda Code) (e : Code)
      (frame : Frame) (s : Scope) (args : List Value) (w w₁ w₂ : World Unit) (v₁ v₂ : Value),
      Table.get? f target.decls = some (.lambda l) ∧
      Expr.Accesses base target f m e frame ∧
      Expr.Accesses base target f m' e (frame.withScope s) ∧
      (∀ a ∈ args, a.isEvaluated = true) ∧
      (e.eval frame args).Runs Host.none w v₁ w₁ ∧ v₁.isError = false ∧
      (e.eval (frame.withScope s) args).Runs Host.none w v₂ w₂ ∧ v₂.isError = true := by
  have htelling : ends (caller telling) (fun v => !v.isError) = true := by decide +kernel
  have himporting : ends (caller (importing [])) Value.isError = true := by decide +kernel
  obtain ⟨v₁, w₁, hrun₁, hvalue⟩ := exists_runs_of_ends htelling
  obtain ⟨v₂, w₂, hrun₂, herror⟩ := exists_runs_of_ends himporting
  exact ⟨around, library, telling, importing [], "f", first, access, caller telling,
    .module (importing []) around, [.string "a", .string "b"], world, w₁, w₂, v₁, v₂, rfl,
    accesses_importing _ rfl, accesses_importing _ rfl, by simp [Value.isEvaluated],
    hrun₁, by simpa using hvalue, hrun₂, herror⟩

/-- With the one argument that it takes, it does the same for both importers. -/
theorem import_hygiene_library :
    Table.get? "f" library.decls = some (.lambda first) ∧
    Expr.StandsFor Host.none first (.module library around) access (caller telling) ∧
    ∀ v w', (access.eval (caller telling) [.string "a"]).Runs Host.none world v w' ↔
      (access.eval (caller (importing [])) [.string "a"]).Runs Host.none world v w' := by
  have hf : Table.get? "f" library.decls = some (.lambda first) := rfl
  obtain ⟨-, -, haccess⟩ := Module.import_hygiene hf Host.none
  obtain ⟨hstands, hsame⟩ := haccess telling around (caller telling) access
    (accesses_importing _ rfl)
  exact ⟨hf, hstands, hsame (importing []) (.module (importing []) around) access
    (accesses_importing [] rfl) [.string "a"] world (.inl (by decide))⟩

end Surplus

end ChainScript
