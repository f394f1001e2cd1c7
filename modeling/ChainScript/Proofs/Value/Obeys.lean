import ChainScript.Proofs.Expr.Occurs
import ChainScript.Proofs.Memo.Trie
import ChainScript.Proofs.Proc.Ensures
import ChainScript.Proofs.Table

/-!
Values under a policy. A policy says what may be found in the values of a run: which natives, which
results of calls, which items of arrays, which functions waiting for arguments, and which memos with
which results. A value obeys it if everything inside it does, and if no code inside it lacks a
scope.
-/
namespace ChainScript

/-- Whether a value is the outcome of an evaluation, and not code still to be run. -/
def Value.isEvaluated : Value → Bool
  | thunk .. => false
  | code .. => false
  | _ => true

/-- What may be found in the values of a run, and what is known of its calls. -/
structure Policy (σ : Type) where
  native : Native → Prop
  result : Value → Prop
  item : Value → Prop
  waiting : Value → List Value → Nat → Order → Prop
  memo : Memos
  stored : Nat → List Memo.Key → Value → Prop
  known : Call → World σ → Value → World σ → Prop
  builtin_of_native : ∀ {n}, native n → ∃ op, n.operation = .builtin op
  result_of_isEvaluated : ∀ {v}, v.isEvaluated → result v
  item_of_result : ∀ {v}, result v → v.isError = false → item v
  result_of_item : ∀ {v}, item v → result v
  waiting_native : ∀ {n args}, native n → args ≠ [] → args.length < n.arity.required →
    waiting (.native n) args n.arity.required n.order
  waiting_closure : ∀ {id l scope args}, args ≠ [] → args.length < l.params.length →
    waiting (.closure id l scope) args l.params.length .savedFirst
  waiting_combine : ∀ {func saved arity order args}, waiting func saved arity order →
    (Call.combine order saved args).length < arity →
    waiting func (Call.combine order saved args) arity order
  stored_of_known : ∀ {mark params body} {scope : Scope} {values frame w v w'},
    memo mark params body →
    known ⟨.thunk none body (scope.addAll (params.zip values)), frame, []⟩ w v w' →
    v.isError = false → stored mark (Memo.Key.ofValues values) v

variable {σ : Type} {p : Policy σ}

/-- The code has only memos of the policy. -/
abbrev Policy.Admits (p : Policy σ) (e : Code) : Prop := e.MemosIn p.memo

mutual
inductive Value.Obeys (p : Policy σ) : Value → Prop
  | number (x : Float) : Value.Obeys p (.number x)
  | string (s : String) : Value.Obeys p (.string s)
  | boolean (b : Bool) : Value.Obeys p (.boolean b)
  | error (id : Nat) (failure : Failure) : Value.Obeys p (.error id failure)
  | array {items : List Value} (h : ∀ v ∈ items, Value.Obeys p v) (hi : ∀ v ∈ items, p.item v) :
      Value.Obeys p (.array items)
  | module {space : Namespace} (h : Namespace.Obeys p space) : Value.Obeys p (.module space)
  | native {n : Native} (h : p.native n) : Value.Obeys p (.native n)
  | closure (id : Nat) {l : Lambda Code} {scope : Scope} (hl : p.Admits l.body)
      (hs : Scope.Obeys p scope) : Value.Obeys p (.closure id l scope)
  | curried (id : Nat) {func : Value} {saved : List Value} {arity : Nat} {order : Order}
      (hf : Value.Obeys p func) (hs : ∀ v ∈ saved, Value.Obeys p v)
      (hw : p.waiting func saved arity order) : Value.Obeys p (.curried id func saved arity order)
  | thunk (id : Option Nat) {code : Code} {scope : Scope} (hc : p.Admits code)
      (hs : Scope.Obeys p scope) : Value.Obeys p (.thunk id code scope)
inductive Namespace.Obeys (p : Policy σ) : Namespace → Prop
  | mk {module : Module} {scope : Scope} (hm : Module.Obeys p module) (hs : Scope.Obeys p scope) :
      Namespace.Obeys p ⟨module, scope⟩
inductive Scope.Obeys (p : Policy σ) : Scope → Prop
  | root : Scope.Obeys p .root
  | bound {names : List (String × Value)} {outer : Scope} (hn : ∀ e ∈ names, Value.Obeys p e.2)
      (ho : Scope.Obeys p outer) : Scope.Obeys p (.bound names outer)
  | module {m : Module} {outer : Scope} (hm : Module.Obeys p m) (ho : Scope.Obeys p outer) :
      Scope.Obeys p (.module m outer)
  | members {space : Namespace} {outer : Scope} (hs : Namespace.Obeys p space)
      (ho : Scope.Obeys p outer) : Scope.Obeys p (.members space outer)
inductive Module.Obeys (p : Policy σ) : Module → Prop
  | mk {id : Nat} {imports : List (String × Module)} {decls : List (String × Decl)}
      (hi : ∀ e ∈ imports, Module.Obeys p e.2) (hd : ∀ e ∈ decls, Decl.Obeys p e.2) :
      Module.Obeys p ⟨id, imports, decls⟩
inductive Decl.Obeys (p : Policy σ) : Decl → Prop
  | lambda {l : Lambda Code} (h : p.Admits l.body) : Decl.Obeys p (.lambda l)
  | value {v : Value} (h : Value.Obeys p v) (hi : p.item v) : Decl.Obeys p (.value v)
end

section Within

variable {τ : Type} {q : Policy τ}

/-- Every native, item, waiting function and memo of `p` is also one of `q`. -/
structure Policy.Within (p : Policy σ) (q : Policy τ) : Prop where
  native : ∀ {n}, p.native n → q.native n
  item : ∀ {v}, p.item v → q.item v
  waiting : ∀ {func saved arity order}, p.waiting func saved arity order →
    q.waiting func saved arity order
  memo : ∀ {mark params body}, p.memo mark params body → q.memo mark params body

theorem Policy.admits_of_within (h : p.Within q) {e : Code} (he : p.Admits e) : q.Admits e :=
  fun mark params body hm => h.memo (he mark params body hm)

mutual
theorem Value.obeys_of_within (h : p.Within q) {v : Value} (hv : v.Obeys p) : v.Obeys q :=
  match hv with
  | .number x => .number x
  | .string s => .string s
  | .boolean b => .boolean b
  | .error id failure => .error id failure
  | .array hobeys hitem =>
    .array (fun v hv => Value.obeys_of_within h (hobeys v hv)) fun v hv => h.item (hitem v hv)
  | .module hs => .module (Namespace.obeys_of_within h hs)
  | .native hn => .native (h.native hn)
  | .closure id hl hs => .closure id (Policy.admits_of_within h hl) (Scope.obeys_of_within h hs)
  | .curried id hf hs hw =>
    .curried id (Value.obeys_of_within h hf) (fun v hv => Value.obeys_of_within h (hs v hv))
      (h.waiting hw)
  | .thunk id hc hs => .thunk id (Policy.admits_of_within h hc) (Scope.obeys_of_within h hs)
theorem Namespace.obeys_of_within (h : p.Within q) {s : Namespace} (hs : s.Obeys p) : s.Obeys q :=
  match hs with
  | .mk hm hs => .mk (Module.obeys_of_within h hm) (Scope.obeys_of_within h hs)
theorem Scope.obeys_of_within (h : p.Within q) {s : Scope} (hs : s.Obeys p) : s.Obeys q :=
  match hs with
  | .root => .root
  | .bound hn ho =>
    .bound (fun e he => Value.obeys_of_within h (hn e he)) (Scope.obeys_of_within h ho)
  | .module hm ho => .module (Module.obeys_of_within h hm) (Scope.obeys_of_within h ho)
  | .members hs ho => .members (Namespace.obeys_of_within h hs) (Scope.obeys_of_within h ho)
theorem Module.obeys_of_within (h : p.Within q) {m : Module} (hm : m.Obeys p) : m.Obeys q :=
  match hm with
  | .mk hi hd =>
    .mk (fun e he => Module.obeys_of_within h (hi e he))
      fun e he => Decl.obeys_of_within h (hd e he)
theorem Decl.obeys_of_within (h : p.Within q) {d : Decl} (hd : d.Obeys p) : d.Obeys q :=
  match hd with
  | .lambda hl => .lambda (Policy.admits_of_within h hl)
  | .value hv hi => .value (Value.obeys_of_within h hv) (h.item hi)
end

end Within

def Binding.Obeys (p : Policy σ) : Binding → Prop
  | value v => v.Obeys p
  | function l scope => p.Admits l.body ∧ scope.Obeys p

/-- The callee and the arguments obey. Nothing is asked of the frame. -/
structure Call.Obeys (p : Policy σ) (c : Call) : Prop where
  callee : c.callee.Obeys p
  args : ∀ v ∈ c.args, v.Obeys p

/-- Every remembered result obeys and is one that the policy has for its memo and keys. -/
def World.Obeys (p : Policy σ) (w : World σ) : Prop :=
  ∀ mark keys v, w.stored? mark keys = some v → v.Obeys p ∧ p.item v ∧ p.stored mark keys v

namespace Scope

variable {s : Scope} {b : Binding} {x : String} {names : List (String × Value)}

theorem obeys_addAll (hs : s.Obeys p) (hn : ∀ e ∈ names, e.2.Obeys p) :
    (s.addAll names).Obeys p := by
  rw [addAll]
  split
  · exact hs
  · exact .bound (fun e he => hn e (Table.mem_ofList he)) hs

theorem obeys_outer (hs : s.Obeys p) : s.outer.Obeys p := by
  cases hs with
  | root => exact .root
  | bound _ ho => exact ho
  | module _ ho => exact ho
  | members _ ho => exact ho

end Scope

theorem Module.obeys_resolve? {m : Module} {s : Scope} {b : Binding} {x : String}
    (hm : m.Obeys p) (hs : s.Obeys p) (h : m.resolve? x s = some b) : b.Obeys p := by
  obtain ⟨hi, hd⟩ := hm
  rw [resolve?] at h
  split at h
  next l hl =>
    obtain rfl := Option.some.inj h
    cases hd _ (Table.mem_of_get? hl) with
    | lambda hbody => exact ⟨hbody, hs⟩
  next v hv =>
    obtain rfl := Option.some.inj h
    cases hd _ (Table.mem_of_get? hv) with
    | value hv _ => exact hv
  next =>
    obtain ⟨imported, himported, rfl⟩ := Option.map_eq_some_iff.mp h
    have himp := hi _ (Table.mem_of_get? himported)
    exact .module (.mk himp (.module himp (Scope.obeys_outer hs)))

theorem Namespace.obeys_resolve? {space : Namespace} {b : Binding} {x : String}
    (hs : space.Obeys p) (h : space.resolve? x = some b) : b.Obeys p := by
  cases hs with
  | mk hm hs => exact Module.obeys_resolve? hm hs h

/-- Whatever a name stands for in a scope that obeys, obeys. -/
theorem Scope.obeys_find? {s : Scope} {b : Binding} {x : String} (hs : s.Obeys p)
    (h : s.find? x = some b) : b.Obeys p := by
  fun_induction Scope.find? x s with
  | case1 => cases h
  | case2 names outer ih =>
    cases hs with
    | bound hn ho =>
      rcases Option.or_eq_some_iff.mp h with h | ⟨_, h⟩
      · obtain ⟨v, hv, rfl⟩ := Option.map_eq_some_iff.mp h
        exact hn _ (Table.mem_of_get? hv)
      · exact ih ho h
  | case3 m outer ih =>
    cases hs with
    | module hm ho =>
      rcases Option.or_eq_some_iff.mp h with h | ⟨_, h⟩
      · exact Module.obeys_resolve? hm (.module hm ho) h
      · exact ih ho h
  | case4 space outer ih =>
    cases hs with
    | members hs ho =>
      rcases Option.or_eq_some_iff.mp h with h | ⟨_, h⟩
      · exact Namespace.obeys_resolve? hs h
      · exact ih ho h

namespace Value

theorem obeys_ofLiteral? {e : ChainScript.Code} {v : Value} (h : ofLiteral? e = some v) :
    v.Obeys p := by
  cases e with
  | number x => exact Option.some.inj h ▸ .number x
  | string s => exact Option.some.inj h ▸ .string s
  | empty => exact Option.some.inj h ▸ .array (by simp) (by simp)
  | _ => simp [ofLiteral?] at h

theorem obeys_pin {e : ChainScript.Code} {s : Scope} (he : p.Admits e) (hs : s.Obeys p) :
    (pin s e).Obeys p := by
  rw [pin]
  cases h : ofLiteral? e with
  | none => exact .thunk none he hs
  | some v => exact obeys_ofLiteral? h

/-- A value that obeys is no code without a scope, so it is declared as it is. -/
theorem declOfValue_eq {v : Value} (hv : v.Obeys p) : Decl.ofValue v = .value v := by
  cases hv <;> rfl

end Value

theorem Decl.obeys_ofValue {v : Value} (hv : v.Obeys p) (hi : p.item v) :
    (Decl.ofValue v).Obeys p := by
  rw [Value.declOfValue_eq hv]
  exact .value hv hi

namespace World

variable {w : World σ}

theorem obeys_of_caches {w' : World σ} (hw : w.Obeys p) (h : w'.caches = w.caches) :
    w'.Obeys p := by
  intro mark keys v hv
  refine hw mark keys v ?_
  rwa [stored?, cache, ← h]

theorem obeys_store {mark : Nat} {keys : List Memo.Key} {v : Value} (hw : w.Obeys p)
    (hv : v.Obeys p) (hi : p.item v) (hs : p.stored mark keys v) :
    (w.store mark keys v).Obeys p := by
  intro mark' keys' v' hv'
  rw [stored?_store] at hv'
  split at hv'
  next heq =>
    obtain ⟨rfl, rfl⟩ := heq
    obtain rfl := Option.some.inj hv'
    exact ⟨hv, hi, hs⟩
  next => exact hw mark' keys' v' hv'

theorem obeys_of_caches_eq_nil (h : w.caches = []) : w.Obeys p := by
  intro mark keys v hv
  simp [stored?, cache, h, Table.get?] at hv

end World

namespace Policy

/-- A value that a call may end with. -/
abbrev Fits (p : Policy σ) (v : Value) : Prop := v.Obeys p ∧ p.result v

/-- What a call leaves behind: a world that obeys, and a result that fits. -/
def Yields (p : Policy σ) (v : Value) (w : World σ) : Prop :=
  w.Obeys p ∧ p.Fits v

/-- Calls of what obeys yield what obeys. -/
def contract (p : Policy σ) : Contract σ where
  inv := World.Obeys p
  ask c w := c.Obeys p ∧ w.Obeys p
  grant := p.Yields
  known := p.known
  inv_of_grant h := h.1

theorem fits_of_isEvaluated {v : Value} (hv : v.Obeys p) (he : v.isEvaluated = true) : p.Fits v :=
  ⟨hv, p.result_of_isEvaluated he⟩

theorem yields_of_isEvaluated {v : Value} {w : World σ} (hw : w.Obeys p) (hv : v.Obeys p)
    (he : v.isEvaluated = true) : p.Yields v w :=
  ⟨hw, hv, p.result_of_isEvaluated he⟩

end Policy

end ChainScript
