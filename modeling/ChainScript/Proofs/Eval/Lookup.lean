import ChainScript.Proofs.Builtin.Equal
import ChainScript.Proofs.Eval.Host
import ChainScript.Proofs.Memo.Machine
import ChainScript.Proofs.Proc.Same
import ChainScript.Proofs.Value.Below
import ChainScript.Proofs.Value.Equal

/-!
Names that are looked up twice. A stored value and an imported module are found again as they are,
but each look-up of a declared function makes a closure of its own, which is equal to no earlier one
and which no cache has as a key.
-/
namespace ChainScript

open Proc

variable {σ : Type} {host : Host σ} {frame caller : Frame} {v : Value} {w w' w₁ w₂ : World σ}
  {x : String} {b : Binding} {mark k : Nat} {keys : List Memo.Key}

/-- Whether the value of the binding is there before it is looked up. -/
def Binding.isStored : Binding → Bool
  | value _ => true
  | function .. => false

/-- What a look-up finds when `next` is the first free number. -/
def Binding.found (next : Nat) : Binding → Value
  | value v => v
  | function l scope => .closure next l scope

/-- How many numbers a look-up takes. -/
def Binding.cost (b : Binding) : Nat := if b.isStored then 0 else 1

/-- The module has the name, and declares a function under it. -/
def Module.declares (m : Module) (x : String) : Bool :=
  match Table.get? x m.decls with
  | some (.lambda _) => true
  | _ => false

/-- The innermost level that has the name declares a function under it. -/
def Scope.declares (x : String) : Scope → Bool
  | root => false
  | bound names outer => (Table.get? x names).isNone && outer.declares x
  | module m outer => m.declares x || ((m.resolve? x root).isNone && outer.declares x)
  | members space outer =>
    space.module.declares x || ((space.module.resolve? x root).isNone && outer.declares x)

/-- A module level has the answer or leaves it to the levels around it. -/
theorem Module.isStored_of_or {m : Module} {s outer : Scope}
    (h : (m.resolve? x s).or (outer.find? x) = some b)
    (ih : outer.find? x = some b → b.isStored = !outer.declares x) :
    b.isStored = !(m.declares x || ((m.resolve? x .root).isNone && outer.declares x)) := by
  unfold resolve? at h ⊢
  unfold declares
  cases hdecl : Table.get? x m.decls with
  | some d =>
    cases d <;> (rw [hdecl] at h; obtain rfl := Option.some.inj h; rfl)
  | none =>
    rw [hdecl] at h
    cases himport : Table.get? x m.imports with
    | some imported =>
      rw [himport] at h
      obtain rfl := Option.some.inj h
      rfl
    | none =>
      rw [himport] at h
      exact ih h

theorem Scope.isStored_of_find? {scope : Scope} (h : scope.find? x = some b) :
    b.isStored = !scope.declares x := by
  fun_induction Scope.find? x scope with
  | case1 => cases h
  | case2 names outer ih =>
    rw [declares]
    cases hname : Table.get? x names with
    | some v =>
      rw [hname] at h
      obtain rfl := Option.some.inj h
      rfl
    | none =>
      rw [hname] at h
      exact ih h
  | case3 m outer ih => exact Module.isStored_of_or h ih
  | case4 space outer ih => exact Module.isStored_of_or h ih

/-- The world after a look-up. -/
def Binding.after (b : Binding) (w : World σ) : World σ := { w with next := w.next + b.cost }

theorem Binding.after_of_isStored (h : b.isStored = true) (w : World σ) : b.after w = w := by
  simp [after, cost, h]

theorem Proc.runs_realize (b : Binding) (w : World σ) :
    (realize b).Runs host w (b.found w.next) (b.after w) := by
  cases b with
  | value v => exact runs_done
  | function l scope => exact ⟨0, rfl⟩

theorem Proc.applyRest_nil (v : Value) (frame : Frame) :
    (applyRest v frame [] : Proc σ Value) = done v := rfl

/-- What is found again is equal to what was found before just if it was stored. -/
theorem Binding.equals_found (h : (b.found k).isDefinite = true) {n : Nat} (hn : k + b.cost ≤ n) :
    (b.found k).equals (b.found n) = b.isStored := by
  cases b with
  | value v => exact Value.equals_self v h
  | function l scope =>
    have hne : k ≠ n := Nat.ne_of_lt hn
    simp [found, isStored, Value.equals, Value.identity?, hne]

/-- Plain values, and functions that wait for arguments: called without any, they do not change. -/
def Value.Rests (v : Value) : Prop :=
  v.isPlain = true ∨ ∃ wait, v.wait? = some wait ∧ 0 < wait.remaining

theorem Call.answers_of_rests (h : v.Rests) (frame : Frame) (w : World σ) :
    Answers host ⟨v, frame, []⟩ w v w := by
  rcases h with h | ⟨wait, hwait, hpos⟩
  · exact answers_of_isPlain h
  · exact answers_nil hwait hpos

theorem Value.rests_found {n : Nat} (h : (b.found k).Rests) : (b.found n).Rests := by
  cases b with
  | value v => exact h
  | function l scope =>
    rcases h with h | ⟨wait, hwait, hpos⟩
    · cases h
    · obtain rfl := Option.some.inj hwait
      exact .inr ⟨_, rfl, hpos⟩

theorem Value.isDefinite_found {n : Nat} : (b.found n).isDefinite = (b.found k).isDefinite := by
  cases b <;> rfl

theorem Value.isError_found {n : Nat} : (b.found n).isError = (b.found k).isError := by
  cases b <;> rfl

theorem Expr.runs_var (hfind : frame.scope.find? x = some b) (hrests : (b.found w.next).Rests) :
    ((var x).eval frame []).Runs host w (b.found w.next) (b.after w) := by
  rw [eval, hfind]
  exact runs_bind (runs_realize b w) (runs_invoke (Call.answers_of_rests hrests frame _))

/-- An argument that is a name is looked up when it is forced. -/
theorem Call.answers_pin_var {scope : Scope} (hfind : scope.find? x = some b)
    (hrests : (b.found w.next).Rests) (frame : Frame) :
    Answers host ⟨.pin scope (.var x), frame, []⟩ w (b.found w.next) (b.after w) :=
  answers_pin (Expr.runs_var hfind hrests)

/-- `== x x` tells whether `x` is stored, unless there is a NaN in it. -/
theorem Expr.runs_equal_self {id : Nat} (hfind : frame.scope.find? x = some b)
    (hequal : frame.scope.find? "==" = some (.value (.native (Builtin.native .equal id))))
    (hstop : w.stop? frame = none) (hrests : (b.found w.next).Rests)
    (hdefinite : (b.found w.next).isDefinite = true) (herror : (b.found w.next).isError = false) :
    ((Expr.apply (.var "==") [.var x, .var x]).eval frame []).Runs host w (.boolean b.isStored)
      (b.after (b.after w)) := by
  rw [runs_apply_native_iff hequal (by decide : 0 < 2) rfl]
  have hagain : (b.found (b.after w).next).Rests := Value.rests_found hrests
  have hforced : Forced host (frame.enter "==")
      [.pin frame.scope (.var x), .pin frame.scope (.var x)] w
      [b.found w.next, b.found (b.after w).next] (b.after (b.after w)) :=
    .cons (Call.answers_pin_var hfind hrests _) herror
      (.cons (Call.answers_pin_var hfind hagain _) (Value.isError_found.trans herror) .nil)
  rw [← Binding.equals_found hdefinite (Nat.le_refl _)]
  exact Builtin.answers_equal id hstop hforced

namespace Memo.Trie

variable {κ κ' α β : Type} [DecidableEq κ'] {f : κ → κ'} {g : α → β}

/-- Whatever a mapped trie has stored is stored under mapped keys. -/
theorem exists_of_get?_map {keys : List κ'} {t : Trie κ α} {v : β}
    (h : get? keys (t.map f g) = some v) : ∃ ks : List κ, ks.map f = keys := by
  induction keys generalizing t with
  | nil => exact ⟨[], rfl⟩
  | cons k keys ih =>
    rw [get?, children_map] at h
    obtain ⟨child, hchild, hrest⟩ := Option.bind_eq_some_iff.mp h
    obtain ⟨⟨j, s⟩, -, heq⟩ := List.mem_map.mp (Table.mem_of_get? hchild)
    obtain ⟨rfl, rfl⟩ := Prod.mk.inj heq
    obtain ⟨ks, rfl⟩ := ih hrest
    exact ⟨j :: ks, rfl⟩

end Memo.Trie

/-- Nothing is remembered for keys with a number that is still free. -/
theorem World.stored?_eq_none_of_numbered (h : w.Numbered) (hk : w.next ≤ k)
    (hkey : .identity (some k) ∈ keys) : w.stored? mark keys = none := by
  cases hstored : w.stored? mark keys with
  | none => rfl
  | some v =>
    have hcache : (w.rename (.shift k 1 id)).cache mark = w.cache mark := by
      rw [cache, cache, h k hk]
    rw [stored?, ← hcache, cache_rename] at hstored
    obtain ⟨ks, rfl⟩ := Memo.Trie.exists_of_get?_map hstored
    obtain ⟨key, -, hrename⟩ := List.mem_map.mp hkey
    -- A number that has been moved up is never the `k` from which it was moved.
    cases key with
    | identity n =>
      obtain ⟨j, -, hj⟩ := Option.map_eq_some_iff.mp (Memo.Key.identity.inj hrename)
      simp only [Renaming.shift] at hj
      split at hj <;> omega
    | _ => simp [Memo.Key.rename] at hrename

namespace Memo

namespace Lookup

variable {l : Lookup} {r : Value}

/-- Where nothing is remembered, the body is evaluated. -/
theorem makes_request (h : w.stored? l.mark l.keys = none) : Makes host l.proc w l.request w := by
  rw [← bind_done l.proc, proc_bind]
  refine ⟨l.settle done, .read ?_⟩
  rw [h]
  exact .refl

/-- A result that is no error is remembered from then on. -/
theorem stored?_of_runs (h : l.proc.Runs host w r w') (hr : r.isError = false) :
    w'.stored? l.mark l.keys = some r := by
  cases hstored : w.stored? l.mark l.keys with
  | some result =>
    obtain ⟨rfl, rfl⟩ := runs_unique h (Expr.storedOr_runs_of_stored hstored)
    exact hstored
  | none =>
    obtain ⟨next, hcomes⟩ : Makes host l.proc w l.request w := makes_request hstored
    obtain ⟨v, w₁, hbody, -⟩ := runs_call_inv ((runs_iff_of_comes hcomes).mp h)
    cases herror : v.isError with
    | true =>
      obtain ⟨rfl, -⟩ := runs_unique h (runs_of_failure hstored hbody herror)
      simp [hr] at herror
    | false =>
      obtain ⟨rfl, rfl⟩ := runs_unique h (runs_of_success ⟨hstored, hbody, herror⟩)
      simp

end Lookup

/-- A function of one parameter that remembers its results. -/
structure Func where
  id : Nat
  name : String
  param : String
  mark : Nat
  body : Code
  scope : Scope

namespace Func

variable {m : Func} {arg u : Value}

def value (m : Func) : Value :=
  .closure m.id ⟨m.name, [m.param], .memo m.mark [m.param] m.body⟩ m.scope

/-- The look-up in a call of the function, after its argument has been forced to `v`. -/
def lookup (m : Func) (caller : Frame) (arg v : Value) : Lookup :=
  ⟨m.mark, [m.param], m.body,
    (caller.descend m.name).withScope ((m.scope.add m.name m.value).addAll [(m.param, arg)]), [v]⟩

/-- A call of the function comes to a look-up for its forced argument. -/
theorem comes_lookup (hforce : ∀ f, Call.Answers host ⟨arg, f, []⟩ w v w₁)
    (hv : v.isError = false) (hstop : w.stop? (caller.descend m.name) = none) :
    Comes host (Call.proc host ⟨m.value, caller, [arg]⟩) w (m.lookup caller arg v).proc w₁ := by
  have hfind : ((m.scope.add m.name m.value).addAll [(m.param, arg)]).find? m.param =
      some (.value arg) := by
    simp [Scope.addAll, Table.ofList, Scope.find?, Table.get?, Table.insert]
  have hparam : Forces host (m.lookup caller arg v).frame m.param w v w₁ :=
    ⟨.value arg, arg, w, hfind, runs_done, hforce _⟩
  exact comes_of_forceParams rfl rfl hstop (runs_forceParams_iff.mpr (.cons hparam hv .nil))

end Func

end Memo

/-- A call of a memo with a name that is looked up comes to a look-up in its cache. -/
theorem Memo.Func.comes_lookup_var {m : Func} (hfind : frame.scope.find? x = some b)
    (hrests : (b.found w.next).Rests) (herror : (b.found w.next).isError = false)
    (hstop : w.stop? (caller.descend m.name) = none) :
    Comes host (Call.proc host ⟨m.value, caller, [.pin frame.scope (.var x)]⟩) w
      (m.lookup caller (.pin frame.scope (.var x)) (b.found w.next)).proc (b.after w) :=
  comes_lookup (Call.answers_pin_var hfind hrests) herror hstop

/-- A memo that was called with a name recalls the result just if what it stands for is stored. -/
theorem Memo.Func.stored?_again {m : Func} {arg r : Value}
    (hcomes : Comes host (Call.proc host ⟨m.value, caller, [arg]⟩) w
      (m.lookup caller arg (b.found w.next)).proc (b.after w))
    (hans : Call.Answers host ⟨m.value, caller, [arg]⟩ w r w₁) (hr : r.isError = false)
    (hkept : ∀ keys r, w₁.stored? m.mark keys = some r → w₂.stored? m.mark keys = some r)
    (hnumbered : w₂.Numbered) :
    w₂.stored? m.mark (Memo.Key.ofValues [b.found w₂.next]) =
      if b.isStored then some r else none := by
  cases b with
  | value v =>
    have hrun := (runs_iff_of_comes hcomes).mp (Call.answers_iff_runs.mp hans)
    exact hkept _ r (Lookup.stored?_of_runs hrun hr)
  | function l scope =>
    refine World.stored?_eq_none_of_numbered hnumbered (Nat.le_refl _) ?_
    simp [Memo.Key.ofValues, Memo.Key.ofValue, Binding.found, Value.identity?]

/--
A name that is looked up twice. Whether the value is stored or made anew depends on the level that
has the name; a value without NaN is equal to what is found later just if it is stored, just then
the keys of the two are the same, just then `==` finds the name equal to itself, and just then a
memo that was called with the name recalls its result.
-/
theorem Scope.found_again (host : Host σ) (hfind : frame.scope.find? x = some b) :
    b.isStored = !frame.scope.declares x ∧
    (∀ w, (realize b).Runs host w (b.found w.next) (b.after w)) ∧
    (∀ k n, k + b.cost ≤ n → (b.found k).isDefinite = true →
      (b.found k).equals (b.found n) = b.isStored ∧
        (Memo.Key.ofValue (b.found k) = Memo.Key.ofValue (b.found n) ↔ b.isStored = true)) ∧
    (∀ id w, frame.scope.find? "==" = some (.value (.native (Builtin.native .equal id))) →
      w.stop? frame = none → (b.found w.next).Rests → (b.found w.next).isDefinite = true →
      (b.found w.next).isError = false →
      ((Expr.apply (.var "==") [.var x, .var x]).eval frame []).Runs host w (.boolean b.isStored)
        (b.after (b.after w))) ∧
    ∀ (m : Memo.Func) (caller : Frame) (w w₁ w₂ : World σ) (r : Value),
      let arg := Value.pin frame.scope (.var x)
      (b.found w.next).Rests → (b.found w.next).isError = false →
      w.stop? (caller.descend m.name) = none → w₂.stop? (caller.descend m.name) = none →
      Call.Answers host ⟨m.value, caller, [arg]⟩ w r w₁ → r.isError = false →
      (∀ keys r, w₁.stored? m.mark keys = some r → w₂.stored? m.mark keys = some r) →
      w₂.Numbered →
      let lookup := m.lookup caller arg (b.found w₂.next)
      Comes host (Call.proc host ⟨m.value, caller, [arg]⟩) w₂ lookup.proc (b.after w₂) ∧
        (b.after w₂).stored? lookup.mark lookup.keys = (if b.isStored then some r else none) ∧
        (b.isStored = true → Call.Answers host ⟨m.value, caller, [arg]⟩ w₂ r w₂) ∧
        (b.isStored = false →
          Makes host (Call.proc host ⟨m.value, caller, [arg]⟩) w₂ lookup.request (b.after w₂)) := by
  refine ⟨isStored_of_find? hfind, runs_realize b, ?_, ?_, ?_⟩
  · intro k n hn hdefinite
    have hequals := Binding.equals_found hdefinite hn
    have hagain : (b.found n).isDefinite = true := Value.isDefinite_found.trans hdefinite
    refine ⟨hequals, ?_⟩
    rw [← hequals]
    exact ⟨Memo.Key.equals_of_ofValue_eq _ _ hdefinite hagain, Memo.Key.ofValue_eq_of_equals _ _⟩
  · exact fun id w hequal hstop hrests hdefinite herror =>
      Expr.runs_equal_self hfind hequal hstop hrests hdefinite herror
  · intro m caller w w₁ w₂ r arg hrests herror hstop hstop₂ hans hr hkept hnumbered lookup
    have hfirst : Comes host (Call.proc host ⟨m.value, caller, [arg]⟩) w
        (m.lookup caller arg (b.found w.next)).proc (b.after w) :=
      Memo.Func.comes_lookup_var hfind hrests herror hstop
    have hsecond : Comes host (Call.proc host ⟨m.value, caller, [arg]⟩) w₂ lookup.proc
        (b.after w₂) :=
      Memo.Func.comes_lookup_var hfind (Value.rests_found hrests)
        (Value.isError_found.trans herror) hstop₂
    have hstored : (b.after w₂).stored? lookup.mark lookup.keys =
        if b.isStored then some r else none :=
      Memo.Func.stored?_again hfirst hans hr hkept hnumbered
    refine ⟨hsecond, hstored, fun h => ?_, fun h => ?_⟩
    · rw [h] at hstored
      have hrun : lookup.proc.Runs host (b.after w₂) r (b.after w₂) :=
        Expr.storedOr_runs_of_stored hstored
      rw [Binding.after_of_isStored h] at hrun hsecond
      exact Call.answers_iff_runs.mpr ((runs_iff_of_comes hsecond).mpr hrun)
    · rw [h] at hstored
      obtain ⟨next, hmade⟩ : Makes host lookup.proc (b.after w₂) lookup.request (b.after w₂) :=
        Memo.Lookup.makes_request hstored
      exact ⟨next, comes_trans hsecond hmade⟩

namespace Twice

/-- A function that is declared once and compared with itself. -/
def source : String := "f x => x; main => == f f;"

def func : Lambda Code := ⟨"f", ["x"], .var "x"⟩

def main : Lambda Code := ⟨"main", [], .apply (.var "==") [.var "f", .var "f"]⟩

def script : Module := ⟨0, [], [("f", .lambda func), ("main", .lambda main)]⟩

def loaded : Except LoadError Module × Nat :=
  (Script.load (Registry.importer []) source : StateM Nat _).run 0

def isModule : Except LoadError Module → Bool
  | .ok ⟨0, [], [("f", .lambda ⟨"f", ["x"], .var "x"⟩),
      ("main", .lambda ⟨"main", [], .apply (.var "==") [.var "f", .var "f"]⟩)]⟩ => true
  | _ => false

theorem eq_of_isModule {r : Except LoadError Module} (h : isModule r = true) : r = .ok script := by
  unfold isModule at h
  split at h
  · rfl
  · cases h

theorem loaded_eq : loaded = (.ok script, loaded.2) := by
  have h : isModule loaded.1 = true := by decide +kernel
  rw [← eq_of_isModule h]

/-- The scope of the module over the prelude, where `f` is found and compared. -/
def place : Frame :=
  Program.firstFrame.withScope (.module script (Scope.root.addAll (Builtin.bindings 1)))

/-- The closure that a look-up of `f` makes. -/
def closure (id : Nat) : Value := .closure id func place.scope

/-- A memo that is called with `f`. -/
def memo : Memo.Func := ⟨1, "m", "y", 0, .string "done", .root⟩

def request : Call := ⟨memo.value, place, [.pin place.scope (.var "f")]⟩

theorem below_closure {id : Nat} (hid : id < 20) : (closure id).Below 20 := by
  have hprelude : (Scope.root.addAll (Builtin.bindings 1)).Below 20 :=
    fun m hm => Program.ready_firstFrame.below m (Nat.le_trans (by decide) hm)
  refine Value.below_closure_iff.mpr ⟨hid, fun m hm => ?_⟩
  have hzero : bump m 0 = 0 := bump_eq_self_iff.mpr (by omega : 0 < 20) m hm
  simp only [place, Frame.withScope, script, Scope.rename, Module.rename, hprelude m hm, hzero]
  rfl

end Twice

open Twice in
/--
A script compares a declared function with itself: the two look-ups make closures that are unequal
and have unequal keys.
-/
theorem Scope.found_unequal :
    ∃ next' w', Program.OfSource [] 0 (.entry script "main" []) next' ∧
      (Program.start Program.firstFrame (.entry script "main" [])).Runs Host.none
        Program.firstWorld (.boolean false) w' ∧
      ∃ (v u : Value) (w₁ w₂ : World Unit) (b : Binding), place.scope.find? "f" = some b ∧
        (realize b).Runs Host.none Program.firstWorld v w₁ ∧ (realize b).Runs Host.none w₁ u w₂ ∧
        v.isDefinite = true ∧ v.equals u = false ∧ Memo.Key.ofValue v ≠ Memo.Key.ofValue u :=
  ⟨_, _, .script "main" [] loaded_eq, ⟨6, rfl⟩, closure 19, closure 20, _, _,
    .function func place.scope, rfl, ⟨0, rfl⟩, ⟨0, rfl⟩, rfl, rfl, by decide⟩

open Twice in
/-- There `==` says no, and a memo evaluates its body again when it is called with `f` once more. -/
theorem Scope.found_again_declared :
    ∃ w' w₁ w₂,
      (Expr.eval main.body place []).Runs Host.none Program.firstWorld (.boolean false) w' ∧
      request.Answers Host.none Program.firstWorld (.string "done") w₁ ∧
      Makes Host.none (request.proc Host.none) w₁
        (memo.lookup place (.pin place.scope (.var "f")) (closure 20)).request w₂ := by
  have hfind : place.scope.find? "f" = some (.function func place.scope) := rfl
  obtain ⟨-, -, -, hequal, hmemo⟩ := Scope.found_again Host.none hfind
  have hrests (n : Nat) : (Binding.found n (.function func place.scope)).Rests :=
    .inr ⟨_, rfl, Nat.zero_lt_one⟩
  have hrun := hequal _ Program.firstWorld rfl rfl (hrests 19) rfl rfl
  have hans : request.Answers Host.none Program.firstWorld (.string "done")
      (World.store { Program.firstWorld with next := 20 } 0 (Memo.Key.ofValues [closure 19])
        (.string "done")) := ⟨4, rfl⟩
  have hnumbered : (World.store { Program.firstWorld with next := 20 } 0
      (Memo.Key.ofValues [closure 19]) (.string "done")).Numbered :=
    World.numbered_store (World.numbered_of_caches_eq_nil rfl)
      (by simpa using below_closure (by omega)) (Value.below_string _)
  have hagain := hmemo memo place Program.firstWorld _ _ (.string "done") (hrests 19) rfl rfl rfl
    hans rfl (fun _ _ h => h) hnumbered
  exact ⟨_, _, _, hrun, hans, hagain.2.2.2 rfl⟩

end ChainScript
