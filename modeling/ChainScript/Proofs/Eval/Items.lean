import ChainScript.Proofs.Eval.Host
import ChainScript.Proofs.Eval.Hygiene
import ChainScript.Proofs.Scope

/-!
The items of compounds and collectors. Each binding of a `let` is recorded twice: in the scope of
the items that follow, and in the list that a collector makes its module of. The two agree, so a
name stands for the same in the items that follow and in the module.
-/
namespace ChainScript

open Proc

variable {σ : Type} {host : Host σ} {e : Code} {items : List Code} {u v last : Value}
  {given bound bound' : List (String × Value)} {frame : Frame} {base scope : Scope} {x : String}
  {w w' w₁ : World σ}

/-- The scope has the bindings in front of what the base has. The last of one name counts. -/
def Scope.Reflects (scope base : Scope) (bound : List (String × Value)) : Prop :=
  ∀ x, scope.find? x = ((Table.get? x (Table.ofList bound)).map Binding.value).or (base.find? x)

theorem Scope.reflects_nil (scope : Scope) : scope.Reflects scope [] := fun _ => rfl

theorem Scope.reflects_addAll (h : scope.Reflects base bound) (names : List (String × Value)) :
    (scope.addAll names).Reflects base (bound ++ names) := by
  intro x
  have hboth : Table.get? x (Table.ofList (bound ++ names)) =
      (Table.get? x (Table.ofList names)).or (Table.get? x (Table.ofList bound)) := by
    have happend : Table.ofList (bound ++ names) = Table.insertAll names (Table.ofList bound) :=
      Table.insertAll_append bound names []
    rw [happend, Table.get?_insertAll]
  rw [find?_addAll, h x, hboth, Option.map_or, Option.or_assoc]

namespace Pattern

/-- The names in a pattern. -/
def names : Pattern → List String
  | name x => [x]
  | array xs => xs

theorem names_of_bindings {pattern : Pattern} (h : pattern.bindings v = .ok given) :
    given.map (·.1) = pattern.names := by
  unfold bindings at h
  split at h
  · cases h
    rfl
  · split at h
    · split at h
      · cases h
      next henough =>
        cases h
        exact List.map_fst_zip (Nat.le_of_not_lt henough)
    · cases h

/-- A value that fits is no error, and is bound to all the names of the pattern. -/
theorem names_of_runs_bind {pattern : Pattern}
    (h : (pattern.bind v frame).Runs host w (.ok given) w') :
    v.isError = false ∧ given.map (·.1) = pattern.names := by
  unfold bind at h
  split at h
  · cases (runs_unique h runs_done).1
  next hv =>
    refine ⟨by simpa using hv, ?_⟩
    split at h
    next found hfound =>
      obtain rfl := Except.ok.inj (runs_unique h runs_done).1
      exact names_of_bindings hfound
    · obtain ⟨e, w₁, -, hdone⟩ := runs_bind_inv h
      cases (runs_unique hdone runs_done).1

theorem isError_of_runs_bind {pattern : Pattern} {error : Value}
    (h : (pattern.bind v frame).Runs host w (.error error) w') : error.isError = true := by
  unfold bind at h
  split at h
  next hv =>
    obtain rfl := Except.error.inj (runs_unique h runs_done).1
    exact hv
  · split at h
    · cases (runs_unique h runs_done).1
    · obtain ⟨e, w₁, hfail, hdone⟩ := runs_bind_inv h
      obtain rfl := Except.error.inj (runs_unique hdone runs_done).1
      obtain ⟨id, w₂, -, herror⟩ := runs_bind_inv hfail
      obtain rfl := (runs_unique herror runs_done).1
      rfl

end Pattern

/-- A call that takes its numbers from one further on does the same, apart from these numbers. -/
theorem Call.answers_skip_iff {c : Call} (hhost : host.Respects (.shift w.next 1 id))
    (hc : c.NumbersBelow w.next) (hw : w.Numbered) :
    c.Answers host { w with next := w.next + 1 } v w' ↔
      ∃ v' w₁, c.Answers host w v' w₁ ∧ v = v'.rename (bump w.next) ∧
        w' = w₁.rename (.shift w.next 1 id) := by
  have hcall : c.rename (bump w.next) = c := by
    obtain ⟨callee, frame, args⟩ := c
    rw [rename, hc.callee _ (Nat.le_refl _), Frame.rename, hc.scope _ (Nat.le_refl _),
      Value.map_rename_of_below hc.args (Nat.le_refl _)]
    rfl
  have hworld : w.rename (.shift w.next 1 id) = { w with next := w.next + 1 } := by
    have hcaches := hw w.next (Nat.le_refl _)
    simp only [World.rename] at hcaches ⊢
    rw [hcaches]
    simp [Renaming.shift]
  have hskip : (c.rename (bump w.next)).Answers host (w.rename (.shift w.next 1 id)) v w' ↔ _ :=
    answers_rename_iff hhost (Nat.le_refl w.next)
  rwa [hcall, hworld] at hskip

namespace Expr

/-- The names that an item binds for those that follow. -/
def boundNames : Code → List String
  | bind pattern _ => pattern.names
  | _ => []

/-- One item of a compound: the error that it ends with, or its value and the bindings it makes. -/
def evalItem (e : Code) (frame : Frame) : Proc σ (Except Value (Value × List (String × Value))) :=
  match e with
  | bind pattern e => do
    let v ← eval e frame []
    match ← pattern.bind v frame with
    | .error e => return .error e
    | .ok given => return .ok (v, given)
  | e => do
    let v ← eval e frame []
    if v.isError then return .error v else return .ok (v, [])

theorem evalItems_cons (e : Code) (rest : List Code) (last : Value)
    (bound : List (String × Value)) (frame : Frame) :
    evalItems (σ := σ) (e :: rest) last bound frame = (do
      if let some e ← Proc.stop? frame then return (e, bound)
      match ← evalItem e frame with
      | .error e => return (e, bound)
      | .ok (v, given) =>
        evalItems rest v (bound ++ given) (frame.withScope (frame.scope.addAll given))) := by
  cases e with
  | bind pattern e =>
    rw [evalItems, evalItem]
    refine congrArg _ (funext fun stopped => ?_)
    cases stopped with
    | some e => rfl
    | none =>
      dsimp only
      rw [bind_bind]
      refine congrArg _ (funext fun v => ?_)
      rw [bind_bind]
      refine congrArg _ (funext fun r => ?_)
      cases r <;> rfl
  | _ =>
    rw [evalItems, evalItem]
    · refine congrArg _ (funext fun stopped => ?_)
      cases stopped with
      | some e => rfl
      | none =>
        dsimp only
        rw [bind_bind]
        refine congrArg _ (funext fun v => ?_)
        split
        · rfl
        · change _ = evalItems rest v (bound ++ []) frame
          rw [List.append_nil]
    all_goals
      intro pattern e h
      cases h

theorem of_runs_evalItem (h : (evalItem e frame).Runs host w (.ok (v, given)) w') :
    v.isError = false ∧ given.map (·.1) = boundNames e := by
  unfold evalItem at h
  split at h
  next pattern e =>
    obtain ⟨u, w₁, -, h⟩ := runs_bind_inv h
    obtain ⟨r, w₂, hbind, h⟩ := runs_bind_inv h
    cases r with
    | error e => cases (runs_unique h runs_done).1
    | ok names =>
      cases (runs_unique h runs_done).1
      exact Pattern.names_of_runs_bind hbind
  next hother =>
    obtain ⟨u, w₁, -, h⟩ := runs_bind_inv h
    split at h
    · cases (runs_unique h runs_done).1
    next hu =>
      cases (runs_unique h runs_done).1
      refine ⟨by simpa using hu, ?_⟩
      cases e with
      | bind pattern e => exact (hother pattern e rfl).elim
      | _ => rfl

theorem isError_of_runs_evalItem (h : (evalItem e frame).Runs host w (.error v) w') :
    v.isError = true := by
  unfold evalItem at h
  split at h
  · obtain ⟨u, w₁, -, h⟩ := runs_bind_inv h
    obtain ⟨r, w₂, hbind, h⟩ := runs_bind_inv h
    cases r with
    | error e =>
      cases (runs_unique h runs_done).1
      exact Pattern.isError_of_runs_bind hbind
    | ok names => cases (runs_unique h runs_done).1
  · obtain ⟨u, w₁, -, h⟩ := runs_bind_inv h
    split at h
    next hu =>
      cases (runs_unique h runs_done).1
      exact hu
    · cases (runs_unique h runs_done).1

/-- Items after the first go on only if no signal stops them and the first ends without an error. -/
theorem first_of_runs_evalItems {rest : List Code} {r : Value × List (String × Value)}
    (hr : r.1.isError = false) (h : (evalItems (e :: rest) last bound frame).Runs host w r w') :
    w.stop? frame = none ∧ ∃ v given w₁, (evalItem e frame).Runs host w (.ok (v, given)) w₁ := by
  rw [evalItems_cons] at h
  cases hstop : w.stop? frame with
  | some cause =>
    rw [runs_bind_iff (runs_stop?_some hstop)] at h
    obtain rfl := (runs_unique h runs_done).1
    cases hr
  | none =>
    rw [runs_bind_iff (runs_stop? hstop)] at h
    obtain ⟨out, w₁, hitem, h⟩ := runs_bind_inv h
    cases out with
    | error e =>
      obtain rfl := (runs_unique h runs_done).1
      rw [isError_of_runs_evalItem hitem] at hr
      cases hr
    | ok out => exact ⟨rfl, out.1, out.2, w₁, hitem⟩

theorem runs_evalItems_cons_iff {rest : List Code} {r : Value × List (String × Value)}
    (hstop : w.stop? frame = none) (hitem : (evalItem e frame).Runs host w (.ok (v, given)) w₁) :
    (evalItems (e :: rest) last bound frame).Runs host w r w' ↔
      (evalItems rest v (bound ++ given)
        (frame.withScope (frame.scope.addAll given))).Runs host w₁ r w' := by
  rw [evalItems_cons, runs_bind_iff (runs_stop? hstop)]
  exact runs_bind_iff hitem

/--
What items that end without an error leave to those after them: their last value, and a scope in
front of which stands what they have bound.
-/
theorem handed_of_runs (hs : frame.scope.Reflects base bound) (hv : v.isError = false)
    (h : (evalItems items last bound frame).Runs host w (v, bound') w₁) :
    ∃ s, s.Reflects base bound' ∧
      bound'.map (·.1) = bound.map (·.1) ++ items.flatMap boundNames ∧
      ∀ more r w', (evalItems (items ++ more) last bound frame).Runs host w r w' ↔
        (evalItems more v bound' (frame.withScope s)).Runs host w₁ r w' := by
  -- The scope of the frame and the list of what is bound grow together, item by item.
  induction items generalizing last bound frame w with
  | nil =>
    unfold evalItems at h
    obtain ⟨hr, rfl⟩ := runs_unique h runs_done
    obtain ⟨rfl, rfl⟩ := Prod.mk.inj hr
    exact ⟨frame.scope, hs, by simp, fun more r w' => Iff.rfl⟩
  | cons e rest ih =>
    obtain ⟨hstop, v₁, given, w₂, hitem⟩ := first_of_runs_evalItems hv h
    rw [runs_evalItems_cons_iff hstop hitem] at h
    obtain ⟨s, hreflects, hnames, hmore⟩ := ih (Scope.reflects_addAll hs given) h
    refine ⟨s, hreflects, ?_, fun more r w' => ?_⟩
    · simp [hnames, (of_runs_evalItem hitem).2]
    · rw [List.cons_append, runs_evalItems_cons_iff hstop hitem]
      exact hmore more r w'

theorem runs_compound_iff :
    ((compound items).eval frame []).Runs host w v w' ↔
      ∃ bound, (evalItems items (.array []) [] frame).Runs host w (v, bound) w' := by
  unfold eval
  constructor
  · intro h
    obtain ⟨⟨last, bound⟩, w₁, hitems, hdone⟩ := runs_bind_inv h
    obtain ⟨rfl, rfl⟩ := runs_unique hdone runs_done
    exact ⟨bound, hitems⟩
  · rintro ⟨bound, hitems⟩
    exact runs_bind hitems runs_done

/-- The module of what has been bound. -/
def gathered (id : Nat) (bound : List (String × Value)) (scope : Scope) : Namespace :=
  Module.space ⟨id, [], (Table.ofList bound).mapValues Decl.ofValue⟩ scope

theorem runs_collector_of_isError (herror : last.isError = true)
    (h : (evalItems items (.array []) [] frame).Runs host w (last, bound) w₁) :
    ((collector items).eval frame []).Runs host w last w₁ := by
  rw [eval, runs_bind_iff h]
  simp only [herror, if_true]
  exact runs_done

theorem runs_collector_of_item (hlast : last.isError = false)
    (h : (evalItems items (.array []) [] frame).Runs host w (last, bound) w₁) :
    ((collector items).eval frame []).Runs host w (.module (gathered w₁.next bound frame.scope))
      { w₁ with next := w₁.next + 1 } := by
  rw [eval, runs_bind_iff h]
  simp only [hlast, Bool.false_eq_true, if_false]
  exact ⟨0, rfl⟩

/-- A collector ends with the error of its items, or with the module of what they bind. -/
theorem runs_collector_cases (h : ((collector items).eval frame []).Runs host w v w') :
    ∃ last bound w₁, (evalItems items (.array []) [] frame).Runs host w (last, bound) w₁ ∧
      ((last.isError = true ∧ v = last ∧ w' = w₁) ∨
        last.isError = false ∧ v = .module (gathered w₁.next bound frame.scope) ∧
          w' = { w₁ with next := w₁.next + 1 }) := by
  have hparts := h
  rw [eval] at hparts
  obtain ⟨⟨last, bound⟩, w₁, hitems, -⟩ := runs_bind_inv hparts
  refine ⟨last, bound, w₁, hitems, ?_⟩
  cases hlast : last.isError with
  | true => exact .inl ⟨rfl, runs_unique h (runs_collector_of_isError hlast hitems)⟩
  | false => exact .inr ⟨rfl, runs_unique h (runs_collector_of_item hlast hitems)⟩

theorem names_gathered (id : Nat) (bound : List (String × Value)) (scope : Scope) :
    (gathered id bound scope).module.names = (bound.map (·.1)).eraseDups := by
  change Table.keys (Table.mapValues Decl.ofValue (Table.ofList bound)) ++ [] = _
  rw [Table.keys_mapValues, Table.keys_ofList, List.append_nil]

theorem resolve?_gathered {p : Policy σ} (hbound : ∀ e ∈ bound, e.2.Obeys p)
    (hu : Table.get? x (Table.ofList bound) = some u) (id : Nat) (scope : Scope) :
    (gathered id bound scope).resolve? x = some (.value u) := by
  have hdecl : Table.get? x ((Table.ofList bound).mapValues Decl.ofValue) = some (.value u) := by
    rw [Table.get?_mapValues, hu, Option.map_some,
      Value.declOfValue_eq (hbound _ (Table.mem_ofList (Table.mem_of_get? hu)))]
  simp [gathered, Namespace.resolve?, Module.space, Module.resolve?, hdecl]

/-- What items come to in a ready place, and all that they bind, is good for that place. -/
theorem good_of_runs_evalItems (hready : frame.Ready w)
    (h : (evalItems items (.array []) [] frame).Runs Host.silent w (last, bound) w₁) :
    w.Follows w₁ ∧ w₁.Obeys (Policy.sealed σ) ∧
      ∀ e ∈ bound, e.2.Below w₁.next ∧ e.2.Obeys (Policy.sealed σ) := by
  have hnil : (Policy.sealed σ).Yields (.array []) w :=
    (Policy.sealed σ).yields_of_isEvaluated hready.world (.array (by simp) (by simp)) rfl
  have hcode : ∀ e ∈ items, e.CodeIn (Policy.sealed σ) fun _ _ _ => True :=
    fun _ _ _ _ _ _ => ⟨trivial, trivial⟩
  have hensures := ensures_evalItems items (.array []) [] frame w hcode hnil (by simp) hready.scope
    fun c hc => hc
  obtain ⟨⟨hobeys, -⟩, hsealed⟩ := Call.post_of_runs (fun _ _ _ _ => trivial) hensures h
  have hforward := keeps_evalItems items (.array []) [] frame w.next hready.below
    (Value.below_array_iff.mpr (List.forall_mem_nil _)) (List.forall_mem_nil _) w (Nat.le_refl _)
    hready.numbered
  obtain ⟨fuel, hexec⟩ := h
  obtain ⟨hfollows, -, hbelow⟩ := follows_of_exec (fun c w v w' hc hw hans =>
    Call.follows_of_answers Host.keeps_silent hc hw ⟨fuel, hans⟩) hforward hready.numbered hexec
  exact ⟨hfollows, hobeys, fun e he => ⟨hbelow e he, (hsealed e he).1⟩⟩

/-- A name that stands for a value answers as the value does, which does not look at the scope. -/
theorem runs_var_iff {s : Scope} (hu : u.Obeys (Policy.sealed σ))
    (hw : w.Obeys (Policy.sealed σ)) (hfind : s.find? x = some (.value u)) :
    ((var x).eval (frame.withScope s) []).Runs host w v w' ↔
      Call.Answers host ⟨u, frame, []⟩ w v w' := by
  have hscope : (frame.withScope s).scope.find? x = some (.value u) := hfind
  rw [eval, hscope]
  change Runs host (invoke u (frame.withScope s) []) w v w' ↔ _
  rw [runs_invoke_iff]
  refine exists_congr fun fuel => ?_
  rw [← Call.answer_withScope (c := ⟨u, frame, []⟩) fuel ⟨hu, List.forall_mem_nil _⟩ hw s]

theorem evalItems_var (x : String) (last : Value) (bound : List (String × Value))
    (frame : Frame) :
    evalItems (σ := σ) [var x] last bound frame = (do
      if let some e ← Proc.stop? frame then return (e, bound)
      return (← (var x).eval frame [], bound)) := by
  have hlast (v : Value) :
      (if v.isError then pure (v, bound) else evalItems [] v bound frame : Proc σ _) =
        pure (v, bound) := by
    rw [evalItems, ite_self]
  rw [evalItems]
  · refine congrArg _ (funext fun stopped => ?_)
    cases stopped with
    | some e => rfl
    | none => exact congrArg _ (funext hlast)
  · intro pattern e h
    cases h

theorem runs_var_item_iff (hstop : w.stop? frame = none) :
    (∃ bound', (evalItems [var x] last bound frame).Runs host w (v, bound') w') ↔
      ((var x).eval frame []).Runs host w v w' := by
  simp only [evalItems_var, runs_bind_iff (runs_stop? hstop)]
  constructor
  · rintro ⟨bound', h⟩
    obtain ⟨u, w₂, heval, hdone⟩ := runs_bind_inv h
    obtain ⟨hr, rfl⟩ := runs_unique hdone runs_done
    obtain ⟨rfl, rfl⟩ := Prod.mk.inj hr
    exact heval
  · exact fun h => ⟨bound, runs_bind h runs_done⟩

/-- A frame that has begun with an item may go on after the items. -/
theorem stop?_of_runs_evalItems (hfired : w.hasFired frame.signal = false)
    (hfollows : w.Follows w₁) (hlast : v.isError = false) (hx : x ∈ items.flatMap boundNames)
    (h : (evalItems items last bound frame).Runs host w (v, bound') w₁) :
    w₁.stop? frame = none := by
  cases items with
  | nil => cases hx
  | cons e rest =>
    obtain ⟨hstop, -⟩ := first_of_runs_evalItems hlast h
    refine World.stop?_eq_none (World.depth_le_of_stop? hstop) ?_
    rw [World.hasFired_of_follows hfollows, hfired]

/-- A name after items stands for what the items bind it to last. -/
theorem runs_compound_var_iff (hready : frame.Ready w) (hfired : w.hasFired frame.signal = false)
    (hlast : last.isError = false)
    (h : (evalItems items (.array []) [] frame).Runs Host.silent w (last, bound) w₁)
    (hu : Table.get? x (Table.ofList bound) = some u) :
    ((compound (items ++ [var x])).eval frame []).Runs Host.silent w v w' ↔
      Call.Answers Host.silent ⟨u, frame, []⟩ w₁ v w' := by
  obtain ⟨hfollows, hobeys, hgood⟩ := good_of_runs_evalItems hready h
  obtain ⟨s, hreflects, hnames, hmore⟩ := handed_of_runs (Scope.reflects_nil _) hlast h
  have hfind : s.find? x = some (.value u) := by rw [hreflects x, hu]; rfl
  have hmem : (x, u) ∈ bound := Table.mem_ofList (Table.mem_of_get? hu)
  have hstop : w₁.stop? (frame.withScope s) = none := by
    have hframe : w₁.stop? frame = none := by
      have hx : x ∈ bound.map (·.1) := List.mem_map_of_mem hmem
      rw [hnames, List.map_nil, List.nil_append] at hx
      exact stop?_of_runs_evalItems hfired hfollows hlast hx h
    exact hframe
  rw [runs_compound_iff, ← runs_var_iff (hgood _ hmem).2 hobeys hfind, ← runs_var_item_iff hstop]
  exact exists_congr fun bound' => hmore [var x] (v, bound') w'

section Member

variable (hready : frame.Ready w) (hlast : last.isError = false)
  (h : (evalItems items (.array []) [] frame).Runs Host.silent w (last, bound) w₁)
  (hu : Table.get? x (Table.ofList bound) = some u)

include hready hlast h hu

theorem runs_collector_member_iff :
    ((member (collector items) x).eval frame []).Runs Host.silent w v w' ↔
      Call.Answers Host.silent ⟨u, frame, []⟩ { w₁ with next := w₁.next + 1 } v w' := by
  obtain ⟨-, -, hgood⟩ := good_of_runs_evalItems hready h
  have hfound := resolve?_gathered (fun e he => (hgood e he).2) hu w₁.next frame.scope
  rw [runs_member (runs_collector_of_item hlast h) hfound]
  exact runs_invoke_iff

theorem runs_collector_within_iff :
    ((within (collector items) (var x)).eval frame []).Runs Host.silent w v w' ↔
      Call.Answers Host.silent ⟨u, frame, []⟩ { w₁ with next := w₁.next + 1 } v w' := by
  obtain ⟨-, hobeys, hgood⟩ := good_of_runs_evalItems hready h
  have hfound := resolve?_gathered (fun e he => (hgood e he).2) hu w₁.next frame.scope
  have hfind : Scope.find? x (.members (gathered w₁.next bound frame.scope) frame.scope) =
      some (.value u) := by
    rw [Scope.find?, hfound]
    rfl
  have hmem : (x, u) ∈ bound := Table.mem_ofList (Table.mem_of_get? hu)
  rw [eval, runs_bind_iff (runs_collector_of_item hlast h)]
  exact runs_var_iff (hgood _ hmem).2 (World.obeys_of_caches hobeys rfl) hfind

/-- The number that the module has taken is the only difference to a name after the items. -/
theorem runs_collector_member_iff_compound (hfired : w.hasFired frame.signal = false) :
    ((member (collector items) x).eval frame []).Runs Host.silent w v w' ↔
      ∃ v' w₂, ((compound (items ++ [var x])).eval frame []).Runs Host.silent w v' w₂ ∧
        v = v'.rename (bump w₁.next) ∧ w' = w₂.rename (.shift w₁.next 1 id) := by
  obtain ⟨hfollows, -, hgood⟩ := good_of_runs_evalItems hready h
  have hmem : (x, u) ∈ bound := Table.mem_ofList (Table.mem_of_get? hu)
  have hbelow : Call.NumbersBelow ⟨u, frame, []⟩ w₁.next :=
    ⟨(hgood _ hmem).1, List.forall_mem_nil _, below_mono hready.below hfollows.le⟩
  rw [runs_collector_member_iff hready hlast h hu,
    Call.answers_skip_iff (Host.respects_silent _) hbelow hfollows.numbered]
  simp only [runs_compound_var_iff hready hfired hlast h hu]

end Member

/--
A collector ends with the error that the compound of its items ends with, and otherwise with a
module of all that the items bind, in the order in which the names first come. A member of it is
what its name stands for after the items, and in parentheses behind it; only the numbers that are
taken after that of the module differ.
-/
theorem collector_agrees (host : Host σ) (items : List Code) (hready : frame.Ready w)
    (hfired : w.hasFired frame.signal = false) :
    (∀ e w', e.isError = true →
      (((collector items).eval frame []).Runs host w e w' ↔
        ((compound items).eval frame []).Runs host w e w')) ∧
    ((∃ v w', ((collector items).eval frame []).Runs host w v w' ∧ v.isError = false) ↔
      ∃ v w', ((compound items).eval frame []).Runs host w v w' ∧ v.isError = false) ∧
    ∀ v w', ((collector items).eval frame []).Runs host w v w' → v.isError = false →
      ∃ space, v = .module space ∧ w.next ≤ space.module.id ∧
        space.module.names = (items.flatMap boundNames).eraseDups ∧
        ∀ x ∈ space.module.names, ∀ u w₁,
          (((member (collector items) x).eval frame []).Runs host w u w₁ ↔
            ((within (collector items) (var x)).eval frame []).Runs host w u w₁) ∧
          (((member (collector items) x).eval frame []).Runs host w u w₁ ↔
            ∃ u' w₂, ((compound (items ++ [var x])).eval frame []).Runs host w u' w₂ ∧
              u = u'.rename (bump space.module.id) ∧
              w₁ = w₂.rename (.shift space.module.id 1 id)) := by
  -- Nothing that is evaluated here asks the host, so its functions may as well do nothing.
  simp only [runs_eval_iff_silent hready]
  refine ⟨?_, ?_, ?_⟩
  · intro e w' herror
    constructor
    · intro hcollector
      obtain ⟨last, bound, w₁, hitems, ⟨-, rfl, rfl⟩ | ⟨-, rfl, -⟩⟩ :=
        runs_collector_cases hcollector
      · exact runs_compound_iff.mpr ⟨bound, hitems⟩
      · cases herror
    · intro hcompound
      obtain ⟨bound, hitems⟩ := runs_compound_iff.mp hcompound
      exact runs_collector_of_isError herror hitems
  · constructor
    · rintro ⟨v, w', hcollector, hv⟩
      obtain ⟨last, bound, w₁, hitems, ⟨-, rfl, -⟩ | ⟨hlast, -, -⟩⟩ :=
        runs_collector_cases hcollector
      · exact ⟨v, w₁, runs_compound_iff.mpr ⟨bound, hitems⟩, hv⟩
      · exact ⟨last, w₁, runs_compound_iff.mpr ⟨bound, hitems⟩, hlast⟩
    · rintro ⟨v, w', hcompound, hv⟩
      obtain ⟨bound, hitems⟩ := runs_compound_iff.mp hcompound
      exact ⟨_, _, runs_collector_of_item hv hitems, rfl⟩
  · intro v w' hcollector hv
    obtain ⟨last, bound, w₁, hitems, ⟨hlast, rfl, -⟩ | ⟨hlast, rfl, -⟩⟩ :=
      runs_collector_cases hcollector
    · rw [hlast] at hv
      cases hv
    · obtain ⟨s, -, hnames, -⟩ := handed_of_runs (Scope.reflects_nil _) hlast hitems
      refine ⟨_, rfl, (good_of_runs_evalItems hready hitems).1.le, ?_, ?_⟩
      · rw [names_gathered, hnames]
        rfl
      · intro x hx u w₂
        rw [names_gathered, ← Table.keys_ofList] at hx
        obtain ⟨u', hu⟩ := Table.exists_get?_of_mem_keys hx
        refine ⟨?_, runs_collector_member_iff_compound hready hlast hitems hu hfired⟩
        rw [runs_collector_member_iff hready hlast hitems hu,
          runs_collector_within_iff hready hlast hitems hu]

/-- A name that is bound twice, an array taken apart, and a function of what was bound. -/
theorem collector_agrees_rebound :
    let items : List Code := [.bind (.name "x") (.string "a"),
      .bind (.array ["y", "x"]) (.array [.var "x", .string "b"]),
      .bind (.name "f") (.lambda "f" [] (.array [.var "x", .var "y"]))]
    ∃ space w' w₁,
      ((collector items).eval Program.firstFrame []).Runs Host.none Program.firstWorld
        (.module space) w' ∧
      space.module.names = ["x", "y", "f"] ∧
      ((compound (items ++ [var "f"])).eval Program.firstFrame []).Runs Host.none
        Program.firstWorld (.array [.string "b", .string "a"]) w₁ ∧
      ((within (collector items) (var "f")).eval Program.firstFrame []).Runs Host.none
        Program.firstWorld (.array [.string "b", .string "a"])
        (w₁.rename (.shift space.module.id 1 id)) := by
  intro items
  have hcollector : ((collector items).eval Program.firstFrame []).Runs Host.none
      Program.firstWorld (.module _) _ := ⟨3, rfl⟩
  have hcompound : ((compound (items ++ [var "f"])).eval Program.firstFrame []).Runs Host.none
      Program.firstWorld (.array [.string "b", .string "a"]) _ := ⟨3, rfl⟩
  obtain ⟨space, hspace, -, hnames, hmembers⟩ :=
    (collector_agrees Host.none items Program.ready_firstFrame rfl).2.2 _ _ hcollector rfl
  rw [hspace] at hcollector
  have hthree : space.module.names = ["x", "y", "f"] := hnames.trans (by decide)
  obtain ⟨hwithin, hagree⟩ := hmembers "f" (by simp [hthree]) (.array [.string "b", .string "a"]) _
  exact ⟨space, _, _, hcollector, hthree, hcompound,
    hwithin.mp (hagree.mpr ⟨_, _, hcompound, rfl, rfl⟩)⟩

end Expr

end ChainScript
