import ChainScript.Proofs.Eval.Host
import ChainScript.Proofs.Expr.Normal
import ChainScript.Proofs.Proc.Same

/-!
Chains, segment by segment. Segments that do not apply to the running value may be left out, and
segments without slots may be put in parentheses, for as long as no signal fires.
-/
namespace ChainScript

open Proc ChainScript.Expr

variable {σ : Type} {host : Host σ} {frame : Frame} {running : Value} {scope : Scope}
  {args : List Value} {w : World σ} {s d first : Segment Code}
  {rest rest' before after ps qs : List (Segment Code)}

/-- Where a chain is: the running value, the names seen by the segments that follow, the world. -/
structure Point (σ : Type) where
  running : Value
  scope : Scope
  world : World σ

namespace Segment

/-- A recovering segment is passed over unless the running value is an error, others if it is. -/
def IsPassedOver (s : Segment Code) (running : Value) : Prop :=
  s.link = .recover ↔ running.isError = false

/-- The first segment of a chain. -/
def opening (s : Segment Code) (frame : Frame) : Proc σ (Value × Scope) := do
  Pattern.bindSlot s.slot (← s.expr.eval frame []) frame frame.scope

/-- What a segment that applies makes of the running value and of the scope. -/
def output (s : Segment Code) (running : Value) (scope : Scope) (frame : Frame) :
    Proc σ (Value × Scope) := do
  let inner := frame.withScope scope
  Pattern.bindSlot s.slot (← s.expr.eval inner [running]) inner scope

/-- A later segment, which may not apply. -/
def step (s : Segment Code) (running : Value) (scope : Scope) (frame : Frame) :
    Proc σ (Value × Scope) :=
  if s.link.applies running then do
    let (output, scope) ← s.output running scope frame
    return (s.link.carry running output, scope)
  else return (running, scope)

theorem isPassedOver_iff : s.IsPassedOver running ↔ s.link.applies running = false := by
  unfold IsPassedOver Link.applies
  cases hlink : s.link <;> simp

theorem step_of_isPassedOver (h : s.IsPassedOver running) :
    (s.step running scope frame : Proc σ _) = pure (running, scope) := by
  simp [step, isPassedOver_iff.mp h]

/-- A recovering segment that runs is given the error, and its output becomes the running value. -/
theorem step_of_recover (hlink : s.link = .recover) (h : running.isError = true) :
    (s.step running scope frame : Proc σ _) = s.output running scope frame := by
  have hcarry (output : Value) : Link.recover.carry running output = output := rfl
  simp only [step, hlink, Link.applies, h, if_true, hcarry]
  exact bind_done _

/-- The first segment of a chain takes it from the world to the point, if the chain may start. -/
def Opens (host : Host σ) (frame : Frame) (s : Segment Code) (w : World σ) (st : Point σ) : Prop :=
  w.stop? frame = none ∧ (s.opening frame).Runs host w (st.running, st.scope) st.world

/-- A later segment takes the chain from one point to another. -/
def Leads (host : Host σ) (frame : Frame) (s : Segment Code) (st st' : Point σ) : Prop :=
  (s.step st.running st.scope frame).Runs host st.world (st'.running, st'.scope) st'.world

theorem point_unique {p : Proc σ (Value × Scope)} {st st' : Point σ}
    (h : p.Runs host w (st.running, st.scope) st.world)
    (h' : p.Runs host w (st'.running, st'.scope) st'.world) : st = st' := by
  obtain ⟨heq, hworld⟩ := runs_unique h h'
  obtain ⟨hrunning, hscope⟩ := Prod.mk.inj heq
  cases st
  cases st'
  simp_all

theorem opens_unique {st st' : Point σ} (h : s.Opens host frame w st)
    (h' : s.Opens host frame w st') : st = st' :=
  point_unique h.2 h'.2

theorem leads_unique {st st₁ st₂ : Point σ} (h : s.Leads host frame st st₁)
    (h' : s.Leads host frame st st₂) : st₁ = st₂ :=
  point_unique h h'

theorem leads_of_isPassedOver {st : Point σ} (h : s.IsPassedOver st.running) :
    s.Leads host frame st st := by
  unfold Leads
  rw [step_of_isPassedOver h]
  exact runs_done

/-- The segments in turn take the chain from one point to another. -/
inductive Arrive (host : Host σ) (frame : Frame) :
    List (Segment Code) → Point σ → Point σ → Prop
  | nil {st : Point σ} : Arrive host frame [] st st
  | cons {s : Segment Code} {rest : List (Segment Code)} {st st₁ st' : Point σ}
      (hs : s.Leads host frame st st₁) (h : Arrive host frame rest st₁ st') :
      Arrive host frame (s :: rest) st st'

/-- Going on from the first point, one of the segments runs, and it does so in the second. -/
def RunsAt (host : Host σ) (frame : Frame) (segments : List (Segment Code)) (st : Point σ)
    (s : Segment Code) (st' : Point σ) : Prop :=
  ∃ before after, segments = before ++ s :: after ∧ Arrive host frame before st st' ∧
    ¬ s.IsPassedOver st'.running

/--
The second list is the first one without some of the segments that are passed over when the chain
goes on with the first list from the point.
-/
inductive Prunes (host : Host σ) (frame : Frame) :
    List (Segment Code) → List (Segment Code) → Point σ → Prop
  | nil {st : Point σ} : Prunes host frame [] [] st
  | skip {s : Segment Code} {rest rest' : List (Segment Code)} {st : Point σ}
      (hs : s.IsPassedOver st.running) (h : Prunes host frame rest rest' st) :
      Prunes host frame (s :: rest) rest' st
  | keep {s : Segment Code} {rest rest' : List (Segment Code)} {st : Point σ}
      (hrest : rest'.Sublist rest)
      (h : ∀ st', s.Leads host frame st st' → Prunes host frame rest rest' st') :
      Prunes host frame (s :: rest) (s :: rest') st

theorem runsAt_cons {st st' : Point σ} :
    RunsAt host frame (s :: rest) st d st' ↔
      (¬ s.IsPassedOver st.running ∧ d = s ∧ st' = st) ∨
        ∃ st₁, s.Leads host frame st st₁ ∧ RunsAt host frame rest st₁ d st' := by
  constructor
  · rintro ⟨before, after, hsplit, harrive, hruns⟩
    cases harrive with
    | nil =>
      obtain ⟨rfl, -⟩ := List.cons.inj hsplit
      exact .inl ⟨hruns, rfl, rfl⟩
    | cons hs h =>
      obtain ⟨rfl, hrest⟩ := List.cons.inj hsplit
      exact .inr ⟨_, hs, _, after, hrest, h, hruns⟩
  · rintro (⟨hruns, rfl, rfl⟩ | ⟨st₁, hs, before, after, hsplit, harrive, hruns⟩)
    · exact ⟨[], rest, rfl, .nil, hruns⟩
    · exact ⟨s :: before, after, by rw [hsplit]; rfl, .cons hs harrive, hruns⟩

theorem sublist_of_prunes {st : Point σ} (h : Prunes host frame rest rest' st) :
    rest'.Sublist rest := by
  induction h with
  | nil => exact .slnil
  | skip _ _ ih => exact ih.cons _
  | keep hrest _ _ => exact hrest.cons_cons _

/-- All segments that are passed over can be left out. -/
theorem exists_prunes (host : Host σ) (frame : Frame) (rest : List (Segment Code)) (st : Point σ) :
    ∃ rest', Prunes host frame rest rest' st ∧
      ∀ before s after st', rest' = before ++ s :: after → Arrive host frame before st st' →
        ¬ s.IsPassedOver st'.running := by
  induction rest generalizing st with
  | nil => exact ⟨[], .nil, by simp⟩
  | cons s rest ih =>
    by_cases hs : s.IsPassedOver st.running
    · obtain ⟨rest', hprunes, hruns⟩ := ih st
      exact ⟨rest', .skip hs hprunes, hruns⟩
    -- Where the segment does not come to an end, no later one is reached.
    obtain ⟨rest', hrest, hprunes, hruns⟩ : ∃ rest' : List (Segment Code), rest'.Sublist rest ∧
        (∀ st₁, s.Leads host frame st st₁ → Prunes host frame rest rest' st₁) ∧
        ∀ st₁, s.Leads host frame st st₁ → ∀ before d after st',
          rest' = before ++ d :: after → Arrive host frame before st₁ st' →
            ¬ d.IsPassedOver st'.running := by
      by_cases hends : ∃ st₁, s.Leads host frame st st₁
      · obtain ⟨st₁, hleads⟩ := hends
        obtain ⟨rest', hprunes, hruns⟩ := ih st₁
        refine ⟨rest', sublist_of_prunes hprunes, fun st₂ h => ?_, fun st₂ h => ?_⟩ <;>
          obtain rfl := leads_unique hleads h
        · exact hprunes
        · exact hruns
      · exact ⟨rest, .refl _, fun st₁ h => absurd ⟨st₁, h⟩ hends,
          fun st₁ h => absurd ⟨st₁, h⟩ hends⟩
    refine ⟨s :: rest', .keep hrest hprunes, ?_⟩
    intro before d after st' hsplit harrive
    cases harrive with
    | nil =>
      obtain ⟨rfl, -⟩ := List.cons.inj hsplit
      exact hs
    | cons hleads h =>
      obtain ⟨rfl, hrest'⟩ := List.cons.inj hsplit
      exact hruns _ hleads _ _ _ _ hrest' h

/-- The same segments run at the same points, and so see the same names, if others are left out. -/
theorem runsAt_of_prunes {st st' : Point σ} (h : Prunes host frame rest rest' st) :
    RunsAt host frame rest st d st' ↔ RunsAt host frame rest' st d st' := by
  induction h with
  | nil => exact Iff.rfl
  | skip hs _ ih =>
    rw [runsAt_cons, ← ih]
    constructor
    · rintro (⟨hruns, -⟩ | ⟨st₁, hleads, hrest⟩)
      · exact absurd hs hruns
      · rwa [leads_unique hleads (leads_of_isPassedOver hs)] at hrest
    · exact fun hrest => .inr ⟨_, leads_of_isPassedOver hs, hrest⟩
  | keep _ _ ih =>
    rw [runsAt_cons, runsAt_cons]
    refine or_congr Iff.rfl (exists_congr fun st₁ => ?_)
    exact and_congr_right fun hleads => ih st₁ hleads

end Segment

open Segment

namespace Expr

theorem evalChain_cons (first : Segment Code) (rest : List (Segment Code)) (frame : Frame) :
    evalChain (σ := σ) (first :: rest) frame = Proc.stop? frame >>= fun stopped =>
      match stopped with
      | some e => pure e
      | none => first.opening frame >>= fun r => evalSegments rest r.1 r.2 frame := by
  obtain ⟨e, link, slot⟩ := first
  simp only [evalChain]
  congr 1
  funext stopped
  cases stopped with
  | some e => rfl
  | none => exact (bind_bind _ _ _).symm

theorem evalSegments_cons (s : Segment Code) (rest : List (Segment Code)) (running : Value)
    (scope : Scope) (frame : Frame) :
    evalSegments (σ := σ) (s :: rest) running scope frame = Proc.stop? frame >>= fun stopped =>
      match stopped with
      | some e => pure e
      | none => s.step running scope frame >>= fun r => evalSegments rest r.1 r.2 frame := by
  obtain ⟨e, link, slot⟩ := s
  simp only [evalSegments]
  congr 1
  funext stopped
  cases stopped with
  | some e => rfl
  | none =>
    unfold Segment.step
    dsimp only
    split
    · rw [bind_bind]
      exact (bind_bind _ _ _).symm
    · rfl

theorem evalChain_undisturbed (h : Undisturbed host frame.signal
      ((chain (first :: rest)).eval frame args) w) (hstop : w.stop? frame = none) :
    Undisturbed host frame.signal
      (first.opening frame >>= fun r => evalSegments rest r.1 r.2 frame) w := by
  unfold eval at h
  rw [evalChain_cons] at h
  have hrest := undisturbed_of_runs (runs_stop? hstop) (undisturbed_left h)
  exact hrest

theorem evalSegments_undisturbed
    (h : Undisturbed host frame.signal (evalSegments (s :: rest) running scope frame) w)
    (hstop : w.stop? frame = none) :
    Undisturbed host frame.signal
      (s.step running scope frame >>= fun r => evalSegments rest r.1 r.2 frame) w := by
  rw [evalSegments_cons] at h
  have hrest := undisturbed_of_runs (runs_stop? hstop) h
  exact hrest

/-- Segments that are passed over may be left out. -/
theorem evalSegments_same_of_prunes {st : Point σ} (hprunes : Prunes host frame rest rest' st)
    (hdepth : frame.depth ≤ frame.maxDepth)
    (hcalm : Undisturbed host frame.signal (evalSegments rest st.running st.scope frame)
      st.world) :
    Same host (evalSegments rest st.running st.scope frame)
      (evalSegments rest' st.running st.scope frame) st.world := by
  have hcontinues {rest : List (Segment Code)} {st : Point σ}
      (h : Undisturbed host frame.signal (evalSegments rest st.running st.scope frame) st.world) :
      st.world.stop? frame = none :=
    World.stop?_eq_none hdepth (hasFired_of_undisturbed h)
  induction hprunes with
  | nil => exact same_refl _ _
  | @skip s rest rest' st hs _ ih =>
    have hstop := hcontinues hcalm
    have hrest := evalSegments_undisturbed hcalm hstop
    rw [evalSegments_cons]
    refine same_of_stop? hstop ?_
    rw [step_of_isPassedOver hs] at hrest ⊢
    exact ih hrest
  | @keep s rest rest' st _ _ ih =>
    have hstop := hcontinues hcalm
    have hrest := evalSegments_undisturbed hcalm hstop
    rw [evalSegments_cons, evalSegments_cons]
    refine same_behind_stop? (fun _ => rfl) fun _ => ?_
    refine same_bind_right _ fun r w₁ hrun => ?_
    have hlater := undisturbed_of_runs hrun hrest
    exact ih ⟨r.1, r.2, w₁⟩ hrun hlater

/-- An error with no recovering segment ahead is handed to what follows the chain. -/
theorem evalSegments_same_of_isError {α : Type} {k : Value → Proc σ α}
    {rest : List (Segment Code)} (hrest : ∀ s ∈ rest, s.link ≠ .recover)
    (herror : running.isError = true) (hstop : w.stop? frame = none) :
    Same host (evalSegments rest running scope frame >>= k) (k running) w := by
  induction rest with
  | nil =>
    unfold evalSegments
    exact same_refl _ _
  | cons s rest ih =>
    have hskipped : s.IsPassedOver running := by
      simpa [IsPassedOver, herror] using hrest s List.mem_cons_self
    rw [evalSegments_cons, bind_bind]
    refine same_of_stop? hstop ?_
    dsimp only
    rw [step_of_isPassedOver hskipped]
    exact ih fun d hd => hrest d (List.mem_cons_of_mem _ hd)

/-- A recovering segment that follows an error is the next to run. -/
theorem evalSegments_same_of_recover {α : Type} {k : Value → Proc σ α}
    (hlink : s.link = .recover) (herror : running.isError = true)
    (hstop : w.stop? frame = none) :
    Same host (evalSegments (s :: rest) running scope frame >>= k)
      (s.output running scope frame >>= fun r => evalSegments rest r.1 r.2 frame >>= k) w := by
  rw [evalSegments_cons, bind_bind]
  refine same_of_stop? hstop ?_
  dsimp only
  rw [step_of_recover hlink herror, bind_bind]
  exact same_refl _ _

theorem comes_of_arrive {st st' : Point σ} (h : Arrive host frame before st st')
    (hdepth : frame.depth ≤ frame.maxDepth)
    (hcalm : Undisturbed host frame.signal
      (evalSegments (before ++ after) st.running st.scope frame) st.world) :
    Comes host (evalSegments (before ++ after) st.running st.scope frame) st.world
      (evalSegments after st'.running st'.scope frame) st'.world := by
  induction h with
  | nil => exact .refl
  | @cons s rest st st₁ st' hs _ ih =>
    have hstop := World.stop?_eq_none hdepth (hasFired_of_undisturbed hcalm)
    have hrest := undisturbed_of_runs hs (evalSegments_undisturbed hcalm hstop)
    rw [List.cons_append, evalSegments_cons]
    refine comes_of_part (runs_stop? hstop) ?_
    exact comes_of_part hs (ih hrest)

/--
Skipped segments are inert. Leaving out later segments that are passed over, be it all of them,
changes neither what the chain does nor what the other segments are given to see. An error that no
recovering segment follows is what the chain ends with, whatever arguments are left; a recovering
segment is given the error and makes the running value of its own.
-/
theorem skipped_segments_inert (first : Segment Code) (rest : List (Segment Code)) (frame : Frame)
    (args : List Value) (w : World σ)
    (hcalm : Undisturbed host frame.signal ((chain (first :: rest)).eval frame args) w) :
    (∀ rest', (∀ st, first.Opens host frame w st → Prunes host frame rest rest' st) →
      Same host ((chain (first :: rest)).eval frame args) ((chain (first :: rest')).eval frame args)
          w ∧
        ∀ st, first.Opens host frame w st → ∀ s st',
          RunsAt host frame rest st s st' ↔ RunsAt host frame rest' st s st') ∧
    (∃ rest', ∀ st, first.Opens host frame w st → Prunes host frame rest rest' st ∧
      ∀ before s after st', rest' = before ++ s :: after → Arrive host frame before st st' →
        ¬ s.IsPassedOver st'.running) ∧
    ∀ before after st st', rest = before ++ after → first.Opens host frame w st →
      Arrive host frame before st st' → st'.running.isError = true →
      let left : Proc σ Value := do
        applyRest (← evalSegments after st'.running st'.scope frame) frame args
      Comes host ((chain (first :: rest)).eval frame args) w left st'.world ∧
        ((∀ s ∈ after, s.link ≠ .recover) → Same host left (pure st'.running) st'.world) ∧
        ∀ s later, after = s :: later → s.link = .recover →
          Same host left
            (do
              let (output, scope) ← s.output st'.running st'.scope frame
              applyRest (← evalSegments later output scope frame) frame args)
            st'.world := by
  refine ⟨?_, ?_, ?_⟩
  · intro rest' hprunes
    refine ⟨?_, fun st hopens s st' => runsAt_of_prunes (hprunes st hopens)⟩
    unfold eval
    refine same_bind ?_ fun v w' _ => same_refl _ _
    rw [evalChain_cons, evalChain_cons]
    refine same_behind_stop? (fun _ => rfl) fun hstop => ?_
    have hrest := evalChain_undisturbed hcalm hstop
    refine same_bind_right _ fun r w₁ hrun => ?_
    have hlater := undisturbed_of_runs hrun hrest
    exact evalSegments_same_of_prunes (hprunes ⟨r.1, r.2, w₁⟩ ⟨hstop, hrun⟩)
      (World.depth_le_of_stop? hstop) hlater
  · by_cases hopens : ∃ st, first.Opens host frame w st
    · obtain ⟨st, hopens⟩ := hopens
      obtain ⟨rest', hrest'⟩ := exists_prunes host frame rest st
      refine ⟨rest', fun st' h => ?_⟩
      obtain rfl := opens_unique hopens h
      exact hrest'
    · exact ⟨rest, fun st h => absurd ⟨st, h⟩ hopens⟩
  · rintro before after st st' rfl ⟨hstop, hopening⟩ harrive herror
    have hdepth := World.depth_le_of_stop? hstop
    have hlater := undisturbed_of_runs hopening (evalChain_undisturbed hcalm hstop)
    have hcomes := comes_of_arrive harrive hdepth hlater
    have hstop' : st'.world.stop? frame = none :=
      World.stop?_eq_none hdepth (hasFired_of_undisturbed (undisturbed_of_comes hlater hcomes))
    refine ⟨?_, ?_, ?_⟩
    · unfold eval
      refine comes_bind ?_
      rw [evalChain_cons]
      refine comes_of_part (runs_stop? hstop) ?_
      exact comes_of_part hopening hcomes
    · intro hafter
      rw [← applyRest_of_isError herror args]
      exact evalSegments_same_of_isError hafter herror hstop'
    · rintro s later rfl hlink
      exact evalSegments_same_of_recover hlink herror hstop'

/-- An unknown name with a segment that is skipped on each side of the one that recovers. -/
theorem skipped_segments_inert_recovered :
    let first : Segment Code := ⟨.var "nowhere", .plain, none⟩
    let recovering : Segment Code := ⟨.string "b", .recover, none⟩
    let rest := [⟨.string "a", .plain, some (.name "x")⟩, recovering,
      ⟨.string "c", .recover, some (.name "x")⟩]
    Same Host.none ((chain (first :: rest)).eval Program.firstFrame [])
        ((chain [first, recovering]).eval Program.firstFrame []) Program.firstWorld ∧
      ((chain (first :: rest)).eval Program.firstFrame []).Runs Host.none Program.firstWorld
        (.string "b") { Program.firstWorld with next := 20 } := by
  intro first recovering rest
  have hcalm : Undisturbed Host.none Program.firstFrame.signal
      ((chain (first :: rest)).eval Program.firstFrame []) Program.firstWorld :=
    undisturbed_eval Program.ready_firstFrame _ rfl
  have hprunes (st : Point Unit)
      (hopens : first.Opens Host.none Program.firstFrame Program.firstWorld st) :
      Prunes Host.none Program.firstFrame rest [recovering] st := by
    have herror : st = ⟨.error 19 ⟨.unknownIdentifier "nowhere", .root⟩, Program.firstFrame.scope,
        { Program.firstWorld with next := 20 }⟩ := point_unique hopens.2 ⟨1, rfl⟩
    subst herror
    refine .skip (by simp [IsPassedOver, Value.isError]) (.keep (List.nil_sublist _) ?_)
    intro st' hleads
    have hstring : st' = ⟨.string "b", Program.firstFrame.scope,
        { Program.firstWorld with next := 20 }⟩ := leads_unique hleads ⟨1, rfl⟩
    subst hstring
    exact .skip (by simp [IsPassedOver, Value.isError]) .nil
  obtain ⟨hsame, -⟩ := (skipped_segments_inert first rest _ _ _ hcalm).1 [recovering] hprunes
  exact ⟨hsame, 1, rfl⟩

/-- The code is that of the segments in parentheses: of a single segment, its expression. -/
inductive IsGroup : List (Segment Code) → Code → Prop
  | chain (segments : List (Segment Code)) : IsGroup segments (chain segments)
  | single (e : Code) (link : Link) : IsGroup [⟨e, link, none⟩] e

theorem scope_of_runs_bindSlot {p : Proc σ Value} {inner : Frame} {r : Value × Scope}
    {w' : World σ} (hslot : s.slot = none)
    (hrun : (p >>= fun v => Pattern.bindSlot s.slot v inner scope).Runs host w r w') :
    r.2 = scope := by
  obtain ⟨v, w₁, -, hbind⟩ := runs_bind_inv hrun
  rw [hslot] at hbind
  obtain ⟨rfl, -⟩ := runs_unique hbind runs_done
  rfl

theorem scope_of_runs_step {r : Value × Scope} {w' : World σ} (hslot : s.slot = none)
    (hrun : (s.step running scope frame).Runs host w r w') : r.2 = scope := by
  unfold Segment.step at hrun
  split at hrun
  · obtain ⟨r', w₁, houtput, hcarry⟩ := runs_bind_inv hrun
    obtain ⟨rfl, -⟩ := runs_unique hcarry runs_done
    have hscope := scope_of_runs_bindSlot hslot houtput
    exact hscope
  · obtain ⟨rfl, -⟩ := runs_unique hrun runs_done
    rfl

/-- Segments without slots leave nothing but the running value to those that follow. -/
theorem evalSegments_append_same (hslots : ∀ s ∈ ps, s.slot = none)
    (hdepth : frame.depth ≤ frame.maxDepth)
    (hcalm : Undisturbed host frame.signal (evalSegments (ps ++ qs) running scope frame) w) :
    Same host (evalSegments (ps ++ qs) running scope frame)
      (evalSegments ps running scope frame >>= fun v => evalSegments qs v scope frame) w := by
  induction ps generalizing running w with
  | nil =>
    simp only [evalSegments]
    exact same_refl _ _
  | cons s ps ih =>
    have hstop := World.stop?_eq_none hdepth (hasFired_of_undisturbed hcalm)
    have hrest := evalSegments_undisturbed hcalm hstop
    rw [List.cons_append, evalSegments_cons, evalSegments_cons, bind_bind]
    refine same_of_stop? hstop (same_symm (same_of_stop? hstop (same_symm ?_)))
    dsimp only
    rw [bind_bind]
    refine same_bind_right _ fun r w₁ hrun => ?_
    have hlater := undisturbed_of_runs hrun hrest
    rw [scope_of_runs_step (hslots s List.mem_cons_self) hrun] at hlater ⊢
    exact ih (fun d hd => hslots d (List.mem_cons_of_mem _ hd)) hlater

/-- A group does what its segments do one after the other. -/
theorem group_same {inner : Code} (hgroup : IsGroup ps inner) (hstop : w.stop? frame = none) :
    Same host (inner.eval frame []) (evalChain ps frame) w := by
  cases hgroup with
  | chain =>
    have hall : (evalChain ps frame >>= fun v => applyRest v frame [] : Proc σ Value) =
        evalChain ps frame := bind_done _
    unfold eval
    rw [hall]
    exact same_refl _ _
  | single e link =>
    have hsegment : ((⟨inner, link, none⟩ : Segment Code).opening frame >>= fun r =>
        evalSegments [] r.1 r.2 frame : Proc σ Value) = inner.eval frame [] := by
      simp only [Segment.opening, Pattern.bindSlot, evalSegments, bind_bind]
      exact bind_done _
    rw [evalChain_cons]
    refine same_symm (same_of_stop? hstop ?_)
    dsimp only
    rw [hsegment]
    exact same_refl _ _

/-- Segments without slots may be put in parentheses in front of others. -/
theorem chain_same_of_group {inner : Code} (hgroup : IsGroup ps inner) (hps : ps ≠ [])
    (hslots : ∀ s ∈ ps, s.slot = none) (link : Link)
    (hcalm : Undisturbed host frame.signal ((chain (ps ++ qs)).eval frame args) w) :
    Same host ((chain (ps ++ qs)).eval frame args)
      ((chain (⟨inner, link, none⟩ :: qs)).eval frame args) w := by
  obtain ⟨first, rest, rfl⟩ := List.exists_cons_of_ne_nil hps
  unfold eval
  refine same_bind ?_ fun v w' _ => same_refl _ _
  rw [List.cons_append, evalChain_cons, evalChain_cons]
  refine same_behind_stop? (fun _ => rfl) fun hstop => ?_
  have hdepth := World.depth_le_of_stop? hstop
  have hrest := evalChain_undisturbed hcalm hstop
  -- The group is evaluated behind the check that the chain has made already.
  have hinner : Same host ((⟨inner, link, none⟩ : Segment Code).opening frame >>= fun r =>
      evalSegments qs r.1 r.2 frame)
      (evalChain (first :: rest) frame >>= fun v => evalSegments qs v frame.scope frame) w := by
    simp only [Segment.opening, Pattern.bindSlot, bind_bind]
    exact same_bind (group_same hgroup hstop) fun v w' _ => same_refl _ _
  refine same_symm (same_trans hinner (same_symm ?_))
  rw [evalChain_cons, bind_bind]
  refine same_symm (same_of_stop? hstop (same_symm ?_))
  dsimp only
  rw [bind_bind]
  refine same_bind_right _ fun r w₁ hrun => ?_
  have hlater := undisturbed_of_runs hrun hrest
  rw [scope_of_runs_bindSlot (hslots first List.mem_cons_self) hrun] at hlater ⊢
  exact evalSegments_append_same (fun s hs => hslots s (List.mem_cons_of_mem _ hs)) hdepth hlater

theorem allotSegments_append {κ : Type} (ps qs : List (Segment (Expr κ))) (next : Nat) :
    allotSegments (ps ++ qs) next =
      ((allotSegments ps next).1 ++ (allotSegments qs (allotSegments ps next).2).1,
        (allotSegments qs (allotSegments ps next).2).2) := by
  induction ps generalizing next with
  | nil => rfl
  | cons s ps ih => simp only [List.cons_append, allotSegments, ih]

theorem slots_allotSegments {κ : Type} (ps : List (Segment (Expr κ))) (next : Nat) :
    (allotSegments ps next).1.map (·.slot) = ps.map (·.slot) := by
  induction ps generalizing next with
  | nil => rfl
  | cons s ps ih => simp only [allotSegments, List.map_cons, ih]

/-- What the translator makes of a group is the group of what it makes of the segments. -/
theorem isGroup_allot (ps : List (Segment Source)) (next : Nat) :
    IsGroup (allotSegments ps next).1 ((ofSegments ps).allot next).1 ∧
      ((ofSegments ps).allot next).2 = (allotSegments ps next).2 := by
  unfold ofSegments
  split
  next e link => exact ⟨.single _ link, rfl⟩
  · exact ⟨.chain _, rfl⟩

/--
Chains regroup freely where no slot is involved: segments without slots may be put in parentheses
in front of the segments that follow them, as code that runs and as the code that is made of source
text, where a chain of one segment without a slot is the segment itself.
-/
theorem chain_regroups (frame : Frame) (args : List Value) (w : World σ) :
    (∀ (ps qs : List (Segment Code)) (inner : Code) (link : Link), IsGroup ps inner → ps ≠ [] →
      (∀ s ∈ ps, s.slot = none) →
      Undisturbed host frame.signal ((chain (ps ++ qs)).eval frame args) w →
      Same host ((chain (ps ++ qs)).eval frame args)
        ((chain (⟨inner, link, none⟩ :: qs)).eval frame args) w) ∧
    ∀ (ps qs : List (Segment Source)) (link : Link) (next : Nat), ps ≠ [] →
      (∀ s ∈ ps, s.slot = none) →
      let flat := ((ofSegments (ps ++ qs)).allot next).1
      let grouped := ((ofSegments (⟨ofSegments ps, link, none⟩ :: qs)).allot next).1
      Undisturbed host frame.signal (flat.eval frame args) w →
      Same host (flat.eval frame args) (grouped.eval frame args) w := by
  refine ⟨fun ps qs inner link hgroup hps hslots => chain_same_of_group hgroup hps hslots link, ?_⟩
  intro ps qs link next hps hslots flat grouped hcalm
  cases qs with
  | nil =>
    have heq : flat = grouped := by simp only [flat, grouped, List.append_nil, ofSegments]
    rw [heq]
    exact same_refl _ _
  | cons q qs =>
    obtain ⟨hgroup, hnext⟩ := isGroup_allot ps next
    have hflat : flat = chain ((allotSegments ps next).1 ++
        (allotSegments (q :: qs) (allotSegments ps next).2).1) := by
      obtain ⟨first, rest, rfl⟩ := List.exists_cons_of_ne_nil hps
      simp only [flat]
      rw [List.cons_append, ofSegments_cons (.inl (by simp)), allot, ← List.cons_append,
        allotSegments_append]
    have hgrouped : grouped = chain (⟨((ofSegments ps).allot next).1, link, none⟩ ::
        (allotSegments (q :: qs) (allotSegments ps next).2).1) := by
      simp only [grouped]
      rw [ofSegments_cons (.inl (by simp)), allot, allotSegments, ← hnext]
    rw [hflat] at hcalm ⊢
    rw [hgrouped]
    have hallotted := slots_allotSegments ps next
    refine chain_same_of_group hgroup ?_ ?_ link hcalm
    · intro hnil
      simp_all
    · intro s hs
      have hslot : s.slot ∈ ps.map (·.slot) := hallotted ▸ List.mem_map_of_mem hs
      obtain ⟨s', hs', heq⟩ := List.mem_map.mp hslot
      rw [← heq]
      exact hslots s' hs'

/-- An error that leaves the parentheses and is recovered from behind them. -/
theorem chain_regroups_recovered :
    let ps : List (Segment Source) := [⟨.var "nowhere", .plain, none⟩, ⟨.string "a", .plain, none⟩]
    let qs : List (Segment Source) := [⟨.string "b", .recover, some (.name "x")⟩]
    let flat := ((ofSegments (ps ++ qs)).allot 0).1
    let grouped := ((ofSegments (⟨ofSegments ps, .plain, none⟩ :: qs)).allot 0).1
    Same Host.none (flat.eval Program.firstFrame []) (grouped.eval Program.firstFrame [])
        Program.firstWorld ∧
      (grouped.eval Program.firstFrame []).Runs Host.none Program.firstWorld (.string "b")
        { Program.firstWorld with next := 20 } := by
  intro ps qs flat grouped
  have hcalm : Undisturbed Host.none Program.firstFrame.signal (flat.eval Program.firstFrame [])
      Program.firstWorld :=
    undisturbed_eval Program.ready_firstFrame _ rfl
  have hsame := (chain_regroups Program.firstFrame [] Program.firstWorld).2 ps qs .plain 0
    (by simp [ps]) (by simp [ps]) hcalm
  exact ⟨hsame, 1, rfl⟩

end Expr

end ChainScript
