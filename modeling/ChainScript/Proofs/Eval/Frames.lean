import ChainScript.Proofs.Eval.Confined
import ChainScript.Proofs.Eval.Moment
import ChainScript.Proofs.Eval.Stopping

/-!
Frames mirror the calls that are active. At every moment of an evaluation the current frame shows,
on top of the frame that the evaluation was started in, exactly the calls that are active then; so a
new error names these calls. What waits for an error hands it on as it is, unless it is a chain that
has a recovering segment ahead.
-/
namespace ChainScript

open Proc

variable {σ : Type} {host : Host σ} {given : Errors} {start f : Frame} {active : List Activation}
  {c : Call} {e : Entry σ} {w w₀ : World σ} {whole : Option Code}

/-- The frame is that of the start, with the active calls on top of it. -/
structure Frame.Shows (start : Frame) (active : List Activation) (f : Frame) : Prop where
  path : f.path.names = start.path.names ++ active.map Activation.name
  depth : f.depth = start.depth + active.countP Activation.isScript
  signal : f.signal = start.signal
  maxDepth : f.maxDepth = start.maxDepth

namespace Frame

theorem shows_self (start : Frame) : start.Shows [] start := ⟨by simp, rfl, rfl, rfl⟩

theorem shows_of_alike {g : Frame} (h : start.Shows active f) (hg : f.Alike g) :
    start.Shows active g := by
  rw [hg]
  exact ⟨h.path, h.depth, h.signal, h.maxDepth⟩

theorem names_push (path : CallPath) (name : String) :
    (path.push name).names = path.names ++ [name] :=
  List.reverse_cons

theorem shows_enter (h : start.Shows active f) (name : String) :
    start.Shows (active ++ [⟨name, false⟩]) (f.enter name) := by
  refine ⟨?_, ?_, h.signal, h.maxDepth⟩
  · simp [enter, names_push, h.path]
  · simp [enter, h.depth]

theorem shows_descend (h : start.Shows active f) (name : String) :
    start.Shows (active ++ [⟨name, true⟩]) (f.descend name) := by
  refine ⟨?_, ?_, h.signal, h.maxDepth⟩
  · simp [descend, names_push, h.path]
  · simp [descend, h.depth, Nat.add_assoc]

end Frame

namespace Call

/-- The frame inside a function shows the call of the function as well. -/
theorem shows_entry (h : start.Shows active c.frame) (he : c.entrance? host = some e) :
    start.Shows (active ++ [e.activation]) e.frame := by
  obtain ⟨callee, frame, args⟩ := c
  cases callee with
  | native n =>
    simp only [entrance?] at he
    split at he
    · cases he
    · obtain rfl := Option.some.inj he
      cases n.arity <;> exact Frame.shows_enter h n.name
  | closure id l scope =>
    simp only [entrance?] at he
    split at he
    · cases he
    · obtain rfl := Option.some.inj he
      exact Frame.shows_descend h l.name
  | _ => cases he

/-- A procedure in a frame that is checked first. -/
theorem confined_checked {body : Proc σ Value} (h : Confined given whole f (.value given) body) :
    Confined given whole f (.value given) (do
      if let some error ← Proc.stop? f then return error
      body) :=
  confined_unless_stop id (fun w hw _ => h w hw) (fun _ => rfl) (fun _ he => he) fun _ => rfl

/-- Inside a function all is confined to the frame inside. -/
theorem confined_entry (hc : c.Traced given) (he : c.entrance? host = some e) :
    Confined given c.code? e.frame (.value given) e.proc ∧ ∀ a ∈ e.surplus, a.Traced given := by
  obtain ⟨callee, frame, args⟩ := c
  obtain ⟨hcallee, hargs, hs⟩ := hc
  cases callee with
  | native n =>
    simp only [entrance?] at he
    split at he
    · cases he
    · obtain rfl := Option.some.inj he
      obtain ⟨op, hop⟩ := hcallee _ .self
      have hinner : (frame.enter n.name).scope.Traced given := hs
      have hbody (vs : List Value) (hvs : ∀ a ∈ vs, a.Traced given) :
          Confined given none (frame.enter n.name) (.value given)
            (nativeBody host n.operation (frame.enter n.name) vs) := by
        rw [hop]
        exact Attempt.confined_result (Builtin.confined_attempt hinner hvs op)
      cases n.arity with
      | exact k =>
        exact ⟨confined_checked (hbody _ fun a ha => hargs a (List.mem_of_mem_take ha)),
          fun a ha => hargs a (List.mem_of_mem_drop ha)⟩
      | atLeast k => exact ⟨confined_checked (hbody args hargs), List.forall_mem_nil _⟩
  | closure id l scope =>
    simp only [entrance?] at he
    split at he
    · cases he
    · obtain rfl := Option.some.inj he
      have hdef : scope.Traced given := fun u hu => hcallee u (.captured hu)
      have hnames : ∀ e ∈ l.params.zip args, e.2.Traced given := fun e he =>
        hargs e.2 (List.of_mem_zip he).2
      have hinner := Scope.traced_addAll (Scope.traced_add hdef hcallee l.name) hnames
      have hbody := Expr.confined_eval (σ := σ) l.body ((frame.descend l.name).withScope _) []
        (Expr.within_self l.body) hinner (List.forall_mem_nil _)
      exact ⟨confined_checked (confined_of_withScope hbody),
        fun a ha => hargs a (List.mem_of_mem_drop ha)⟩
  | _ => cases he

/-- Any other call is confined to its own frame. -/
theorem confined_proc (hc : c.Traced given) (he : c.entrance? host = none) :
    Confined given c.code? c.frame (.value given) (c.proc host) := by
  obtain ⟨callee, frame, args⟩ := c
  obtain ⟨hcallee, hargs, hs⟩ := hc
  cases callee with
  | native n =>
    simp only [entrance?] at he
    split at he
    next hfew =>
      simp only [proc, runNative, if_pos hfew]
      exact confined_curry hcallee hargs _ _
    next => cases he
  | closure id l scope =>
    simp only [entrance?] at he
    split at he
    next hfew =>
      simp only [proc, runClosure, if_pos hfew]
      exact confined_curry hcallee hargs _ _
    next => cases he
  | curried id func saved arity order =>
    have hfunc : func.Traced given := fun u hu => hcallee u (.func hu)
    have hsaved : ∀ a ∈ saved, a.Traced given := fun a ha u hu => hcallee u (.saved ha hu)
    have hall : ∀ a ∈ combine order saved args, a.Traced given := by
      intro a ha
      exact (mem_combine ha).elim (hsaved a) (hargs a)
    simp only [proc, runCurried]
    split
    · exact confined_pure hcallee
    · split
      · exact confined_then confined_fresh fun id _ =>
          confined_pure (Value.traced_curried hfunc hall id arity order)
      · exact confined_invoke hfunc hall hs
  | thunk id code scope =>
    have hinner : scope.Traced given := fun u hu => hcallee u (.pinned hu)
    exact confined_of_withScope
      (Expr.confined_eval code (frame.withScope scope) args (Expr.within_self code) hinner hargs)
  | code id code => exact Expr.confined_eval code frame args (Expr.within_self code) hs hargs
  | _ => exact confined_pure hcallee

end Call

namespace Proc

variable {α : Type} {R : Results α} {next : Value → Proc σ α}

theorem confinedAt_call_inv (h : ConfinedAt given whole f R (call c next) w) :
    f.Alike c.frame ∧ c.Traced given ∧ Relays whole Eq R.stands next w := by
  generalize hp : call c next = p at h
  cases h with
  | call hframe hc hnext _ =>
    obtain ⟨rfl, rfl⟩ := call.inj hp
    exact ⟨hframe, hc, hnext⟩
  | _ => cases hp

theorem fine_of_confinedAt {a : α} (h : ConfinedAt given whole f R (done a) w) : R.fine a := by
  generalize hp : done a = p at h
  cases h with
  | done h =>
    obtain rfl := done.inj hp
    exact h
  | _ => cases hp

variable {k : Value → Proc σ Value}

/-- Given an error, what follows ends with it at once, for as long as no signal fires. -/
def HandsOn (k : Value → Proc σ Value) (w : World σ) : Prop :=
  ∀ e w', e.isError = true → w.Steady w' → Reduces w' (k e) (done e)

/--
Given an error, what follows comes to the last segments of a chain in the code, of which one is to
recover from it.
-/
def AwaitsRecovery (code : Option Code) (k : Value → Proc σ Value) (w : World σ) : Prop :=
  ∃ rest frame last, Expr.EndsChain rest code ∧ (∃ s ∈ rest, s.link = Link.recover) ∧
    ∀ e w', e.isError = true → w.Steady w' →
      ∃ scope, Reduces w' (k e) (Expr.evalSegments rest e scope frame >>= last)

theorem handsOn_or_awaitsRecovery (h : Relays whole Eq Eq k w) :
    HandsOn k w ∨ AwaitsRecovery whole k w := by
  cases h with
  | on h =>
    refine .inl fun e w' he hw => ?_
    obtain ⟨_, rfl, hreduces⟩ := h e e w' he rfl hw
    exact hreduces
  | toRecovery rest frame last hchain hrest h =>
    exact .inr ⟨rest, frame, last, hchain, hrest, fun e w' he hw => h e e w' he rfl hw⟩

end Proc

namespace Suspended

/--
Up to their scopes, what waits goes on in frames that show the calls outside of it, and it relays
errors.
-/
def Sound (given : Errors) (start : Frame) (w₀ : World σ) : List (Suspended σ) → Prop
  | [] => True
  | s :: rest =>
    (∃ f, start.Shows (activeIn rest) f ∧ ∀ w, w₀.Continues given w → Relays s.code Eq Eq s.next w ∧
      ∀ v, v.Traced given → ConfinedAt given s.code f (.value given) (s.next v) w) ∧
    Sound given start w₀ rest

variable {waiting : List (Suspended σ)}

theorem relays_of_sound (h : Sound given start w₀ waiting) (hw : w₀.Continues given w) :
    ∀ s ∈ waiting, Relays s.code Eq Eq s.next w := by
  induction waiting with
  | nil => exact List.forall_mem_nil _
  | cons s rest ih =>
    obtain ⟨⟨f, -, hs⟩, hrest⟩ := h
    exact List.forall_mem_cons.mpr ⟨(hs w hw).1, ih hrest⟩

end Suspended

namespace Moment

variable {m m' : Moment σ}

/-- What is carried out is confined to a frame that shows the active calls, and so is what waits. -/
structure Sound (given : Errors) (start : Frame) (w₀ : World σ) (m : Moment σ) : Prop where
  world : w₀.Continues given m.world
  current : ∃ f, start.Shows m.active f ∧ ConfinedAt given m.code f (.value given) m.current m.world
  waiting : Suspended.Sound given start w₀ m.waiting

/-- Among the errors given is the one that comes about at the moment, if one does. -/
def Allows (given : Errors) (start : Frame) (m : Moment σ) : Prop :=
  ∀ g cause k, m.current = fail g cause >>= k → start.Shows m.active g →
    Relays m.code Eq Eq k m.world → given m.world.next ⟨cause, g.path⟩

theorem sound_step (hm : m.Sound given start w₀) (hnew : m.Allows given start)
    (hstep : m.step host = some m') : m'.Sound given start w₀ := by
  obtain ⟨p, code, waiting, w⟩ := m
  obtain ⟨hw, ⟨f, hf, hp⟩, hwaiting⟩ := hm
  cases hp with
  | done hv =>
    cases waiting with
    | nil => cases hstep
    | cons s rest =>
      obtain rfl := Option.some.inj hstep
      obtain ⟨⟨g, hg, hs⟩, hrest⟩ := hwaiting
      exact ⟨hw, ⟨g, hg, (hs w hw).2 _ hv⟩, hrest⟩
  | @call c next _ hframe hc hnext h =>
    have hcall := Frame.shows_of_alike hf hframe
    have hsuspended : Suspended.Sound given start w₀ (⟨none, code, next⟩ :: waiting) := by
      refine ⟨⟨f, hf, fun w' hw' => ?_⟩, hwaiting⟩
      have hsteady := World.steady_trans (World.steady_symm hw.toSteady) hw'.toSteady
      exact ⟨relays_later hnext hsteady, fun v hv => h v w' hv ⟨hsteady, hw'.traced⟩⟩
    simp only [step] at hstep
    split at hstep
    next hentry =>
      obtain rfl := Option.some.inj hstep
      exact ⟨hw, ⟨c.frame, hcall, Call.confined_proc hc hentry w hw.traced⟩, hsuspended⟩
    next e hentry =>
      obtain rfl := Option.some.inj hstep
      obtain ⟨hinside, hsurplus⟩ := Call.confined_entry hc hentry
      have hentered : start.Shows (Suspended.activeIn waiting ++ [e.activation]) e.frame :=
        Call.shows_entry hcall hentry
      refine ⟨hw, ⟨e.frame, ?_, hinside w hw.traced⟩, ⟨c.frame, hcall, fun w' hw' => ?_⟩,
        hsuspended⟩
      · simpa [active, Suspended.activeIn] using hentered
      · refine ⟨relays_of_eq ?_, fun v hv => confined_applyRest hv hsurplus hc.scope w' hw'.traced⟩
        rintro _ v hv rfl
        exact ⟨v, rfl, applyRest_of_isError hv e.surplus⟩
  | read h =>
    obtain rfl := Option.some.inj hstep
    exact ⟨hw, ⟨f, hf, h⟩, hwaiting⟩
  | write hw' h =>
    obtain rfl := Option.some.inj hstep
    exact ⟨World.continues_trans hw hw', ⟨f, hf, h⟩, hwaiting⟩
  | @fail g cause k _ hframe hk h =>
    obtain rfl := Option.some.inj hstep
    have herror := hnew g cause k rfl (Frame.shows_of_alike hf hframe) hk
    exact ⟨hw, ⟨f, hf, .write (World.continues_next hw.traced _) (h herror)⟩, hwaiting⟩

theorem sound_of_steps (hm : m.Sound given start w₀) (hsteps : Steps host m m')
    (hnew : ∀ m', Steps host m m' → m'.Allows given start) : m'.Sound given start w₀ := by
  induction hsteps with
  | refl => exact hm
  | tail hsteps hstep ih => exact sound_step ih (hnew _ hsteps) hstep

/--
The frame of the moment mirrors its active calls, the errors around are known, and those that wait
hand errors on.
-/
structure Mirrors (host : Host σ) (start : Frame) (known : Errors) (m : Moment σ) : Prop where
  /-- A call is made in a frame that shows the active calls. -/
  call : ∀ c next, m.current = .call c next → start.Shows m.active c.frame
  /--
  A function is entered in a frame that shows its call as well. Its body is carried out at no
  greater depth than allowed, or else not at all.
  -/
  entry : ∀ c next e, m.current = .call c next → c.entrance? host = some e →
    start.Shows (m.active ++ [e.activation]) e.frame ∧
      (e.frame.depth ≤ start.maxDepth ∧ Reduces m.world e.proc e.body ∨
        ∃ cause, e.proc.Runs host m.world (.error m.world.next ⟨cause, e.frame.path⟩)
          { m.world with next := m.world.next + 1 })
  asked : ∀ c next, m.current = .call c next → c.Traced known
  returned : ∀ v, m.current = .done v → v.Traced known
  remembered : m.world.Traced known
  caller : ∀ c next, m.current = .call c next →
    HandsOn next m.world ∨ AwaitsRecovery m.code next m.world
  waiting : ∀ s ∈ m.waiting, HandsOn s.next m.world ∨ AwaitsRecovery s.code s.next m.world

/-- A function is entered at a depth that is allowed, or ends with an error of the frame inside. -/
theorem entry_reduces_or_stops (e : Entry σ) (w : World σ) :
    e.frame.depth ≤ e.frame.maxDepth ∧ Reduces w e.proc e.body ∨
      ∃ cause, e.proc.Runs host w (.error w.next ⟨cause, e.frame.path⟩)
        { w with next := w.next + 1 } := by
  cases hstop : w.stop? e.frame with
  | none =>
    refine .inl ⟨?_, reduces_seq (reduces_stop? hstop) .refl⟩
    unfold World.stop? at hstop
    split at hstop
    · cases hstop
    next hdepth => exact Nat.le_of_not_lt hdepth
  | some cause => exact .inr ⟨cause, runs_bind (runs_stop?_some hstop) runs_done⟩

theorem mirrors_of_sound (hm : m.Sound given start w₀) : m.Mirrors host start given := by
  obtain ⟨hw, ⟨f, hf, hp⟩, hwaiting⟩ := hm
  have hcall (c : Call) (next : Value → Proc σ Value) (h : m.current = .call c next) :
      start.Shows m.active c.frame ∧ c.Traced given ∧ Relays m.code Eq Eq next m.world := by
    rw [h] at hp
    obtain ⟨hframe, hc, hnext⟩ := confinedAt_call_inv hp
    exact ⟨Frame.shows_of_alike hf hframe, hc, hnext⟩
  refine ⟨fun c next h => (hcall c next h).1, ?_, fun c next h => (hcall c next h).2.1, ?_,
    hw.traced, fun c next h => handsOn_or_awaitsRecovery (hcall c next h).2.2, ?_⟩
  · intro c next e h he
    have hentered := Call.shows_entry (hcall c next h).1 he
    refine ⟨hentered, ?_⟩
    rw [← hentered.maxDepth]
    exact entry_reduces_or_stops e m.world
  · intro v h
    rw [h] at hp
    exact fine_of_confinedAt hp
  · intro s hs
    exact handsOn_or_awaitsRecovery (Suspended.relays_of_sound hwaiting hw s hs)

theorem steps_of_reduces {p q : Proc σ Value} (h : Reduces w p q) (code : Option Code)
    (waiting : List (Suspended σ)) : Steps host ⟨p, code, waiting, w⟩ ⟨q, code, waiting, w⟩ := by
  induction h with
  | refl => exact .refl
  | read _ ih => exact .head rfl ih

/-- An error that all those that wait hand on is the result of the evaluation. -/
theorem steps_of_handsOn {e : Value} {waiting : List (Suspended σ)} (he : e.isError = true)
    (h : ∀ s ∈ waiting, HandsOn s.next w) (code : Option Code) :
    ∃ last, Steps host ⟨done e, code, waiting, w⟩ ⟨done e, last, [], w⟩ := by
  induction waiting generalizing code with
  | nil => exact ⟨code, .refl⟩
  | cons s rest ih =>
    rw [List.forall_mem_cons] at h
    have hreturn : Steps host ⟨s.next e, s.code, rest, w⟩ ⟨done e, s.code, rest, w⟩ :=
      steps_of_reduces (h.1 e w he (World.steady_refl w)) s.code rest
    obtain ⟨last, hlast⟩ := ih h.2 s.code
    exact ⟨last, .head rfl (hreturn.trans hlast)⟩

end Moment

/-- All native functions inside the value belong to the prelude. -/
def Value.UsesPrelude (v : Value) : Prop :=
  ∀ n, (native n).Inside v → ∃ op, n.operation = .builtin op

theorem Value.traced_of_usesPrelude {v : Value} (h : v.UsesPrelude)
    (herror : ∀ id failure, (error id failure).Inside v → given id failure) : v.Traced given := by
  intro u hu
  cases u with
  | native n => exact h n hu
  | error id failure => exact herror id failure hu
  | _ => trivial

/-- So do the native functions that the memos remember. -/
def World.UsesPrelude (w : World σ) : Prop :=
  ∀ mark keys v, w.stored? mark keys = some v → v.UsesPrelude

namespace Program

variable {program : Program} {frame : Frame} {memos : Memos}

/-- The code of a fragment. The functions of a script have code of their own. -/
def code? : Program → Option Code
  | entry _ _ _ => none
  | fragment code => some code

/-- The moment at which the evaluation of the program begins. -/
def firstMoment (program : Program) (frame : Frame) (w : World σ) : Moment σ :=
  ⟨program.start frame, program.code?, [], w⟩

/--
The errors of an evaluation: those in its arguments, those that memos remember from before, and
those that come about on the way. These have the path of a frame that shows the calls active just
then, and what follows hands them on or awaits recovery.
-/
inductive ErrorOf (host : Host σ) (frame : Frame) (program : Program) (w : World σ) :
    Nat → Failure → Prop
  | argument {a : Value} {id : Nat} {failure : Failure} (ha : a ∈ program.args)
      (h : (Value.error id failure).Inside a) : ErrorOf host frame program w id failure
  | remembered {mark : Nat} {keys : List Memo.Key} {v : Value} {id : Nat} {failure : Failure}
      (hv : w.stored? mark keys = some v) (h : (Value.error id failure).Inside v) :
      ErrorOf host frame program w id failure
  | created {m : Moment σ} {g : Frame} {cause : Cause} {k : Value → Proc σ Value}
      (hm : Moment.Steps host (program.firstMoment frame w) m)
      (hcurrent : m.current = fail g cause >>= k) (hframe : frame.Shows m.active g)
      (hk : HandsOn k m.world ∨ AwaitsRecovery m.code k m.world) :
      ErrorOf host frame program w m.world.next ⟨cause, g.path⟩

theorem confined_start (hprogram : program.Loaded memos) (hframe : frame.OverPrelude)
    (hargs : ∀ a ∈ program.args, a.Traced given) :
    Confined given program.code? frame (.value given) (program.start frame : Proc σ Value) := by
  have hs : frame.scope.Traced given := Frame.traced_of_overPrelude hframe
  cases program with
  | entry m name args =>
    have hm : m.Traced given := Module.traced_of_loaded hprogram
    have hspace : (m.space frame.scope).Traced given := Module.traced_space hm hs
    have hinner : (m.space frame.scope).scope.Traced given := Scope.traced_moduleLevel hm hs
    simp only [start, Module.call]
    split
    · exact confined_fail _
    next b hb =>
      exact confined_of_withScope
        (confined_realized (Namespace.traced_resolve? hspace hb) hargs hinner)
  | fragment code =>
    exact Expr.confined_eval code frame [] (Expr.within_self code) hs (List.forall_mem_nil _)

/--
The evaluation of a program goes through moments at which the current frame shows the active calls
and all errors around are errors of the evaluation; its last moment has its result. An error is the
result, unless a chain that waits for it is to recover from it.
-/
theorem frames_mirror_calls {registry : Registry} {next next' : Nat} (host : Host σ)
    (hreg : registry.Loaded next) (hprogram : program.OfSource registry next next')
    (hframe : frame.OverPrelude) (hargs : ∀ a ∈ program.args, a.UsesPrelude)
    (hw : w.UsesPrelude) :
    (∀ m, Moment.Steps host (program.firstMoment frame w) m →
      m.Mirrors host frame (program.ErrorOf host frame w)) ∧
    (∀ v w', Moment.Steps host (program.firstMoment frame w) ⟨done v, program.code?, [], w'⟩ ↔
      (program.start frame).Runs host w v w') ∧
    ∀ e code waiting w', e.isError = true →
      Moment.Steps host (program.firstMoment frame w) ⟨done e, code, waiting, w'⟩ →
      (∀ s ∈ waiting, ¬ AwaitsRecovery s.code s.next w') →
      (program.start frame).Runs host w e w' := by
  obtain ⟨memos, -, hloaded⟩ := loaded_of_ofSource hreg hprogram
  have hargs' : ∀ a ∈ program.args, a.Traced (program.ErrorOf host frame w) := fun a ha =>
    Value.traced_of_usesPrelude (hargs a ha) fun _ _ h => .argument ha h
  have hw' : w.Traced (program.ErrorOf host frame w) := fun mark keys v hv =>
    Value.traced_of_usesPrelude (hw mark keys v hv) fun _ _ h => .remembered hv h
  have hstart : (program.firstMoment frame w).Sound (program.ErrorOf host frame w) frame w :=
    ⟨World.continues_refl hw',
      ⟨frame, frame.shows_self, confined_start hloaded hframe hargs' w hw'⟩, trivial⟩
  have hmirrors (m : Moment σ) (hm : Moment.Steps host (program.firstMoment frame w) m) :
      m.Mirrors host frame (program.ErrorOf host frame w) := by
    refine Moment.mirrors_of_sound (Moment.sound_of_steps hstart hm fun m' hm' => ?_)
    intro g cause k hcurrent hg hk
    exact .created hm' hcurrent hg (handsOn_or_awaitsRecovery hk)
  refine ⟨hmirrors, fun v w' => Moment.steps_iff_runs, fun e code waiting w' he hm hwaiting => ?_⟩
  have hon : ∀ s ∈ waiting, HandsOn s.next w' := fun s hs =>
    ((hmirrors _ hm).waiting s hs).resolve_right (hwaiting s hs)
  obtain ⟨last, hlast⟩ : ∃ last, Moment.Steps host _ ⟨done e, last, [], w'⟩ :=
    Moment.steps_of_handsOn he hon code
  exact Moment.runs_of_steps (hm.trans hlast)

end Program

namespace Blame

/-- An argument that fails is written in `main` and goes through `f` to `h`, where it is forced. -/
def source : String := "h z => z; f x => [h x]; main => (f bad; 'a') -> h;"

def module : Module :=
  ⟨0, [], [("h", .lambda ⟨"h", ["z"], .var "z"⟩),
    ("f", .lambda ⟨"f", ["x"], .array [.apply (.var "h") [.var "x"]]⟩),
    ("main", .lambda ⟨"main", [], .chain
      [⟨.compound [.apply (.var "f") [.var "bad"], .string "a"], .plain, none⟩,
        ⟨.var "h", .plain, none⟩]⟩)]⟩

def loaded : Except LoadError Module × Nat :=
  (Script.load (Registry.importer []) source : StateM Nat _).run 0

def isModule : Except LoadError Module → Bool
  | .ok ⟨0, [], [("h", .lambda ⟨"h", ["z"], .var "z"⟩),
      ("f", .lambda ⟨"f", ["x"], .array [.apply (.var "h") [.var "x"]]⟩),
      ("main", .lambda ⟨"main", [], .chain
        [⟨.compound [.apply (.var "f") [.var "bad"], .string "a"], .plain, none⟩,
          ⟨.var "h", .plain, none⟩]⟩)]⟩ => true
  | _ => false

theorem eq_of_isModule {r : Except LoadError Module} (h : isModule r = true) : r = .ok module := by
  unfold isModule at h
  split at h
  · rfl
  · cases h

theorem loaded_eq : loaded = (.ok module, loaded.2) := by
  have h : isModule loaded.1 = true := by decide +kernel
  rw [← eq_of_isModule h]

theorem ofSource_main : Program.OfSource [] 0 (.entry module "main" []) loaded.2 :=
  .script "main" [] loaded_eq

def failure : Failure := ⟨.unknownIdentifier "bad", ⟨["h", "f", "main"]⟩⟩

theorem runs_main : ∃ id w, (Program.start Program.firstFrame (.entry module "main" [])).Runs
    Host.none Program.firstWorld (.error id failure) w :=
  ⟨_, _, 7, rfl⟩

theorem stored?_firstWorld (mark : Nat) (keys : List Memo.Key) :
    Program.firstWorld.stored? mark keys = none := by
  simp [World.stored?, World.cache, Program.firstWorld, World.initial, Table.get?]

/-- The error names the calls that are active where the argument is forced, and reaches the host. -/
theorem frames_mirror_calls_forced :
    ∃ id w, (Program.start Program.firstFrame (.entry module "main" [])).Runs Host.none
        Program.firstWorld (.error id failure) w ∧
      ∃ m, Moment.Steps Host.none
          (Program.firstMoment (.entry module "main" []) Program.firstFrame Program.firstWorld) m ∧
        m.active.map Activation.name = ["main", "f", "h"] ∧ m.world.next = id := by
  have hworld : Program.firstWorld.UsesPrelude := fun mark keys v hv => by
    simp [stored?_firstWorld] at hv
  obtain ⟨hmirrors, hends, -⟩ := Program.frames_mirror_calls Host.none (Registry.loaded_nil 0)
    ofSource_main Program.overPrelude_firstFrame (List.forall_mem_nil _) hworld
  obtain ⟨id, w, hrun⟩ := runs_main
  refine ⟨id, w, hrun, ?_⟩
  have herror := (hmirrors _ ((hends _ _).mpr hrun)).returned _ rfl _ .self
  generalize hfailure : failure = failure' at herror
  cases herror with
  | argument ha _ => cases ha
  | remembered hv _ => simp [stored?_firstWorld] at hv
  | @created m g cause _ hm _ hframe _ =>
    have hpath : ⟨["h", "f", "main"]⟩ = g.path := congrArg Failure.path hfailure
    have hnames := hframe.path
    rw [← hpath] at hnames
    exact ⟨m, hm, hnames.symm, rfl⟩

end Blame

end ChainScript
