import ChainScript.Proofs.Eval.Call
import ChainScript.Proofs.Load
import ChainScript.Run

/-!
Programs over the prelude: a function of a script, or a fragment. Their evaluation keeps the
contract of every policy that admits the prelude and their memos.
-/
namespace ChainScript

open Proc

variable {σ : Type} {p : Policy σ} {given : Memos} {w : World σ} {frame : Frame}

/-- A way to start an evaluation: a call of a member of a module, or a fragment. -/
inductive Program where
  | entry (module : Module) (name : String) (args : List Value)
  | fragment (code : Code)

namespace Program

def start (frame : Frame) : Program → Proc σ Value
  | entry m name args => m.call frame name args
  | fragment code => code.eval frame []

/--
The program is that of a source text, loaded when `next` is the first free number and leaving
`next'` as the first free one. A script imports from the registry.
-/
inductive OfSource (registry : Registry) (next : Nat) : Program → Nat → Prop
  | script {source : String} {m : Module} {next' : Nat} (name : String) (args : List Value)
      (h : (Script.load registry.importer source : StateM Nat _).run next = (.ok m, next')) :
      OfSource registry next (entry m name args) next'
  | fragment {source : String} {e : Source} (h : Expr.ofSource source = .ok e) :
      OfSource registry next (fragment (e.allot next).1) (e.allot next).2

/-- The memos of the program are among those given, and a script declares functions only. -/
def Loaded (given : Memos) : Program → Prop
  | entry m _ _ => m.Loaded given
  | fragment code => code.MemosIn given

/-- The arguments that the program starts with. -/
def args : Program → List Value
  | entry _ _ args => args
  | fragment _ => []

/-- The memos in the code of the program. -/
def HasMemo (mark : Nat) (params : List String) (body : Code) : Program → Prop
  | entry m _ _ => m.HasMemo mark params body
  | fragment code => code.memos mark params body

theorem given_of_hasMemo {program : Program} {mark : Nat} {params : List String} {body : Code}
    (h : program.HasMemo mark params body) (hp : program.Loaded given) :
    given mark params body := by
  cases program with
  | entry m name args => exact Module.given_of_hasMemo h hp
  | fragment code => exact hp mark params body h

/-- A program of a source text has memos with numbers of their own. -/
theorem loaded_of_ofSource {registry : Registry} {program : Program} {next next' : Nat}
    (hreg : registry.Loaded next) (h : program.OfSource registry next next') :
    ∃ given : Memos, given.Numbered 0 next' ∧ program.Loaded given := by
  obtain ⟨given, hgiven, hmodules⟩ := hreg
  cases h with
  | script name args h =>
    obtain ⟨added, hadded, hm⟩ := Script.loaded_of_load hmodules h
    exact ⟨_, Memos.numbered_or hgiven hadded, hm⟩
  | @fragment source e h =>
    exact ⟨_, Memos.numbered_or hgiven (Expr.numbered_allot e next), fun _ _ _ hm => .inr hm⟩

end Program

/-- The policy admits the natives of the prelude. -/
def Policy.HasPrelude (p : Policy σ) : Prop := ∀ op id, p.native (Builtin.native op id)

/-- The frame sees the prelude, with natives that may have any numbers, and nothing else. -/
def Frame.OverPrelude (frame : Frame) : Prop :=
  ∃ base, frame.scope = Scope.root.addAll (Builtin.bindings base)

/--
The frame and the world for a first program, after number 0 has gone to it and the numbers up to 18
to the prelude and to a signal that never fires.
-/
def Program.firstFrame : Frame := .ofScope (Scope.root.addAll (Builtin.bindings 1)) ⟨18, none⟩

def Program.firstWorld : World Unit := { World.initial 0 () with next := 19 }

theorem Program.overPrelude_firstFrame : firstFrame.OverPrelude := ⟨1, rfl⟩

theorem Frame.obeys_of_overPrelude (hp : p.HasPrelude) (h : frame.OverPrelude) :
    frame.scope.Obeys p := by
  obtain ⟨base, h⟩ := h
  rw [h]
  refine Scope.obeys_addAll .root ?_
  intro e he
  rcases List.mem_append.mp he with he | he
  · obtain ⟨i, op, rfl⟩ := List.mem_mapIdx.mp he
    exact .native (hp _ _)
  · simp only [List.mem_cons, List.not_mem_nil, or_false] at he
    rcases he with rfl | rfl | rfl <;> exact .boolean _

theorem Module.obeys_of_loaded {m : Module} (hm : m.Loaded given)
    (hgiven : ∀ mark params body, given mark params body → p.memo mark params body) :
    m.Obeys p := by
  induction hm with
  | mk _ hd ih =>
    refine .mk ih ?_
    rintro ⟨x, d⟩ he
    obtain ⟨l, rfl, hmemos⟩ := hd _ he
    exact .lambda fun mark params body hm => hgiven _ _ _ (hmemos mark params body hm)

theorem Module.ensures_call {m : Module} {args : List Value} (hm : m.Obeys p)
    (hs : frame.scope.Obeys p) (hargs : ∀ a ∈ args, a.Obeys p) (hw : w.Obeys p) (name : String) :
    Ensures (p.contract.under fun c => ∃ s, c.frame = frame.withScope s) p.Yields
      (m.call frame name args) w := by
  have hspace : (m.space frame.scope).Obeys p := .mk hm (.module hm hs)
  unfold Module.call
  dsimp only
  split
  · exact ensures_yields_fail hw _
  next b hb =>
    exact Expr.ensures_realized hw (Namespace.obeys_resolve? hspace hb) hargs fun _ _ => ⟨_, rfl⟩

/-- The evaluation of a program keeps the contract, and its own calls are made in its frame. -/
theorem Program.ensures_start {program : Program} (hprogram : program.Loaded given)
    (hgiven : ∀ mark params body, given mark params body → p.memo mark params body)
    (hp : p.HasPrelude) (hframe : frame.OverPrelude) (hargs : ∀ a ∈ program.args, a.Obeys p)
    (hw : w.Obeys p) :
    Ensures (p.contract.under fun c => ∃ s, c.frame = frame.withScope s) p.Yields
      (program.start frame) w := by
  have hs := Frame.obeys_of_overPrelude hp hframe
  cases program with
  | entry m name args =>
    exact Module.ensures_call (Module.obeys_of_loaded hprogram hgiven) hs hargs hw name
  | fragment code =>
    have hcode : code.CodeIn p fun _ _ _ => True :=
      fun mark params body hm => ⟨trivial, hgiven _ _ _ (hprogram mark params body hm)⟩
    refine Expr.ensures_eval code frame [] w hcode hw hs hargs ?_
    intro c hc
    cases hc <;> exact ⟨_, rfl⟩

/-- Every call made while a program is evaluated obeys the policy, and so does its world. -/
theorem Program.obeys_of_reaches {program : Program} {host : Host σ} {c : Call} {w₀ : World σ}
    (hprogram : program.Loaded given) (hknown : ∀ c w v w', p.known c w v w')
    (hgiven : ∀ mark params body, given mark params body → p.memo mark params body)
    (hp : p.HasPrelude) (hframe : frame.OverPrelude) (hargs : ∀ a ∈ program.args, a.Obeys p)
    (hw : w₀.Obeys p) (hreach : Reaches host (program.start frame) w₀ c w) :
    c.Obeys p ∧ w.Obeys p := by
  obtain ⟨cs, hstack⟩ := hreach
  exact Call.obeys_of_stack hknown (ensures_start hprogram hgiven hp hframe hargs hw) hstack

end ChainScript
