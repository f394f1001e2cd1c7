import ChainScript.Proofs.Builtin.Equal
import ChainScript.Proofs.Eval.Blame
import ChainScript.Proofs.Eval.Items

/-!
Switches. Cases are tested in order up to the first that accepts the subject. A test that turns it
down leaves nothing behind but numbers that have been taken, so that the case might as well not be
there; and a plain value on the left side is tested as an application of `==` to it would be.
-/
namespace ChainScript

open Proc

variable {σ α : Type} {host : Host σ} {frame : Frame} {args : List Value} {u v t x : Value}
  {w w' w₁ : World σ} {lhs rhs e : Code} {rest before : List (Code × Code)} {j k : Nat}

/-- The world after `k` more numbers have been taken. -/
def World.skip (w : World σ) (k : Nat) : World σ := { w with next := w.next + k }

/-- The numbers that have been taken mean nothing, and moving them up is like taking them later. -/
theorem World.rename_skip (hw : w.Numbered) (k : Nat) :
    (w.skip k).rename (.shift w.next 1 id) = w.skip (k + 1) := by
  have hcaches := hw w.next (Nat.le_refl _)
  have hnext : ¬ w.next + k < w.next := by omega
  simp only [rename, Renaming.shift] at hcaches
  simp only [rename, skip, Renaming.shift, hcaches, if_neg hnext, id_eq, Nat.add_assoc]

/-- The result `u` and the world `w'` are `v` and `w` with the numbers from `n` on moved by `k`. -/
def Raised (n k : Nat) (v : Value) (w : World σ) (u : Value) (w' : World σ) : Prop :=
  u = (Value.rename (bump n))^[k] v ∧ w' = (World.rename (.shift n 1 id))^[k] w

theorem World.skip_add (w : World σ) (j k : Nat) : (w.skip j).skip k = w.skip (j + k) := by
  simp only [skip, Nat.add_assoc]

namespace Proc

variable {ρ : Renaming σ} {g : α → α} {p q : Proc σ α} {a b : α}

/-- In a renamed world the mirror image does what the procedure does, renamed. -/
theorem runs_rename_iff (hhost : host.Respects ρ) (h : Mirrors ρ g p q) (hw : ρ.cut ≤ w.next) :
    Runs host q (w.rename ρ) b w₁ ↔ ∃ a w', Runs host p w a w' ∧ b = g a ∧ w₁ = w'.rename ρ := by
  have hexec (fuel : Nat) := (exec_of_mirrors (Call.carries_answer hhost fuel) h hw).1
  constructor
  · rintro ⟨fuel, hrun⟩
    rw [hexec] at hrun
    obtain ⟨⟨a, w'⟩, ha, hr⟩ := Option.map_eq_some_iff.mp hrun
    obtain ⟨rfl, rfl⟩ := Prod.mk.inj hr
    exact ⟨a, w', ⟨fuel, ha⟩, rfl, rfl⟩
  · rintro ⟨a, w', ⟨fuel, hrun⟩, rfl, rfl⟩
    exact ⟨fuel, by rw [hexec, hrun]; rfl⟩

/-- A procedure that is its own mirror image does the same after numbers have been skipped. -/
theorem runs_skip_iff (hhost : host.Respects (.shift w.next 1 id))
    (h : Mirrors (.shift w.next 1 id) g p p) (hw : w.Numbered) (k : Nat) :
    Runs host p (w.skip k) a w' ↔
      ∃ b w₁, Runs host p w b w₁ ∧ a = g^[k] b ∧
        w' = (World.rename (.shift w.next 1 id))^[k] w₁ := by
  induction k generalizing a w' with
  | zero =>
    constructor
    · exact fun hrun => ⟨a, w', hrun, rfl, rfl⟩
    · rintro ⟨b, w₁, hrun, rfl, rfl⟩
      exact hrun
  | succ k ih =>
    have hcut : w.next ≤ (w.skip k).next := Nat.le_add_right _ _
    rw [← World.rename_skip hw k, runs_rename_iff hhost h hcut]
    constructor
    · rintro ⟨b, w₁, hrun, rfl, rfl⟩
      obtain ⟨c, w₂, hfirst, rfl, rfl⟩ := ih.mp hrun
      exact ⟨c, w₂, hfirst, (Function.iterate_succ_apply' ..).symm,
        (Function.iterate_succ_apply' ..).symm⟩
    · rintro ⟨c, w₂, hfirst, rfl, rfl⟩
      exact ⟨_, _, ih.mpr ⟨c, w₂, hfirst, rfl, rfl⟩, Function.iterate_succ_apply' ..,
        Function.iterate_succ_apply' ..⟩

end Proc

namespace Expr

/-- The test of a case: its left side, called with the subject. -/
def test (lhs : Code) (subject : Value) (frame : Frame) : Proc σ Value := do
  withSubject (← eval lhs frame []) subject frame

/-- What comes after a test: the right side of the case, or else the other cases. -/
def settle (accepted : Bool) (rhs : Code) (rest : List (Code × Code)) (subject : Value)
    (frame : Frame) : Proc σ Value :=
  if accepted then (do withSubject (← eval rhs frame []) subject frame)
  else evalCases rest subject frame

/-- What a switch goes on with after a test, up to the arguments that are left over. -/
def proceed (accepted : Bool) (rhs : Code) (rest : List (Code × Code)) (subject : Value)
    (frame : Frame) (args : List Value) : Proc σ Value := do
  applyRest (← settle accepted rhs rest subject frame) frame args

/-- The cases, and then the arguments that are left over. -/
def tryCases (cases : List (Code × Code)) (subject : Value) (frame : Frame) (args : List Value) :
    Proc σ Value := do
  applyRest (← evalCases cases subject frame) frame args

/-- The test ends with `t`, which is no error, and has no effect but that it takes `k` numbers. -/
structure Tests (host : Host σ) (frame : Frame) (subject : Value) (lhs : Code) (w : World σ)
    (t : Value) (k : Nat) : Prop where
  runs : (test lhs subject frame).Runs host w t (w.skip k)
  isError : t.isError = false

/-- All the cases turn the subject down one after the other, and have taken `k` numbers by then. -/
inductive Rejects (host : Host σ) (frame : Frame) (subject : Value) :
    List (Code × Code) → World σ → Nat → Prop
  | nil {w : World σ} : Rejects host frame subject [] w 0
  | cons {lhs rhs : Code} {rest : List (Code × Code)} {w : World σ} {t : Value} {j k : Nat}
      (htest : Tests host frame subject lhs w t j) (ht : accepts t subject = false)
      (hrest : Rejects host frame subject rest (w.skip j) k) :
      Rejects host frame subject ((lhs, rhs) :: rest) w (j + k)

theorem evalCases_cons (lhs rhs : Code) (rest : List (Code × Code)) (v : Value) (frame : Frame) :
    evalCases (σ := σ) ((lhs, rhs) :: rest) v frame = (do
      if let some e ← stop? frame then return e
      let t ← test lhs v frame
      if t.isError then return t
      settle (accepts t v) rhs rest v frame) := by
  rw [evalCases]
  refine congrArg _ (funext fun stopped => ?_)
  cases stopped with
  | some e => rfl
  | none => exact (bind_bind _ _ _).symm

/-- A case whose test has ended hands over to its right side or to the cases after it. -/
theorem runs_tryCases_cons (hstop : w.stop? frame = none)
    (htest : (test lhs v frame).Runs host w t w₁) (ht : t.isError = false) :
    (tryCases ((lhs, rhs) :: rest) v frame args).Runs host w u w' ↔
      (proceed (accepts t v) rhs rest v frame args).Runs host w₁ u w' := by
  unfold tryCases proceed
  rw [evalCases_cons, bind_bind, runs_bind_iff (runs_stop? hstop), bind_bind, runs_bind_iff htest,
    ht]
  exact Iff.rfl

/-- Cases that turn the subject down are passed over. -/
theorem runs_tryCases_append (hstop : w.stop? frame = none) (h : Rejects host frame v before w k) :
    (tryCases (before ++ rest) v frame args).Runs host w u w' ↔
      (tryCases rest v frame args).Runs host (w.skip k) u w' := by
  induction h with
  | nil => exact Iff.rfl
  | @cons _ _ _ _ _ j k htest ht _ ih =>
    rw [List.cons_append, runs_tryCases_cons hstop htest.runs htest.isError, ht, ← World.skip_add]
    exact ih hstop

/-- A switch tries its cases on what its subject yields. -/
theorem runs_switch_iff {subject : Code} {cases : List (Code × Code)}
    (hsubject : (subject.eval frame []).Runs host w v w₁) (hv : v.isError = false) :
    ((switch subject cases).eval frame args).Runs host w u w' ↔
      (tryCases cases v frame args).Runs host w₁ u w' := by
  rw [eval, runs_bind_iff hsubject, hv]
  exact Iff.rfl

/-- A frame, a subject and arguments for cases to be tried with. -/
structure Place (frame : Frame) (subject : Value) (args : List Value) (w : World σ) : Prop where
  ready : frame.Ready w
  sealedSubject : subject.Obeys (Policy.sealed σ)
  subject : subject.Below w.next
  sealedArgs : ∀ a ∈ args, a.Obeys (Policy.sealed σ)
  args : ∀ a ∈ args, a.Below w.next

end Expr

theorem Frame.ready_skip (h : frame.Ready w) (k : Nat) : frame.Ready (w.skip k) := by
  have hle : w.next ≤ (w.skip k).next := Nat.le_add_right _ _
  exact ⟨h.scope, World.obeys_of_caches h.world rfl, below_mono h.below hle,
    World.numbered_of_caches h.numbered rfl hle⟩

theorem Frame.rename_of_ready (h : frame.Ready w) : frame.rename (bump w.next) = frame := by
  rw [rename, h.below _ (Nat.le_refl _)]
  rfl

namespace Expr

theorem place_skip (h : Place frame v args w) (k : Nat) : Place frame v args (w.skip k) := by
  have hle : w.next ≤ (w.skip k).next := Nat.le_add_right _ _
  exact ⟨Frame.ready_skip h.ready k, h.sealedSubject, below_mono h.subject hle, h.sealedArgs,
    fun a ha => below_mono (h.args a ha) hle⟩

theorem mirrors_proceed {ρ : Renaming σ} (accepted : Bool) (rhs : Code) (rest : List (Code × Code))
    (v : Value) (frame : Frame) (args : List Value) :
    Mirrors ρ (Value.rename ρ.number) (proceed accepted rhs rest v frame args)
      (proceed accepted rhs rest (v.rename ρ.number) (frame.rename ρ.number)
        (args.map (.rename ρ.number))) := by
  refine mirrors_bind ?_ fun r => mirrors_applyRest r frame args
  cases accepted with
  | true => exact mirrors_bind (mirrors_eval rhs frame []) fun s => mirrors_withSubject s v frame
  | false => exact mirrors_evalCases rest v frame

section Proceed

variable (h : Place frame v args w) (accepted : Bool) (rhs : Code) (rest : List (Code × Code))

include h

theorem ensures_proceed :
    Ensures ((Policy.sealed σ).contract.under fun _ => True) (Policy.sealed σ).Yields
      (proceed accepted rhs rest v frame args) w := by
  have hsettle : Ensures ((Policy.sealed σ).contract.under fun _ => True) (Policy.sealed σ).Yields
      (settle accepted rhs rest v frame) w := by
    cases accepted with
    | true =>
      refine ensures_seq (ensures_sealed rhs h.ready.scope (List.forall_mem_nil _) h.ready.world) ?_
      exact fun side w' hside => ensures_withSubject hside h.sealedSubject trivial
    | false =>
      have hcases : ∀ c ∈ rest, c.1.CodeIn (Policy.sealed σ) (fun _ _ _ => True) ∧
          c.2.CodeIn (Policy.sealed σ) fun _ _ _ => True :=
        fun _ _ => ⟨fun _ _ _ _ => ⟨trivial, trivial⟩, fun _ _ _ _ => ⟨trivial, trivial⟩⟩
      exact ensures_evalCases rest v frame w hcases ⟨h.ready.world, h.sealedSubject, trivial⟩
        h.ready.scope fun _ _ => trivial
  exact ensures_seq hsettle fun r w' hr => ensures_applyRest hr h.sealedArgs fun _ => trivial

theorem mirrors_proceed_self :
    Mirrors (.shift w.next 1 id : Renaming σ) (Value.rename (bump w.next))
      (proceed accepted rhs rest v frame args) (proceed accepted rhs rest v frame args) := by
  let ρ : Renaming σ := .shift w.next 1 id
  have hv : v.rename ρ.number = v := h.subject _ (Nat.le_refl _)
  have hframe : frame.rename ρ.number = frame := Frame.rename_of_ready h.ready
  have hargs : args.map (.rename ρ.number) = args :=
    Value.map_rename_of_below h.args (Nat.le_refl _)
  have hmirrors := mirrors_proceed (ρ := ρ) accepted rhs rest v frame args
  rwa [hv, hframe, hargs] at hmirrors

/-- Numbers taken by a test that is not needed make no other difference to what comes after it. -/
theorem runs_proceed_skip_iff (k : Nat) :
    (proceed accepted rhs rest v frame args).Runs host (w.skip k) u w' ↔
      ∃ u₀ w₀, (proceed accepted rhs rest v frame args).Runs host w u₀ w₀ ∧
        Raised w.next k u₀ w₀ u w' := by
  -- The host is not asked, so its functions may as well do nothing.
  have hsilent {w₂ : World σ} (hplace : Place frame v args w₂) (u : Value) (w' : World σ) :
      (proceed accepted rhs rest v frame args).Runs host w₂ u w' ↔
        (proceed accepted rhs rest v frame args).Runs Host.silent w₂ u w' :=
    runs_iff_of_ensures (fun _ _ _ _ => trivial) (ensures_proceed hplace accepted rhs rest)
  simp only [hsilent (place_skip h k), hsilent h]
  exact runs_skip_iff (Host.respects_silent _) (mirrors_proceed_self h accepted rhs rest)
    h.ready.numbered k

end Proceed

/-- A plain value on the left side is what the test ends with. -/
theorem tests_of_isPlain (heval : (e.eval frame []).Runs host w x (w.skip k))
    (hplain : x.isPlain = true) (hx : x.isError = false) : Tests host frame v e w x k := by
  refine ⟨runs_bind heval ?_, hx⟩
  rw [withSubject, hx]
  exact runs_invoke (Call.answers_of_isPlain hplain)

theorem accepts_of_isPlain (hplain : x.isPlain = true) (hboolean : ∀ b, x ≠ .boolean b)
    (v : Value) : accepts x v = x.equals v := by
  cases x with
  | boolean b => exact absurd rfl (hboolean b)
  | _ =>
    simp only [accepts]
    rw [hplain, Bool.true_and]

/-- An expression without effects yields the same, up to blame, one number later in a native. -/
theorem runs_eval_enter (hready : frame.Ready w)
    (heval : (e.eval frame []).Runs host w x (w.skip k)) (name : String) :
    ∃ x', (e.eval (frame.enter name) []).Runs host (w.skip 1) x' (w.skip (k + 1)) ∧
      x'.isError = x.isError ∧ ∀ v : Value, v.Below w.next → x'.equals v = x.equals v := by
  let ρ : Renaming σ := .shift w.next 1 id
  obtain ⟨x₁, hrun, hlike⟩ := runs_of_path hready heval rfl (frame.path.push name)
  have hinner : Frame.Ready (frame.enter name) w :=
    ⟨hready.scope, hready.world, hready.below, hready.numbered⟩
  have hmirrors := mirrors_eval (ρ := ρ) e (frame.enter name) []
  have hframe : (frame.enter name).rename ρ.number = frame.enter name :=
    Frame.rename_of_ready hinner
  rw [hframe] at hmirrors
  have hskip : (e.eval (frame.enter name) []).Runs Host.silent (w.skip 1) (x₁.rename ρ.number)
      ((w.skip k).rename ρ) :=
    (runs_skip_iff (Host.respects_silent _) hmirrors hready.numbered 1).mpr
      ⟨x₁, w.skip k, (runs_eval_iff_silent hinner).mp hrun, rfl, rfl⟩
  rw [World.rename_skip hready.numbered k] at hskip
  refine ⟨x₁.rename ρ.number, (runs_eval_iff_silent (Frame.ready_skip hinner 1)).mpr hskip, ?_, ?_⟩
  · rw [Value.isError_rename, Value.isError_of_like hlike]
  · intro v hv
    have hsame : v.rename ρ.number = v := hv _ (Nat.le_refl _)
    have hequals := Value.equals_rename ρ.injective x₁ v
    rw [hsame] at hequals
    exact hequals.trans (Value.equals_of_like x v x₁ v hlike (Value.like_blind v))

/-- Applied to an argument, `==` waits for the subject and compares the two. -/
theorem tests_equal {id : Nat} (hready : frame.Ready w) (hstop : w.stop? frame = none)
    (hfind : frame.scope.find? "==" = some (.value (.native (Builtin.equal.native id))))
    (heval : (e.eval frame []).Runs host w x (w.skip k)) (hx : x.isError = false)
    (hplain : v.isPlain = true) (hv : v.isError = false) (hbelow : v.Below w.next) :
    Tests host frame v (.apply (.var "==") [e]) w (.boolean (x.equals v)) (k + 1) := by
  obtain ⟨x', hrun, hx', hequals⟩ := runs_eval_enter hready heval "=="
  have hwait : (Value.native (Builtin.equal.native id)).wait? =
      some ⟨.native (Builtin.equal.native id), [], 2, .savedFirst⟩ := rfl
  have hforced : Forced host (frame.enter "==") [Value.pin frame.scope e, v] (w.skip 1) [x', v]
      (w.skip (k + 1)) :=
    .cons (Call.answers_pin hrun) (hx'.trans hx) (.cons (Call.answers_of_isPlain hplain) hv .nil)
  have hinner : (w.skip 1).stop? (frame.enter "==") = none := hstop
  have hboth := Builtin.answers_equal id hinner hforced
  rw [hequals v hbelow] at hboth
  have hfew : [Value.pin frame.scope e].length < 2 := Nat.one_lt_two
  have hsome := List.cons_ne_nil (Value.pin frame.scope e) []
  have hside : ((Expr.apply (.var "==") [e]).eval frame []).Runs host w _ (w.skip 1) :=
    (runs_apply_native_iff hfind Nat.two_pos rfl).mpr (Call.answers_few hwait hsome hfew)
  refine ⟨runs_bind hside (runs_invoke ?_), rfl⟩
  exact (Call.answers_save hwait (List.cons_ne_nil v []) hfew).mpr hboth

/-- What the subject leaves behind is good for the cases to be tried in. -/
theorem place_of_runs {subject : Code} (hready : frame.Ready w) (hstop : w.stop? frame = none)
    (hargs : ∀ a ∈ args, a.Obeys (Policy.sealed σ) ∧ a.Below w.next)
    (hrun : (subject.eval frame []).Runs host w v w₁) :
    Place frame v args w₁ ∧ w₁.stop? frame = none := by
  rw [runs_eval_iff_silent hready] at hrun
  have hensures := ensures_sealed subject hready.scope (List.forall_mem_nil _) hready.world
  obtain ⟨hworld, hv, -⟩ := Call.post_of_runs (fun _ _ _ _ => trivial) hensures hrun
  have hforward := keeps_eval subject frame [] w.next hready.below (List.forall_mem_nil _) w
    (Nat.le_refl _) hready.numbered
  obtain ⟨fuel, hexec⟩ := hrun
  obtain ⟨hfollows, hbelow⟩ := follows_of_exec (fun c w v w' hc hw hans =>
    Call.follows_of_answers Host.keeps_silent hc hw ⟨fuel, hans⟩) hforward hready.numbered hexec
  have hready₁ : frame.Ready w₁ :=
    ⟨hready.scope, hworld, below_mono hready.below hfollows.le, hfollows.numbered⟩
  refine ⟨⟨hready₁, hv, hbelow, fun a ha => (hargs a ha).1,
    fun a ha => below_mono (hargs a ha).2 hfollows.le⟩, ?_⟩
  refine World.stop?_eq_none (World.depth_le_of_stop? hstop) ?_
  rw [World.hasFired_of_follows hfollows, World.hasFired_of_stop? hstop]

/--
A switch tries its cases in order. A case that turns the subject down might as well not be there,
and so might any case after the first that accepts it; where no case does, the subject is applied to
the arguments. On the left side of a case for a plain subject, a plain value that is no boolean is
as good as an application of `==` to it. Nothing differs but the numbers that the tests take.
-/
theorem switch_tests_in_order (host : Host σ) {subject : Code} (hready : frame.Ready w)
    (hstop : w.stop? frame = none)
    (hargs : ∀ a ∈ args, a.Obeys (Policy.sealed σ) ∧ a.Below w.next)
    (hsubject : (subject.eval frame []).Runs host w v w₁) (hv : v.isError = false)
    (hbefore : Rejects host frame v before w₁ k) :
    let run (cases : List (Code × Code)) (u : Value) (w' : World σ) : Prop :=
      ((switch subject cases).eval frame args).Runs host w u w'
    let w₂ := w₁.skip k
    -- a case that turns the subject down
    (∀ (lhs rhs : Code) (rest : List (Code × Code)) (t : Value) (j : Nat),
      Tests host frame v lhs w₂ t j → accepts t v = false → ∀ (u : Value) (w' : World σ),
        run (before ++ (lhs, rhs) :: rest) u w' ↔
          ∃ u₀ w₀, run (before ++ rest) u₀ w₀ ∧ Raised w₂.next j u₀ w₀ u w') ∧
    -- the cases after the first that accepts it
    (∀ (lhs rhs : Code) (rest rest' : List (Code × Code)) (t : Value) (j : Nat),
      Tests host frame v lhs w₂ t j → accepts t v = true → ∀ (u : Value) (w' : World σ),
        run (before ++ (lhs, rhs) :: rest) u w' ↔ run (before ++ (lhs, rhs) :: rest') u w') ∧
    -- no case that accepts it
    (∀ (u : Value) (w' : World σ), run before u w' ↔ (applyRest v frame args).Runs host w₂ u w') ∧
    -- a plain value on the left side
    ∀ (e rhs : Code) (rest : List (Code × Code)) (x : Value) (j equal : Nat), v.isPlain = true →
      frame.scope.find? "==" = some (.value (.native (Builtin.equal.native equal))) →
      (e.eval frame []).Runs host w₂ x (w₂.skip j) → x.isPlain = true → x.isError = false →
      (∀ b, x ≠ .boolean b) → ∀ (u : Value) (w' : World σ),
        run (before ++ (.apply (.var "==") [e], rhs) :: rest) u w' ↔
          ∃ u₀ w₀, run (before ++ (e, rhs) :: rest) u₀ w₀ ∧
            Raised (w₂.next + j) 1 u₀ w₀ u w' := by
  intro run w₂
  obtain ⟨hplace₁, hstop₁⟩ := place_of_runs hready hstop hargs hsubject
  have hplace : Place frame v args w₂ := place_skip hplace₁ k
  have hrun (rest : List (Code × Code)) (u : Value) (w' : World σ) :
      run (before ++ rest) u w' ↔ (tryCases rest v frame args).Runs host w₂ u w' :=
    (runs_switch_iff hsubject hv).trans (runs_tryCases_append hstop₁ hbefore)
  have htested {lhs rhs : Code} {rest : List (Code × Code)} {t : Value} {j : Nat}
      (htest : Tests host frame v lhs w₂ t j) (u : Value) (w' : World σ) :
      run (before ++ (lhs, rhs) :: rest) u w' ↔
        (proceed (accepts t v) rhs rest v frame args).Runs host (w₂.skip j) u w' :=
    (hrun _ u w').trans (runs_tryCases_cons hstop₁ htest.runs htest.isError)
  refine ⟨?_, ?_, ?_, ?_⟩
  · intro lhs rhs rest t j htest ht u w'
    simp only [htested htest, hrun, ht]
    exact runs_proceed_skip_iff hplace false rhs rest j
  · intro lhs rhs rest rest' t j htest ht u w'
    rw [htested htest, htested htest, ht]
    exact Iff.rfl
  · intro u w'
    have hnil := hrun [] u w'
    rw [List.append_nil] at hnil
    exact hnil
  · intro e rhs rest x j equal hplain hfind heval hx hxerror hboolean u w'
    have hequal := tests_equal hplace.ready hstop₁ hfind heval hxerror hplain hv hplace.subject
    have hliteral : Tests host frame v e w₂ x j := tests_of_isPlain heval hx hxerror
    simp only [htested hequal, htested hliteral, accepts_of_isPlain hx hboolean, ← World.skip_add]
    exact runs_proceed_skip_iff (place_skip hplace j) (x.equals v) rhs rest 1

/-- A case more, no case that fits, and a literal written as a test for equality. -/
theorem switch_tests_in_order_strings :
    let run (cases : List (Code × Code)) (u : Value) : Prop :=
      ∃ w', ((switch (.string "b") cases).eval Program.firstFrame [.string "z"]).Runs Host.none
        Program.firstWorld u w'
    let first : Code × Code := (.string "c", .string "x")
    run [first, (.apply (.var "==") [.string "a"], .string "x"), (.string "b", .string "y")]
        (.string "y") ∧
      run [first] (.string "b") ∧
      run [first, (.apply (.var "==") [.string "b"], .string "y")] (.string "y") := by
  intro run first
  have hargs : ∀ a ∈ [Value.string "z"], a.Obeys (Policy.sealed Unit) ∧
      a.Below Program.firstWorld.next := by
    intro a ha
    obtain rfl := List.mem_singleton.mp ha
    exact ⟨.string "z", Value.below_string "z"⟩
  have hfirst : Rejects Host.none Program.firstFrame (.string "b") [first] Program.firstWorld 0 :=
    .cons (t := .string "c") ⟨⟨2, rfl⟩, rfl⟩ rfl .nil
  have hequal : Tests Host.none Program.firstFrame (.string "b")
      (.apply (.var "==") [.string "a"]) (Program.firstWorld.skip 0) (.boolean false) 1 :=
    ⟨⟨3, rfl⟩, rfl⟩
  have hsubject : (eval (.string "b") Program.firstFrame []).Runs Host.none Program.firstWorld
      (.string "b") Program.firstWorld := ⟨1, rfl⟩
  obtain ⟨hreject, -, hdefault, hliteral⟩ := switch_tests_in_order Host.none
    Program.ready_firstFrame rfl hargs hsubject rfl hfirst
  have hfits : ((switch (.string "b") [first, (.string "b", .string "y")]).eval Program.firstFrame
      [.string "z"]).Runs Host.none Program.firstWorld (.string "y") Program.firstWorld := ⟨3, rfl⟩
  have hmore := (hreject _ (.string "x") _ _ 1 hequal rfl _ _).mpr ⟨_, _, hfits, rfl, rfl⟩
  have hnone := (hdefault _ _).mpr (runs_applyRest_of_isPlain rfl)
  have hsame := (hliteral (.string "b") _ [] (.string "b") 0 _ rfl rfl ⟨1, rfl⟩ rfl rfl nofun _
    _).mpr ⟨_, _, hfits, rfl, rfl⟩
  exact ⟨⟨_, hmore⟩, ⟨_, hnone⟩, ⟨_, hsame⟩⟩

end Expr

end ChainScript
