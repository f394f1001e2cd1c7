import ChainScript.Eval.Argument
import ChainScript.Proofs.Proc.Ensures
import ChainScript.Proofs.World.Like

/-!
Procedures that are alike. They ask for alike calls, and do the same to the world as long as the
answers to these are alike; so a run of the one is a run of the other, up to likeness. A procedure
that is alike to itself keeps values as they are asked to be.
-/
namespace ChainScript

variable {σ α β : Type}

/--
A likeness, and the worlds in which procedures are compared: what these remember is alike to itself,
and they depend on nothing else. The comparison ends in a world that is lost; a result may be
remembered if it is the same on both sides, or if its world is lost.
-/
structure Setting (σ : Type) extends Likeness where
  world : World σ → Prop
  lost : World σ → Prop
  world_of_caches : ∀ {w w'}, world w → w'.caches = w.caches → world w'
  like_stored : ∀ {w mark keys v}, world w → w.stored? mark keys = some v →
    v.Like toLikeness v
  store : ∀ {w w' mark keys v v'}, world w → w.stored? mark keys = none → world w' →
    v.Like toLikeness v' →
      lost (w'.store mark keys v) ∨
        w'.store mark keys v' = w'.store mark keys v ∧ world (w'.store mark keys v)

/-- Values that are alike in the setting. -/
abbrev Setting.Like (S : Setting σ) : Value → Value → Prop := Value.Like S.toLikeness

abbrev Setting.LikeAll (S : Setting σ) : List Value → List Value → Prop := List.Forall₂ S.Like

variable {S : Setting σ} {R : α → α → Prop} {Q : β → β → Prop} {p q : Proc σ α} {a b : α}
  {w w' w₁ : World σ} {frame frame' : Frame} {v v' : Value} {args args' : List Value}

namespace Proc

/-- From the world on, the second procedure does what the first does, up to likeness. -/
def AlikeAt (S : Setting σ) (R : α → α → Prop) : Proc σ α → Proc σ α → World σ → Prop
  | done a, done b, _ => R a b
  | call c next, call d next', _ =>
    c.Like S.toLikeness d ∧
      ∀ v v' w', S.world w' → S.Like v v' → AlikeAt S R (next v) (next' v') w'
  | read next, read next', w => AlikeAt S R (next w) (next' w) w
  | write w₁ next, write w₂ next', _ =>
    S.lost w₁ ∨ w₂ = w₁ ∧ S.world w₁ ∧ AlikeAt S R next next' w₁
  | _, _, _ => False

def Alike (S : Setting σ) (R : α → α → Prop) (p q : Proc σ α) : Prop :=
  ∀ w, S.world w → AlikeAt S R p q w

theorem alikeAt_read_iff {next next' : World σ → Proc σ α} :
    AlikeAt S R (read next) (read next') w ↔ AlikeAt S R (next w) (next' w) w := Iff.rfl

theorem alikeAt_bind {f g : α → Proc σ β} (h : AlikeAt S R p q w) (hw : S.world w)
    (hf : ∀ a b, R a b → Alike S Q (f a) (g b)) : AlikeAt S Q (p >>= f) (q >>= g) w := by
  change AlikeAt S Q (p.bind f) (q.bind g) w
  induction p generalizing q w with
  | done a =>
    cases q with
    | done b => exact hf a b h w hw
    | _ => exact h.elim
  | call c next ih =>
    cases q with
    | call d next' => exact ⟨h.1, fun v v' w' hw' hv => ih v (h.2 v v' w' hw' hv) hw'⟩
    | _ => exact h.elim
  | read next ih =>
    cases q with
    | read next' => exact ih w (q := next' w) h hw
    | _ => exact h.elim
  | write w₁ next ih =>
    cases q with
    | write w₂ next' => exact h.imp_right fun ⟨heq, hw₁, hnext⟩ => ⟨heq, hw₁, ih hnext hw₁⟩
    | _ => exact h.elim

theorem alike_bind {f g : α → Proc σ β} (h : Alike S R p q)
    (hf : ∀ a b, R a b → Alike S Q (f a) (g b)) : Alike S Q (p >>= f) (q >>= g) :=
  fun w hw => alikeAt_bind (h w hw) hw hf

theorem alike_pure (h : R a b) : Alike S R (pure a : Proc σ α) (pure b) := fun _ _ => h

theorem alike_invoke (hv : S.Like v v') (hframe : frame.Like S.toLikeness frame')
    (hargs : S.LikeAll args args') :
    Alike S S.Like (invoke v frame args : Proc σ Value)
      (invoke v' frame' args') :=
  fun _ _ => ⟨⟨hv, hframe, hargs⟩, fun _ _ _ _ h => h⟩

theorem alike_fresh : Alike S Eq (fresh : Proc σ Nat) fresh :=
  fun _ hw => .inr ⟨rfl, S.world_of_caches hw rfl, rfl⟩

theorem alike_modify {f : World σ → World σ} (h : ∀ w, (f w).caches = w.caches) :
    Alike S (fun _ _ => True) (modify f : Proc σ Unit) (modify f) :=
  fun w hw => .inr ⟨rfl, S.world_of_caches hw (h w), trivial⟩

theorem alike_fail (hframe : frame.Like S.toLikeness frame') (cause : Cause) :
    Alike S S.Like (fail frame cause : Proc σ Value) (fail frame' cause) := by
  refine alike_bind alike_fresh ?_
  rintro id _ rfl
  exact alike_pure (.error id rfl hframe.path)

/-- Both frames have to stop, or both may go on. -/
theorem alike_unless_stop {k k' : Option Value → Proc σ α}
    (hframe : frame.Like S.toLikeness frame') (hnone : Alike S R (k none) (k' none))
    (hsome : ∀ e e', S.Like e e' → Alike S R (k (some e)) (k' (some e'))) :
    Alike S R (stop? frame >>= k) (stop? frame' >>= k') := by
  have hstop : Alike S (Option.Rel S.Like) (stop? frame : Proc σ (Option Value))
      (stop? frame') := by
    intro w hw
    rw [stop?, stop?, alikeAt_read_iff, Frame.stop?_of_like hframe]
    cases w.stop? frame with
    | none => exact Option.Rel.none
    | some cause =>
      exact alike_bind (alike_fail hframe cause) (fun _ _ he => alike_pure (.some he)) w hw
  refine alike_bind hstop ?_
  rintro _ _ (he | _)
  · exact hsome _ _ he
  · exact hnone

theorem alike_realize {x y : Binding} (h : x.Like S.toLikeness y) :
    Alike S S.Like (realize x : Proc σ Value) (realize y) := by
  cases h with
  | value h => exact alike_pure h
  | function l h =>
    refine alike_bind alike_fresh ?_
    rintro id _ rfl
    exact alike_pure (.closure id l h)

theorem alike_realized {x y : Binding} (h : x.Like S.toLikeness y)
    (hframe : frame.Like S.toLikeness frame')
    (hargs : S.LikeAll args args') :
    Alike S S.Like (do invoke (← realize x) frame args : Proc σ Value)
      (do invoke (← realize y) frame' args') :=
  alike_bind (alike_realize h) fun _ _ hv => alike_invoke hv hframe hargs

theorem alike_applyRest (hv : S.Like v v') (hframe : frame.Like S.toLikeness frame')
    (hargs : S.LikeAll args args') :
    Alike S S.Like (applyRest v frame args : Proc σ Value)
      (applyRest v' frame' args') := by
  have hempty : args'.isEmpty = args.isEmpty := by cases hargs <;> rfl
  unfold applyRest
  rw [hempty, Value.isError_of_like hv]
  split
  · exact alike_pure hv
  · exact alike_invoke hv hframe hargs

theorem alike_curry {arity : Nat} {order : Order} (hv : v.Firm S.toLikeness v')
    (hargs : S.LikeAll args args')
    (hwaiting : args ≠ [] → S.waiting v args arity order) :
    Alike S S.Like (curry v args arity order : Proc σ Value)
      (curry v' args' arity order) := by
  cases hargs with
  | nil => exact alike_pure hv.1
  | cons ha hrest =>
    refine alike_bind alike_fresh ?_
    rintro id _ rfl
    exact alike_pure (Value.like_curried id hv (.cons ha hrest) (hwaiting nofun))

end Proc

/-- The procedures of alike calls are alike. -/
def Setting.Calls (S : Setting σ) (host : Host σ) : Prop :=
  ∀ c d : Call, c.Like S.toLikeness d → Proc.Alike S S.Like (c.proc host) (d.proc host)

/-- What is asked of calls, and what they grant, where they are compared with themselves. -/
def Setting.contract (S : Setting σ) : Contract σ where
  inv := S.world
  ask c w := c.Like S.toLikeness c ∧ S.world w
  grant v w := S.Like v v ∧ S.world w
  known _ _ _ _ := True
  inv_of_grant h := h.2

namespace Proc

section Run

variable {host : Host σ} {c d : Call} {cs : List Call}

theorem stack_of_makes (hmade : Makes host p w c w₁)
    (h : Stack host (c.proc host) w₁ cs w') : Stack host p w (cs ++ [c]) w' := by
  induction h with
  | made hd => exact .inside (.made hmade) hd
  | inside _ hd ih => exact .inside ih hd

/-- Whatever occurs in a call occurs in the procedure that makes it. -/
theorem passes_of_makes (hmade : Makes host p w c w₁) (h : Passes host (c.proc host) w₁ w') :
    Passes host p w w' := by
  obtain ⟨q, hq⟩ | ⟨d, w₂, q, ⟨cs, hd⟩, hq⟩ := h
  · exact .inr ⟨c, w₁, q, ⟨[], .made hmade⟩, hq⟩
  · exact .inr ⟨d, w₂, q, ⟨cs ++ [c], stack_of_makes hmade hd⟩, hq⟩

/-- A run that comes to no lost world is one of the other procedure, if that holds of its calls. -/
theorem exec_of_alikeAt {fuel : Nat}
    (hcalls : ∀ c d w₁ v w', Makes host p w c w₁ → c.Like S.toLikeness d → S.world w₁ →
      Call.answer host fuel c w₁ = some (v, w') →
      ∃ v', Call.answer host fuel d w₁ = some (v', w') ∧ S.Like v v' ∧ S.world w')
    (h : AlikeAt S R p q w) (hw : S.world w)
    (hkept : ∀ q' w', Comes host p w q' w' → ¬ S.lost w')
    (hr : p.exec (Call.answer host fuel) w = some (a, w')) :
    ∃ b, q.exec (Call.answer host fuel) w = some (b, w') ∧ R a b ∧ S.world w' := by
  induction p generalizing q w with
  | done a' =>
    cases q with
    | done b =>
      obtain ⟨rfl, rfl⟩ : a' = a ∧ w = w' := by simpa [exec] using hr
      exact ⟨b, rfl, h, hw⟩
    | _ => exact h.elim
  | call c next ih =>
    cases q with
    | call d next' =>
      obtain ⟨hcd, hnext⟩ := h
      rw [exec] at hr
      cases hc : Call.answer host fuel c w with
      | none => simp [hc] at hr
      | some r =>
        obtain ⟨v, w₁⟩ := r
        rw [hc] at hr
        obtain ⟨v', hd, hv, hw₁⟩ := hcalls c d w v w₁ ⟨next, .refl⟩ hcd hw hc
        rw [exec, hd]
        refine ih v ?_ (hnext v v' w₁ hw₁ hv) hw₁ ?_ hr
        · rintro c' d' w₂ u w₃ ⟨rest, hrest⟩
          exact hcalls c' d' w₂ u w₃ ⟨rest, .call ⟨fuel, hc⟩ hrest⟩
        · exact fun q' w₂ hcomes => hkept q' w₂ (.call ⟨fuel, hc⟩ hcomes)
    | _ => exact h.elim
  | read next ih =>
    cases q with
    | read next' =>
      refine ih w (q := next' w) ?_ h hw (fun q' w₂ hcomes => hkept q' w₂ (.read hcomes)) hr
      rintro c' d' w₂ u w₃ ⟨rest, hrest⟩
      exact hcalls c' d' w₂ u w₃ ⟨rest, .read hrest⟩
    | _ => exact h.elim
  | write w₁ next ih =>
    cases q with
    | write w₂ next' =>
      obtain hlost | ⟨rfl, hw₁, hnext⟩ := h
      · exact (hkept next w₁ (.write .refl) hlost).elim
      · refine ih (q := next') (w := w₂) ?_ hnext hw₁ ?_ hr
        · rintro c' d' w₃ u w₄ ⟨rest, hrest⟩
          exact hcalls c' d' w₃ u w₄ ⟨rest, .write hrest⟩
        · exact fun q' w₃ hcomes => hkept q' w₃ (.write hcomes)
    | _ => exact h.elim

/-- An alike call has an alike answer, unless the world gets lost on the way. -/
theorem answer_of_like (hhost : S.Calls host) (fuel : Nat) (hcd : c.Like S.toLikeness d)
    (hw : S.world w) (hkept : ∀ w₁, Passes host (c.proc host) w w₁ → ¬ S.lost w₁)
    (hr : Call.answer host fuel c w = some (v, w')) :
    ∃ v', Call.answer host fuel d w = some (v', w') ∧ S.Like v v' ∧ S.world w' := by
  induction fuel generalizing c d w v w' with
  | zero => simp [Call.answer] at hr
  | succ fuel ih =>
    refine exec_of_alikeAt ?_ (hhost c d hcd w hw) hw (fun q' w₁ h => hkept w₁ (.inl ⟨q', h⟩)) hr
    intro c' d' w₁ u w₂ hmade hlike hw₁ hans
    exact ih hlike hw₁ (fun w₃ h => hkept w₃ (passes_of_makes hmade h)) hans

theorem runs_of_alikeAt (hhost : S.Calls host) (h : AlikeAt S R p q w) (hw : S.world w)
    (hkept : ∀ w₁, Passes host p w w₁ → ¬ S.lost w₁) (hr : Runs host p w a w') :
    ∃ b, Runs host q w b w' ∧ R a b := by
  obtain ⟨fuel, hfuel⟩ := hr
  obtain ⟨b, hb, hab, -⟩ := exec_of_alikeAt (fun c d w₁ v w' hmade hlike hw₁ hans =>
    answer_of_like hhost fuel hlike hw₁ (fun w₂ h => hkept w₂ (passes_of_makes hmade h)) hans)
    h hw (fun q' w₁ h => hkept w₁ (.inl ⟨q', h⟩)) hfuel
  exact ⟨b, ⟨fuel, hb⟩, hab⟩

end Run

/-- A procedure that is alike to itself keeps the contract, where no world is lost. -/
theorem ensures_of_alikeAt (hlost : ∀ w, ¬ S.lost w) (h : AlikeAt S R p p w) (hw : S.world w) :
    Ensures (S.contract.under fun _ => True) (fun a w => R a a ∧ S.world w) p w := by
  induction p generalizing w with
  | done a => exact ⟨rfl, h, hw⟩
  | call c next ih =>
    exact ⟨rfl, ⟨trivial, h.1, hw⟩, fun v w' _ hg => ih v (h.2 v v w' hg.2 hg.1) hg.2⟩
  | read next ih => exact ih w h hw
  | write w₁ next ih =>
    obtain hlost' | ⟨-, hw₁, hnext⟩ := h
    · exact (hlost w₁ hlost').elim
    · exact ⟨rfl, hw₁, ih hnext hw₁⟩

/-- A procedure that keeps the contract is alike to itself, where only the same values are alike. -/
theorem alikeAt_of_ensures (hS : S.IsStrict)
    (h : Ensures S.contract (fun a w => R a a ∧ S.world w) p w) : AlikeAt S R p p w := by
  induction p generalizing w with
  | done a => exact h.2.1
  | call c next ih =>
    refine ⟨h.2.1.1, fun v v' w' hw' hv => ?_⟩
    obtain rfl := Value.eq_of_like hS hv
    exact ih v (h.2.2 v w' trivial ⟨hv, hw'⟩)
  | read next ih => exact ih w h
  | write w₁ next ih => exact .inr ⟨rfl, h.2.1, ih h.2.2⟩

end Proc

namespace Attempt

open Proc

/-- Errors that are alike, or related results. -/
inductive OutcomeLike (ℓ : Likeness) (R : α → α → Prop) : Except Value α → Except Value α → Prop
  | error {e e' : Value} (h : e.Like ℓ e') : OutcomeLike ℓ R (.error e) (.error e')
  | ok {a b : α} (h : R a b) : OutcomeLike ℓ R (.ok a) (.ok b)

def Alike (S : Setting σ) (R : α → α → Prop) (x y : Attempt σ α) : Prop :=
  Proc.Alike S (OutcomeLike S.toLikeness R) x.run y.run

/-- What a value has been forced to: no error, and so alike in its text, too. -/
def Solid (S : Setting σ) (v v' : Value) : Prop := S.Like v v' ∧ v.isError = false

variable {x y : Attempt σ α}

theorem alike_pure (h : R a b) : Alike S R (pure a : Attempt σ α) (pure b) :=
  Proc.alike_pure (OutcomeLike.ok h)

theorem alike_bind {f g : α → Attempt σ β} (h : Alike S R x y)
    (hf : ∀ a b, R a b → Alike S Q (f a) (g b)) : Alike S Q (x >>= f) (y >>= g) := by
  change Proc.Alike S _ (x.run >>= ExceptT.bindCont f) (y.run >>= ExceptT.bindCont g)
  refine Proc.alike_bind h ?_
  rintro _ _ (he | hab)
  · exact Proc.alike_pure (OutcomeLike.error he)
  · exact hf _ _ hab

theorem alike_lift (h : Proc.Alike S R p q) : Alike S R (ExceptT.lift p) (ExceptT.lift q) :=
  Proc.alike_bind h fun _ _ hab => Proc.alike_pure (OutcomeLike.ok hab)

section Frame

variable (hframe : frame.Like S.toLikeness frame')

include hframe

theorem alike_fail (cause : Cause) :
    Alike S R (fail frame cause : Attempt σ α) (fail frame' cause) :=
  Proc.alike_bind (Proc.alike_fail hframe cause) fun _ _ he =>
    Proc.alike_pure (OutcomeLike.error he)

theorem alike_force (hv : S.Like v v') :
    Alike S (Solid S) (force frame v : Attempt σ Value) (force frame' v') := by
  refine Proc.alike_bind (alike_invoke hv hframe .nil) fun u u' hu => ?_
  rw [Value.isError_of_like hu]
  cases herror : u.isError with
  | true => exact Proc.alike_pure (OutcomeLike.error hu)
  | false => exact Proc.alike_pure (OutcomeLike.ok ⟨hu, herror⟩)

theorem alike_forceAll (hargs : S.LikeAll args args') :
    Alike S (List.Forall₂ (Solid S)) (forceAll frame args : Attempt σ (List Value))
      (forceAll frame' args') := by
  induction hargs with
  | nil => exact alike_pure .nil
  | cons hv _ ih =>
    refine alike_bind (alike_force hframe hv) fun u u' hu => ?_
    exact alike_bind ih fun us us' hus => alike_pure (.cons hu hus)

variable {reader : Reader α}
  (hread : ∀ u u', Solid S u u' → Option.Rel R (reader.read? u) (reader.read? u'))

include hread

theorem alike_forceAs (hv : S.Like v v') :
    Alike S R (forceAs reader frame v : Attempt σ α) (forceAs reader frame' v') := by
  refine alike_bind (alike_force hframe hv) fun u u' hu => ?_
  rw [Value.typeName_of_like hu.1]
  obtain ⟨ha, hb⟩ | ⟨a, b, ha, hb, hab⟩ := Option.rel_cases (hread u u' hu)
  · rw [ha, hb]
    exact alike_fail hframe _
  · rw [ha, hb]
    exact alike_pure hab

theorem alike_argument (hargs : S.LikeAll args args') (index : Nat) :
    Alike S R (argument reader frame args index : Attempt σ α)
      (argument reader frame' args' index) := by
  unfold argument
  obtain ⟨ha, hb⟩ | ⟨a, b, ha, hb, hab⟩ := Option.rel_cases (rel_getElem? hargs index)
  · rw [ha, hb]
    exact alike_fail hframe _
  · rw [ha, hb]
    exact alike_forceAs hframe hread hab

end Frame

theorem alike_result {x y : Attempt σ Value} (h : Alike S S.Like x y) :
    Proc.Alike S S.Like x.result y.result := by
  refine Proc.alike_bind h ?_
  rintro _ _ (he | hv)
  · exact Proc.alike_pure he
  · exact Proc.alike_pure hv

end Attempt

end ChainScript
