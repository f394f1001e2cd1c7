import ChainScript.Proofs.Proc.Run

/-!
Contracts for procedures. A procedure is checked on its own, against what its calls may be asked and
what they grant; a whole run then keeps the contract if the procedure of each call does. Contracts
are checked of two procedures in step, so that what is said of one of them is the case of a pair of
equals.
-/
namespace ChainScript

variable {σ α β : Type}

/--
What calls agree on: what holds of every world, what a call may be asked, what it grants when it
ends, and what else is known of a call that has ended.
-/
structure Contract (σ : Type) where
  inv : World σ → Prop
  ask : Call → World σ → Prop
  grant : Value → World σ → Prop
  known : Call → World σ → Value → World σ → Prop
  inv_of_grant : ∀ {v w}, grant v w → inv w

/-- The contract under which only the calls at `site` may be made. -/
def Contract.under (k : Contract σ) (site : Call → Prop) : Contract σ :=
  { k with ask := fun c w => site c ∧ k.ask c w }

/-- Calls that differ in the scope of their frames only. -/
def Call.Alike (c d : Call) : Prop :=
  d = { c with frame := c.frame.withScope d.frame.scope }

namespace Proc

variable {k : Contract σ} {host : Host σ} {p q : Proc σ α} {f g : α → Proc σ β} {a : α}
  {w w' w₁ : World σ} {c d : Call} {v : Value} {post post' : α → World σ → Prop}
  {goal : β → World σ → Prop} {next : Value → Proc σ α} {site site' : Call → Prop}

/--
The two procedures ask alike calls for nothing improper, in the same order, and end alike and as
`post` says.
-/
def Agree (k : Contract σ) (post : α → World σ → Prop) : Proc σ α → Proc σ α → World σ → Prop
  | done a, done b, w => a = b ∧ post a w
  | call c next, call d next', w =>
    c.Alike d ∧ k.ask c w ∧
      ∀ v w', k.known c w v w' → k.grant v w' → Agree k post (next v) (next' v) w'
  | read next, read next', w => Agree k post (next w) (next' w) w
  | write w₁ next, write w₂ next', _ => w₁ = w₂ ∧ k.inv w₁ ∧ Agree k post next next' w₁
  | _, _, _ => False

/-- The procedure asks its calls for nothing improper, and ends as `post` says. -/
def Ensures (k : Contract σ) (post : α → World σ → Prop) (p : Proc σ α) (w : World σ) : Prop :=
  Agree k post p p w

theorem agree_pure (h : post a w) : Agree k post (pure a : Proc σ α) (pure a) w := ⟨rfl, h⟩

theorem agree_bind (h : Agree k (fun a w => Agree k goal (f a) (g a) w) p q w) :
    Agree k goal (p >>= f) (q >>= g) w := by
  change Agree k goal (p.bind f) (q.bind g) w
  induction p generalizing q w with
  | done a =>
    cases q with
    | done b =>
      obtain ⟨rfl, h⟩ := h
      exact h
    | _ => exact h.elim
  | call c next ih =>
    cases q with
    | call d next' => exact ⟨h.1, h.2.1, fun v w' hk hg => ih v (h.2.2 v w' hk hg)⟩
    | _ => exact h.elim
  | read next ih =>
    cases q with
    | read next' => exact ih w h
    | _ => exact h.elim
  | write w' next ih =>
    cases q with
    | write w'' next' => exact ⟨h.1, h.2.1, ih h.2.2⟩
    | _ => exact h.elim

/-- More calls may be asked for, and less may be said of the end. -/
theorem agree_mono (hsite : ∀ c, site c → site' c) (hpost : ∀ a w, post a w → post' a w)
    (h : Agree (k.under site) post p q w) : Agree (k.under site') post' p q w := by
  induction p generalizing q w with
  | done a =>
    cases q with
    | done b => exact ⟨h.1, hpost a w h.2⟩
    | _ => exact h.elim
  | call c next ih =>
    cases q with
    | call d next' =>
      obtain ⟨halike, ⟨hc, hask⟩, hnext⟩ := h
      exact ⟨halike, ⟨hsite c hc, hask⟩, fun v w' hk hg => ih v (hnext v w' hk hg)⟩
    | _ => exact h.elim
  | read next ih =>
    cases q with
    | read next' => exact ih w h
    | _ => exact h.elim
  | write w' next ih =>
    cases q with
    | write w'' next' => exact ⟨h.1, h.2.1, ih h.2.2⟩
    | _ => exact h.elim

/-- Sequencing, with what the first parts end with named. -/
theorem agree_seq (hp : Agree (k.under site) post p q w)
    (hf : ∀ a w, post a w → Agree (k.under site) goal (f a) (g a) w) :
    Agree (k.under site) goal (p >>= f) (q >>= g) w :=
  agree_bind (agree_mono (fun _ h => h) hf hp)

theorem ensures_pure (h : post a w) : Ensures k post (pure a : Proc σ α) w := agree_pure h

theorem ensures_read {next : World σ → Proc σ α} (h : Ensures k post (next w) w) :
    Ensures k post (read next) w := h

theorem ensures_seq (hp : Ensures (k.under site) post p w)
    (hf : ∀ a w, post a w → Ensures (k.under site) goal (f a) w) :
    Ensures (k.under site) goal (p >>= f) w :=
  agree_seq hp hf

theorem ensures_mono (hsite : ∀ c, site c → site' c) (hpost : ∀ a w, post a w → post' a w)
    (h : Ensures (k.under site) post p w) : Ensures (k.under site') post' p w :=
  agree_mono hsite hpost h

/-- A run of a procedure that keeps its contract ends as promised, if its calls do. -/
theorem post_of_exec {fuel : Nat} (h : Ensures k post p w)
    (hcalls : ∀ d w₁ u w₂, Makes host p w d w₁ → k.ask d w₁ →
      Call.answer host fuel d w₁ = some (u, w₂) → k.known d w₁ u w₂ ∧ k.grant u w₂)
    (hr : p.exec (Call.answer host fuel) w = some (a, w')) : post a w' := by
  induction p generalizing w with
  | done b =>
    obtain ⟨rfl, rfl⟩ : b = a ∧ w = w' := by simpa [exec] using hr
    exact h.2
  | call c next ih =>
    rw [exec] at hr
    cases hc : Call.answer host fuel c w with
    | none => simp [hc] at hr
    | some s =>
      obtain ⟨v, w₁⟩ := s
      rw [hc] at hr
      obtain ⟨hk, hg⟩ := hcalls c w v w₁ ⟨next, .refl⟩ h.2.1 hc
      refine ih v (h.2.2 v w₁ hk hg) ?_ hr
      rintro d w₂ u w₃ ⟨rest, hrest⟩
      exact hcalls d w₂ u w₃ ⟨rest, .call ⟨fuel, hc⟩ hrest⟩
  | read next ih =>
    refine ih w h ?_ hr
    rintro d w₂ u w₃ ⟨rest, hrest⟩
    exact hcalls d w₂ u w₃ ⟨rest, .read hrest⟩
  | write w₁ next ih =>
    refine ih h.2.2 ?_ hr
    rintro d w₂ u w₃ ⟨rest, hrest⟩
    exact hcalls d w₂ u w₃ ⟨rest, .write hrest⟩

/-- Procedures that agree do the same, if alike calls get the same answers. -/
theorem exec_eq_of_agree {answer : Call → World σ → Option (Value × World σ)}
    (h : Agree k post p q w)
    (hcalls : ∀ c d w u w', c.Alike d → k.ask c w → answer c w = some (u, w') →
      k.known c w u w' ∧ k.grant u w')
    (halike : ∀ c d w, c.Alike d → k.ask c w → answer c w = answer d w) :
    p.exec answer w = q.exec answer w := by
  induction p generalizing q w with
  | done a =>
    cases q with
    | done b => rw [h.1]
    | _ => exact h.elim
  | call c next ih =>
    cases q with
    | call d next' =>
      obtain ⟨hcd, hask, hnext⟩ := h
      rw [exec, exec, ← halike c d w hcd hask]
      cases hc : answer c w with
      | none => rfl
      | some s =>
        obtain ⟨hk, hg⟩ := hcalls c d w s.1 s.2 hcd hask hc
        exact ih s.1 (hnext s.1 s.2 hk hg)
    | _ => exact h.elim
  | read next ih =>
    cases q with
    | read next' => exact ih w (q := next' w) h
    | _ => exact h.elim
  | write w₁ next ih =>
    cases q with
    | write w₂ next' =>
      obtain ⟨rfl, _, hnext⟩ := h
      exact ih hnext
    | _ => exact h.elim

/-- While `p` is carried out, what is left keeps the contract. -/
theorem ensures_of_comes
    (hcalls : ∀ d w₁ u w₂, Makes host p w d w₁ → k.ask d w₁ → d.Answers host w₁ u w₂ →
      k.known d w₁ u w₂ ∧ k.grant u w₂)
    (h : Ensures k post p w) (hcomes : Comes host p w q w') : Ensures k post q w' := by
  induction hcomes with
  | refl => exact h
  | @call c next q v w w₁ w' hc hn ih =>
    obtain ⟨hk, hg⟩ := hcalls c w v w₁ ⟨next, .refl⟩ h.2.1 hc
    refine ih ?_ (h.2.2 v w₁ hk hg)
    rintro d w₂ u w₃ ⟨rest, hrest⟩
    exact hcalls d w₂ u w₃ ⟨rest, .call hc hrest⟩
  | read hn ih =>
    refine ih ?_ h
    rintro d w₂ u w₃ ⟨rest, hrest⟩
    exact hcalls d w₂ u w₃ ⟨rest, .read hrest⟩
  | write hn ih =>
    refine ih ?_ h.2.2
    rintro d w₂ u w₃ ⟨rest, hrest⟩
    exact hcalls d w₂ u w₃ ⟨rest, .write hrest⟩

theorem inv_of_comes
    (hcalls : ∀ d w₁ u w₂, Makes host p w d w₁ → k.ask d w₁ → d.Answers host w₁ u w₂ →
      k.known d w₁ u w₂ ∧ k.grant u w₂)
    (h : Ensures k post p w) (hw : k.inv w) (hcomes : Comes host p w q w') : k.inv w' := by
  induction hcomes with
  | refl => exact hw
  | @call c next q v w w₁ w' hc hn ih =>
    obtain ⟨hk, hg⟩ := hcalls c w v w₁ ⟨next, .refl⟩ h.2.1 hc
    refine ih ?_ (h.2.2 v w₁ hk hg) (k.inv_of_grant hg)
    rintro d w₂ u w₃ ⟨rest, hrest⟩
    exact hcalls d w₂ u w₃ ⟨rest, .call hc hrest⟩
  | read hn ih =>
    refine ih ?_ h hw
    rintro d w₂ u w₃ ⟨rest, hrest⟩
    exact hcalls d w₂ u w₃ ⟨rest, .read hrest⟩
  | write hn ih =>
    refine ih ?_ h.2.2 h.2.1
    rintro d w₂ u w₃ ⟨rest, hrest⟩
    exact hcalls d w₂ u w₃ ⟨rest, .write hrest⟩

section Run

-- The procedure of each call keeps the contract at its own sites, and `p` starts the run.
variable {around : Call → Call → Prop} {cs : List Call} {u : Value}
  (hproc : ∀ c w, k.ask c w → Ensures (k.under (around c)) k.grant (c.proc host) w)
  (hknown : ∀ c w₁ u w₂, Reaches host p w c w₁ → c.Answers host w₁ u w₂ → k.known c w₁ u w₂)

include hproc hknown

theorem grant_of_answers (hreach : Reaches host p w c w') (hask : k.ask c w')
    (hc : c.Answers host w' u w₁) : k.grant u w₁ := by
  obtain ⟨fuel, hfuel⟩ := hc
  induction fuel generalizing c w' u w₁ with
  | zero => simp [Call.answer] at hfuel
  | succ fuel ih =>
    obtain ⟨cs, hstack⟩ := hreach
    refine post_of_exec (hproc c w' hask) ?_ hfuel
    intro d w₂ v w₃ hmade hd hans
    have hinside : Reaches host p w d w₂ := ⟨c :: cs, .inside hstack hmade⟩
    exact ⟨hknown d w₂ v w₃ hinside ⟨fuel, hans⟩, ih hinside hd.2 hans⟩

theorem ask_of_makes {q : Proc σ β} (h : Ensures (k.under site) goal q w₁)
    (hreach : ∀ d w₂, Makes host q w₁ d w₂ → Reaches host p w d w₂)
    (hmade : Makes host q w₁ d w') : (k.under site).ask d w' := by
  obtain ⟨next, hcomes⟩ := hmade
  refine (ensures_of_comes (q := call d next) ?_ h hcomes).2.1
  intro e w₂ v w₃ he hask hans
  have hinside := hreach e w₂ he
  exact ⟨hknown e w₂ v w₃ hinside hans, grant_of_answers (k := k) hproc hknown hinside hask.2 hans⟩

variable (hstart : Ensures (k.under site) post p w)

include hstart

theorem ask_of_stack (hstack : Stack host p w (c :: cs) w') : k.ask c w' := by
  generalize hds : c :: cs = ds at hstack
  induction hstack generalizing c cs with
  | made hmade =>
    obtain ⟨rfl, rfl⟩ := List.cons.inj hds
    exact (ask_of_makes hproc hknown hstart (fun d w₂ hd => ⟨[], .made hd⟩) hmade).2
  | @inside b d bs w₁ w₂ hb hmade ih =>
    obtain ⟨rfl, rfl⟩ := List.cons.inj hds
    have hbody := hproc b w₁ (ih rfl)
    exact (ask_of_makes hproc hknown hbody (fun e w₂ he => ⟨b :: bs, .inside hb he⟩) hmade).2

/-- Each call on the stack is made at one of the sites of the call that it is made for. -/
theorem around_of_stack (hstack : Stack host p w (d :: c :: cs) w') : around c d := by
  cases hstack with
  | @inside _ _ _ w₁ _ hc hmade =>
    have hbody := hproc c w₁ (ask_of_stack hproc hknown hstart hc)
    exact (ask_of_makes hproc hknown hbody (fun e w₂ he => ⟨c :: cs, .inside hc he⟩) hmade).1

theorem inv_of_passes (hw : k.inv w) (hpass : Passes host p w w')
    (hinv : ∀ c w, k.ask c w → k.inv w) : k.inv w' := by
  obtain ⟨q, hq⟩ | ⟨c, w₁, q, ⟨cs, hc⟩, hq⟩ := hpass
  · refine inv_of_comes (k := k.under site) ?_ hstart hw hq
    intro d w₂ v w₃ hd hask hans
    have hreach : Reaches host p w d w₂ := ⟨[], .made hd⟩
    exact ⟨hknown d w₂ v w₃ hreach hans, grant_of_answers (k := k) hproc hknown hreach hask.2 hans⟩
  · have hask := ask_of_stack hproc hknown hstart hc
    refine inv_of_comes (k := k.under (around c)) ?_ (hproc c w₁ hask) (hinv c w₁ hask) hq
    intro d w₂ v w₃ hd hask hans
    have hreach : Reaches host p w d w₂ := ⟨c :: cs, .inside hc hd⟩
    exact ⟨hknown d w₂ v w₃ hreach hans, grant_of_answers (k := k) hproc hknown hreach hask.2 hans⟩

theorem post_of_runs (hrun : Runs host p w a w') : post a w' := by
  refine (ensures_of_comes (q := done a) ?_ hstart (comes_of_runs hrun)).2
  intro d w₂ v w₃ hd hask hans
  have hreach : Reaches host p w d w₂ := ⟨[], .made hd⟩
  exact ⟨hknown d w₂ v w₃ hreach hans, grant_of_answers (k := k) hproc hknown hreach hask.2 hans⟩

end Run

end Proc

end ChainScript
