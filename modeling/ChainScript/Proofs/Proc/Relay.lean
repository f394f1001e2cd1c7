import ChainScript.Proofs.Value.Traced

/-!
How errors are handed on. What follows a call relays an error if, given one, it ends with that very
error before it does anything else. Only the rest of a chain that has a recovering segment ahead
does not: there an error is the running value with which the chain goes on.
-/
namespace ChainScript

variable {σ α β γ : Type} {given : Errors}

namespace Expr

/-- The expression occurs in the code, if there is any. -/
def Within (e : Code) (whole : Option Code) : Prop := ∃ top ∈ whole, Occurs e top

/-- The segments are those at the end of a chain in the code. -/
def EndsChain (rest : List (Segment Code)) (whole : Option Code) : Prop :=
  ∃ segments, (chain segments).Within whole ∧ rest <:+ segments

variable {e d : Code} {whole : Option Code} {s : Segment Code} {rest : List (Segment Code)}

theorem within_self (e : Code) : e.Within (some e) := ⟨e, rfl, .self⟩

theorem within_child (h : d.Within whole) (he : e ∈ d.children) : e.Within whole := by
  obtain ⟨top, htop, hocc⟩ := h
  refine ⟨top, htop, ?_⟩
  clear htop
  induction hocc with
  | self => exact .child he .self
  | child hd _ ih => exact .child hd ih

theorem within_segment (h : EndsChain rest whole) (hs : s ∈ rest) : s.expr.Within whole := by
  obtain ⟨segments, hwithin, hsuffix⟩ := h
  exact within_child hwithin (List.mem_map_of_mem (hsuffix.mem hs))

theorem endsChain_tail (h : EndsChain (s :: rest) whole) : EndsChain rest whole := by
  obtain ⟨segments, hwithin, hsuffix⟩ := h
  exact ⟨segments, hwithin, (List.suffix_cons s rest).trans hsuffix⟩

end Expr

/-- No signal fires between the two worlds. -/
structure World.Steady (w w' : World σ) : Prop where
  cancelled : w'.cancelled = w.cancelled
  now : w'.now = w.now

/-- No signal fires, and the caches are traced after that. -/
structure World.Continues (given : Errors) (w w' : World σ) : Prop extends w.Steady w' where
  traced : w'.Traced given

namespace World

variable {w w' w'' : World σ}

theorem steady_refl (w : World σ) : w.Steady w := ⟨rfl, rfl⟩

theorem steady_trans (h : w.Steady w') (h' : w'.Steady w'') : w.Steady w'' :=
  ⟨h'.cancelled.trans h.cancelled, h'.now.trans h.now⟩

theorem steady_symm (h : w.Steady w') : w'.Steady w := ⟨h.cancelled.symm, h.now.symm⟩

/-- A frame that may go on may do so for as long as no signal fires. -/
theorem stop?_of_steady (h : w.Steady w') (f : Frame) : w'.stop? f = w.stop? f := by
  unfold stop? isCancelled
  rw [h.cancelled, h.now]

theorem continues_refl (h : w.Traced given) : w.Continues given w := ⟨steady_refl w, h⟩

theorem continues_trans (h : w.Continues given w') (h' : w'.Continues given w'') :
    w.Continues given w'' :=
  ⟨steady_trans h.toSteady h'.toSteady, h'.traced⟩

theorem continues_next (h : w.Traced given) (n : Nat) : w.Continues given { w with next := n } :=
  ⟨⟨rfl, rfl⟩, traced_of_caches h rfl⟩

end World

/-- What is asked of the results of a procedure, and which of them stand for an error. -/
structure Results (α : Type) where
  fine : α → Prop
  stands : Value → α → Prop

namespace Results

/-- Values, among which errors stand for themselves. -/
def value (given : Errors) : Results Value where
  fine := Value.Traced given
  stands := Eq

/-- Results that stand for no errors. -/
def plain (post : α → Prop) : Results α where
  fine := post
  stands _ _ := False

/-- A value with something beside it. -/
def paired (given : Errors) (post : α → Prop) : Results (Value × α) where
  fine r := r.1.Traced given ∧ post r.2
  stands e r := e = r.1

/-- An error, or something else. -/
def attempt (given : Errors) (post : α → Prop) : Results (Except Value α) where
  fine
    | .error e => e.Traced given
    | .ok a => post a
  stands e r := r = .error e

end Results

namespace Proc

variable {p q : Proc σ α} {k : α → Proc σ β} {w : World σ} {a : α}

/-- The procedure becomes `q` by nothing but looking at the world. -/
inductive Reduces (w : World σ) : Proc σ α → Proc σ α → Prop
  | refl {p : Proc σ α} : Reduces w p p
  | read {next : World σ → Proc σ α} {q : Proc σ α} (h : Reduces w (next w) q) :
      Reduces w (read next) q

theorem reduces_trans {r : Proc σ α} (h : Reduces w p q) (h' : Reduces w q r) : Reduces w p r := by
  induction h with
  | refl => exact h'
  | read _ ih => exact .read (ih h')

theorem reduces_bind (h : Reduces w p q) : Reduces w (p >>= k) (q >>= k) := by
  induction h with
  | refl => exact .refl
  | read _ ih => exact .read ih

theorem reduces_seq {r : Proc σ β} (h : Reduces w p (done a)) (h' : Reduces w (k a) r) :
    Reduces w (p >>= k) r :=
  reduces_trans (reduces_bind h) h'

theorem reduces_stop? {f : Frame} (h : w.stop? f = none) : Reduces w (stop? f) (done none) := by
  refine .read ?_
  simp only [h]
  exact .refl

/-- An error is the result even if there are arguments left. -/
theorem applyRest_of_isError {v : Value} {f : Frame} (h : v.isError = true) (rest : List Value) :
    applyRest v f rest = (pure v : Proc σ Value) := by
  simp [applyRest, h]

/--
What follows a part, for as long as no signal fires: it ends at once with the error that the part
ends with, or it is the rest of a chain in the code that has yet to come to a recovering segment.
-/
inductive Relays (whole : Option Code) (R : Value → α → Prop) (S : Value → β → Prop)
    (k : α → Proc σ β) (w : World σ) : Prop
  | on (h : ∀ a e w', e.isError = true → R e a → w.Steady w' →
        ∃ b, S e b ∧ Reduces w' (k a) (done b)) :
      Relays whole R S k w
  | toRecovery (rest : List (Segment Code)) (frame : Frame) (last : Value → Proc σ β)
      (hchain : Expr.EndsChain rest whole) (hrest : ∃ s ∈ rest, s.link = .recover)
      (h : ∀ a e w', e.isError = true → R e a → w.Steady w' →
        ∃ scope, Reduces w' (k a) (Expr.evalSegments rest e scope frame >>= last)) :
      Relays whole R S k w

variable {R : Value → α → Prop} {S : Value → β → Prop} {T : Value → γ → Prop}
  {l : β → Proc σ γ} {w' : World σ} {whole : Option Code}

theorem relays_of_eq (h : ∀ a e, e.isError = true → R e a → ∃ b, S e b ∧ k a = pure b) :
    Relays whole R S k w := by
  refine .on fun a e w' he ha _ => ?_
  obtain ⟨b, hb, heq⟩ := h a e he ha
  rw [heq]
  exact ⟨b, hb, .refl⟩

theorem relays_pure : Relays whole R R (pure : α → Proc σ α) w :=
  relays_of_eq fun a _ _ ha => ⟨a, ha, rfl⟩

theorem relays_later (h : Relays whole R S k w) (hw : w.Steady w') : Relays whole R S k w' := by
  cases h with
  | on h => exact .on fun a e w'' he ha hw' => h a e w'' he ha (World.steady_trans hw hw')
  | toRecovery rest frame last hchain hrest h =>
    refine .toRecovery rest frame last hchain hrest fun a e w'' he ha hw' => ?_
    exact h a e w'' he ha (World.steady_trans hw hw')

/-- What follows two parts relays if both do. -/
theorem relays_bind (hk : Relays whole R S k w) (hl : Relays whole S T l w) :
    Relays whole R T (fun a => k a >>= l) w := by
  cases hk with
  | on hk =>
    cases hl with
    | on hl =>
      refine .on fun a e w' he ha hw => ?_
      obtain ⟨b, hb, hreduces⟩ := hk a e w' he ha hw
      obtain ⟨c, hc, hends⟩ := hl b e w' he hb hw
      exact ⟨c, hc, reduces_seq hreduces hends⟩
    | toRecovery rest frame last hchain hrest hl =>
      refine .toRecovery rest frame last hchain hrest fun a e w' he ha hw => ?_
      obtain ⟨b, hb, hreduces⟩ := hk a e w' he ha hw
      obtain ⟨scope, hrun⟩ := hl b e w' he hb hw
      exact ⟨scope, reduces_seq hreduces hrun⟩
  | toRecovery rest frame last hchain hrest hk =>
    refine .toRecovery rest frame (fun v => last v >>= l) hchain hrest fun a e w' he ha hw => ?_
    obtain ⟨scope, hrun⟩ := hk a e w' he ha hw
    refine ⟨scope, ?_⟩
    rw [← bind_bind]
    exact reduces_bind hrun

end Proc

end ChainScript
