import ChainScript.Proofs.Builtin.Mirrors
import ChainScript.Proofs.Proc.Forward

/-! The functions of the prelude take no numbers but those of their errors. -/
namespace ChainScript

variable {σ : Type} {n : Nat} {frame : Frame} {args : List Value}

namespace Builtin

open Attempt

/-- Nothing is asked of what has no numbers in it. -/
abbrev Free {α : Type} (_ : α) (_ : Nat) : Prop := True

theorem free_of_read {α : Type} {reader : Reader α} (u : Value) (a : α) (n n' : Nat)
    (_ : u.Below n) (_ : reader.read? u = some a) (_ : n ≤ n') : Free a n' := trivial

theorem keeps_sum (hargs : ∀ a ∈ args, a.Below n) (hs : frame.scope.Below n) (total : Float) :
    Attempt.Keeps n Value.Below (sum frame total args : Attempt σ Value) := by
  induction args generalizing n total with
  | nil => exact keeps_pure fun _ _ => Value.below_number _
  | cons v rest ih =>
    obtain ⟨hv, hrest⟩ := List.forall_mem_cons.mp hargs
    refine keeps_bind (keeps_forceAs free_of_read hv hs) ?_
    exact fun x n' hn _ =>
      ih (fun a ha => below_mono (hrest a ha) hn) (below_mono hs hn) (total + x)

theorem keeps_product (hargs : ∀ a ∈ args, a.Below n) (hs : frame.scope.Below n) (total : Float) :
    Attempt.Keeps n Value.Below (product frame total args : Attempt σ Value) := by
  induction args generalizing n total with
  | nil => exact keeps_pure fun _ _ => Value.below_number _
  | cons v rest ih =>
    obtain ⟨hv, hrest⟩ := List.forall_mem_cons.mp hargs
    refine keeps_bind (keeps_forceAs free_of_read hv hs) ?_
    exact fun x n' hn _ =>
      ih (fun a ha => below_mono (hrest a ha) hn) (below_mono hs hn) (total * x)

theorem keeps_search (stopper : Bool) (hargs : ∀ a ∈ args, a.Below n) (hs : frame.scope.Below n) :
    Attempt.Keeps n Value.Below (search stopper frame args : Attempt σ Value) := by
  induction args generalizing n with
  | nil => exact keeps_pure fun _ _ => Value.below_boolean _
  | cons v rest ih =>
    obtain ⟨hv, hrest⟩ := List.forall_mem_cons.mp hargs
    refine keeps_bind (keeps_forceAs free_of_read hv hs) ?_
    intro b n' hn _
    split
    · exact keeps_pure fun _ _ => Value.below_boolean _
    · exact ih (fun a ha => below_mono (hrest a ha) hn) (below_mono hs hn)

theorem keeps_runAdd (hargs : ∀ a ∈ args, a.Below n) (hs : frame.scope.Below n) :
    Attempt.Keeps n Value.Below (runAdd frame args : Attempt σ Value) := by
  refine keeps_bind (keeps_forceAll hargs hs) fun values n' hn hvalues => ?_
  split
  · exact keeps_pure fun _ _ => Value.below_string _
  · exact keeps_sum hvalues (below_mono hs hn) 0

/-- What is done with two arguments. -/
theorem keeps_pair {α β : Type} {reader : Reader α} {P : α → Nat → Prop}
    {Q : β → Nat → Prop} {k : α → α → Attempt σ β}
    (hread : ∀ u a n n', u.Below n → reader.read? u = some a → n ≤ n' → P a n')
    (hmono : ∀ a n n', P a n → n ≤ n' → P a n')
    (hargs : ∀ a ∈ args, a.Below n) (hs : frame.scope.Below n)
    (h : ∀ a b n', n ≤ n' → P a n' → P b n' → Attempt.Keeps n' Q (k a b)) :
    Attempt.Keeps n Q
      (do
        let a ← argument reader frame args 0
        let b ← argument reader frame args 1
        k a b) := by
  refine keeps_bind (keeps_argument hread hargs hs 0) fun a n₁ hn₁ ha => ?_
  have hlater := keeps_argument (σ := σ) hread (fun a ha => below_mono (hargs a ha) hn₁)
    (below_mono hs hn₁) 1
  exact keeps_bind hlater fun b n₂ hn₂ hb =>
    h a b n₂ (Nat.le_trans hn₁ hn₂) (hmono a n₁ n₂ ha hn₂) hb

theorem below_of_read {u a : Value} {n n' : Nat} (hu : u.Below n)
    (h : Reader.value.read? u = some a) (hn : n ≤ n') : a.Below n' := by
  obtain rfl := Option.some.inj h
  exact below_mono hu hn

theorem keeps_values {β : Type} {Q : β → Nat → Prop} {k : Value → Value → Attempt σ β}
    (hargs : ∀ a ∈ args, a.Below n) (hs : frame.scope.Below n)
    (h : ∀ a b n', n ≤ n' → a.Below n' → b.Below n' → Attempt.Keeps n' Q (k a b)) :
    Attempt.Keeps n Q
      (do
        let a ← argument Reader.value frame args 0
        let b ← argument Reader.value frame args 1
        k a b) :=
  keeps_pair (fun _ _ _ _ => below_of_read) (fun _ _ _ => below_mono) hargs hs h

theorem keeps_numbers {β : Type} {Q : β → Nat → Prop} {k : Float → Float → Attempt σ β}
    (hargs : ∀ a ∈ args, a.Below n) (hs : frame.scope.Below n)
    (h : ∀ x y n', Attempt.Keeps n' Q (k x y)) :
    Attempt.Keeps n Q
      (do
        let x ← argument Reader.number frame args 0
        let y ← argument Reader.number frame args 1
        k x y) :=
  keeps_pair free_of_read (fun _ _ _ _ _ => trivial) hargs hs
    fun x y n' _ _ _ => h x y n'

theorem keeps_dividendAndDivisor (hargs : ∀ a ∈ args, a.Below n) (hs : frame.scope.Below n) :
    Attempt.Keeps n Free (dividendAndDivisor frame args : Attempt σ (Float × Float)) := by
  refine keeps_numbers hargs hs fun x y n' => ?_
  split
  · exact keeps_bind (P := Free) (keeps_fail frame _) fun _ _ _ _ => keeps_pure fun _ _ => trivial
  · exact keeps_pure fun _ _ => trivial

theorem keeps_compares (outcomes : List Comparison) (hargs : ∀ a ∈ args, a.Below n)
    (hs : frame.scope.Below n) :
    Attempt.Keeps n Value.Below (compares outcomes frame args : Attempt σ Value) := by
  have hcompare : Attempt.Keeps n Free (compare frame args : Attempt σ Comparison) := by
    refine keeps_values hargs hs fun a b n' _ _ _ => ?_
    split
    · exact keeps_pure fun _ _ => trivial
    · exact keeps_pure fun _ _ => trivial
    · exact keeps_fail frame _
    · exact keeps_fail frame _
    · exact keeps_fail frame _
  exact keeps_bind hcompare fun _ _ _ _ => keeps_pure fun _ _ => Value.below_boolean _

theorem keeps_settle {α : Type} {P : α → Nat → Prop} {r : Except Cause α}
    (h : ∀ a, r = .ok a → ∀ n', n ≤ n' → P a n') :
    Attempt.Keeps n P (settle frame r : Attempt σ α) := by
  cases r with
  | ok a => exact keeps_pure (h a rfl)
  | error cause => exact keeps_fail frame cause

theorem below_elementAt {first second v : Value} (hfirst : first.Below n)
    (hsecond : second.Below n) (h : elementAt first second = .ok v) : v.Below n := by
  intro m hm
  have hrename := elementAt_rename (f := bump m) first second
  rw [hfirst m hm, hsecond m hm, h] at hrename
  exact (Except.ok.inj hrename).symm

theorem keeps_attempt (op : Builtin) (hargs : ∀ a ∈ args, a.Below n) (hs : frame.scope.Below n) :
    Attempt.Keeps n Value.Below (attempt op frame args : Attempt σ Value) := by
  cases op with
  | add => exact keeps_runAdd hargs hs
  | sub => exact keeps_numbers hargs hs fun _ _ _ => keeps_pure fun _ _ => Value.below_number _
  | mul => exact keeps_product hargs hs 1
  | div =>
    exact keeps_bind (keeps_dividendAndDivisor hargs hs) fun _ _ _ _ =>
      keeps_pure fun _ _ => Value.below_number _
  | rem =>
    exact keeps_bind (keeps_dividendAndDivisor hargs hs) fun _ _ _ _ =>
      keeps_pure fun _ _ => Value.below_number _
  | equal =>
    exact keeps_values hargs hs fun _ _ _ _ _ _ => keeps_pure fun _ _ => Value.below_boolean _
  | less => exact keeps_compares _ hargs hs
  | greater => exact keeps_compares _ hargs hs
  | lessEqual => exact keeps_compares _ hargs hs
  | greaterEqual => exact keeps_compares _ hargs hs
  | not =>
    exact keeps_bind (keeps_argument free_of_read hargs hs 0)
      fun _ _ _ _ => keeps_pure fun _ _ => Value.below_boolean _
  | and => exact keeps_search false hargs hs
  | or => exact keeps_search true hargs hs
  | element =>
    refine keeps_values hargs hs fun first second n' _ hfirst hsecond => keeps_settle ?_
    exact fun v hv n'' hn => below_mono (below_elementAt hfirst hsecond hv) hn
  | length =>
    refine keeps_bind (keeps_argument (fun _ _ _ _ => below_of_read) hargs hs 0) ?_
    intro v n' _ hv
    refine keeps_bind (P := Free) (keeps_settle fun _ _ _ _ => trivial) fun _ _ _ _ => ?_
    exact keeps_pure fun _ _ => Value.below_number _
  | error =>
    exact keeps_bind (keeps_argument (fun _ _ _ _ => below_of_read) hargs hs 0)
      fun v n' _ _ => keeps_fail frame _
  | print =>
    refine keeps_bind (keeps_forceAll hargs hs) fun values n₁ _ hvalues => ?_
    refine keeps_bind (keeps_lift (Proc.keeps_modify fun w _ hw => ?_)
      fun _ _ _ _ _ => trivial) fun _ n₂ hn₂ _ => ?_
    · exact ⟨⟨rfl, rfl⟩, Nat.le_refl _, World.numbered_of_caches hw rfl (Nat.le_refl _)⟩
    · refine keeps_pure fun n₃ hn₃ => ?_
      rw [List.getLastD_eq_getLast?]
      cases hlast : values.getLast? with
      | none => exact Value.below_array_iff.mpr (List.forall_mem_nil _)
      | some v => exact below_mono (hvalues v (List.mem_of_getLast? hlast)) (Nat.le_trans hn₂ hn₃)

theorem keeps_run (op : Builtin) (hargs : ∀ a ∈ args, a.Below n) (hs : frame.scope.Below n) :
    Proc.Keeps n Value.Below (run op frame args : Proc σ Value) :=
  keeps_result (keeps_attempt op hargs hs)

end Builtin

end ChainScript
