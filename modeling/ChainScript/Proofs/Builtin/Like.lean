import ChainScript.Builtin
import ChainScript.Proofs.Proc.Like

/-! The functions of the prelude do alike things with alike arguments. -/
namespace ChainScript

variable {σ α : Type} {S : Setting σ} {R : α → α → Prop} {frame frame' : Frame}
  {u u' v v' : Value} {args args' : List Value}

/-- The same cause, or related results. -/
inductive SameCause (R : α → α → Prop) : Except Cause α → Except Cause α → Prop
  | error (cause : Cause) : SameCause R (.error cause) (.error cause)
  | ok {a b : α} (h : R a b) : SameCause R (.ok a) (.ok b)

namespace Builtin

open Attempt

theorem rel_number (h : Solid S v v') :
    Option.Rel Eq (Reader.number.read? v) (Reader.number.read? v') := by
  obtain ⟨h, -⟩ := h
  cases h <;> first | exact .none | exact .some rfl

theorem rel_boolean (h : Solid S v v') :
    Option.Rel Eq (Reader.boolean.read? v) (Reader.boolean.read? v') := by
  obtain ⟨h, -⟩ := h
  cases h <;> first | exact .none | exact .some rfl

theorem rel_value (h : Solid S v v') :
    Option.Rel (Solid S) (Reader.value.read? v) (Reader.value.read? v') := .some h

theorem elements_like (h : S.Like v v') :
    SameCause S.LikeAll (elements v) (elements v') := by
  cases h with
  | array hlength hitems _ => exact .ok (forall₂_iff_forall_zip.mpr ⟨hlength, hitems⟩)
  | string s =>
    refine .ok (List.forall₂_same.mpr fun c hc => ?_)
    obtain ⟨c, -, rfl⟩ := List.mem_map.mp hc
    exact .string _
  | _ => exact .error _

theorem indexAndCollection_like (h : S.Like u u') (h' : S.Like v v') :
    SameCause (fun a b => a.1 = b.1 ∧ S.Like a.2 b.2) (indexAndCollection u v)
      (indexAndCollection u' v') := by
  have hv := h'
  cases h' with
  | number x =>
    have hfirst (w : Value) : indexAndCollection w (.number x) = .ok (x, w) := by cases w <;> rfl
    rw [hfirst, hfirst]
    exact .ok ⟨rfl, h⟩
  | _ => cases h <;> first | exact .ok ⟨rfl, hv⟩ | exact .error _

theorem elementAt_like (h : S.Like u u') (h' : S.Like v v') :
    SameCause S.Like (elementAt u v) (elementAt u' v') := by
  have hindex := indexAndCollection_like h h'
  unfold elementAt
  generalize indexAndCollection u v = r at hindex ⊢
  generalize indexAndCollection u' v' = r' at hindex ⊢
  cases hindex with
  | error cause => exact .error cause
  | @ok a b hab =>
    obtain ⟨x, collection⟩ := a
    obtain ⟨x', collection'⟩ := b
    obtain ⟨rfl, hcollection⟩ : x = x' ∧ S.Like collection collection' := hab
    have helements := elements_like hcollection
    simp only [bind, Except.bind]
    cases Number.toIndex? x with
    | none => exact .error _
    | some index =>
      dsimp only
      generalize elements collection = r at helements ⊢
      generalize elements collection' = r' at helements ⊢
      cases helements with
      | error cause => exact .error cause
      | @ok items items' hitems =>
        have hlength : items'.length = items.length := hitems.length_eq.symm
        dsimp only
        obtain ⟨ha, hb⟩ | ⟨a, b, ha, hb, hab⟩ := Option.rel_cases (rel_getElem? hitems index)
        · rw [ha, hb, hlength]
          exact .error _
        · rw [ha, hb]
          exact .ok hab

section Frame

variable (hframe : frame.Like S.toLikeness frame')

include hframe

theorem alike_settle {r r' : Except Cause α} (h : SameCause R r r') :
    Alike S R (settle frame r) (settle frame' r') := by
  cases h with
  | ok hab => exact alike_pure hab
  | error cause => exact alike_fail hframe cause

variable (hargs : S.LikeAll args args')

include hargs

theorem alike_sum (total : Float) :
    Alike S S.Like (sum frame total args) (sum frame' total args') := by
  induction hargs generalizing total with
  | nil => exact alike_pure (.number total)
  | cons hv _ ih =>
    refine alike_bind (alike_forceAs hframe (fun _ _ => rel_number) hv) ?_
    rintro x _ rfl
    exact ih _

theorem alike_product (total : Float) :
    Alike S S.Like (product frame total args) (product frame' total args') := by
  induction hargs generalizing total with
  | nil => exact alike_pure (.number total)
  | cons hv _ ih =>
    refine alike_bind (alike_forceAs hframe (fun _ _ => rel_number) hv) ?_
    rintro x _ rfl
    exact ih _

theorem alike_search (stopper : Bool) :
    Alike S S.Like (search stopper frame args) (search stopper frame' args') := by
  induction hargs with
  | nil => exact alike_pure (.boolean _)
  | cons hv _ ih =>
    refine alike_bind (alike_forceAs hframe (fun _ _ => rel_boolean) hv) ?_
    rintro b _ rfl
    split
    · exact alike_pure (.boolean _)
    · exact ih

/-- What is done with two arguments. -/
theorem alike_pair {β : Type} {Q : β → β → Prop} {reader : Reader α} {k k' : α → α → Attempt σ β}
    (hread : ∀ u u', Solid S u u' → Option.Rel R (reader.read? u) (reader.read? u'))
    (h : ∀ a a' b b', R a a' → R b b' → Attempt.Alike S Q (k a b) (k' a' b')) :
    Attempt.Alike S Q
      (do
        let a ← argument reader frame args 0
        let b ← argument reader frame args 1
        k a b)
      (do
        let a ← argument reader frame' args' 0
        let b ← argument reader frame' args' 1
        k' a b) :=
  alike_bind (alike_argument hframe hread hargs 0) fun a a' ha =>
    alike_bind (alike_argument hframe hread hargs 1) fun b b' hb => h a a' b b' ha hb

theorem alike_dividendAndDivisor :
    Alike S Eq (dividendAndDivisor frame args) (dividendAndDivisor frame' args') := by
  refine alike_pair hframe hargs (fun _ _ => rel_number) ?_
  rintro x _ y _ rfl rfl
  split
  · exact alike_bind (alike_fail (R := Eq) hframe _) fun _ _ _ => alike_pure rfl
  · exact alike_pure rfl

theorem alike_compare : Alike S Eq (compare frame args) (compare frame' args') := by
  refine alike_pair hframe hargs (fun _ _ => rel_value) ?_
  rintro a a' b b' ⟨ha, -⟩ ⟨hb, -⟩
  cases ha with
  | number x =>
    cases hb with
    | number y => exact alike_pure rfl
    | _ => exact alike_fail hframe _
  | string t =>
    cases hb with
    | string t' => exact alike_pure rfl
    | _ => exact alike_fail hframe _
  | _ => exact alike_fail hframe _

theorem alike_compares (outcomes : List Comparison) :
    Alike S S.Like (compares outcomes frame args) (compares outcomes frame' args') := by
  refine alike_bind (alike_compare hframe hargs) ?_
  rintro c _ rfl
  exact alike_pure (.boolean _)

end Frame

theorem text_of_solid (h : Solid S v v') : v.text = v'.text :=
  Value.text_of_firm v v' (Value.firm_of_not_isError h.1 h.2)

theorem map_text_like {vs vs' : List Value} (h : List.Forall₂ (Solid S) vs vs') :
    vs.map Value.text = vs'.map Value.text := by
  induction h with
  | nil => rfl
  | cons hv _ ih => rw [List.map_cons, List.map_cons, text_of_solid hv, ih]

theorem likeAll_of_solid {vs vs' : List Value} (h : List.Forall₂ (Solid S) vs vs') :
    S.LikeAll vs vs' := h.imp fun _ _ h => h.1

theorem getLastD_like {vs vs' : List Value} {d d' : Value} (h : S.LikeAll vs vs')
    (hd : S.Like d d') : S.Like (vs.getLastD d) (vs'.getLastD d') := by
  induction h generalizing d d' with
  | nil => exact hd
  | cons hv _ ih =>
    rw [List.getLastD_cons, List.getLastD_cons]
    exact ih hv

theorem alike_runAdd (hframe : frame.Like S.toLikeness frame') (hargs : S.LikeAll args args') :
    Alike S S.Like (runAdd frame args) (runAdd frame' args') := by
  refine alike_bind (alike_forceAll hframe hargs) fun vs vs' hvs => ?_
  have htexts := map_text_like hvs
  cases hvs with
  | nil => exact alike_sum hframe .nil 0
  | @cons v v' _ _ hv hrest =>
    have hall := likeAll_of_solid (.cons hv hrest)
    obtain ⟨hlike, -⟩ := hv
    cases hlike with
    | string s =>
      change Alike S S.Like (pure (.string (String.join (List.map Value.text _))) : Attempt σ Value)
        (pure (.string (String.join (List.map Value.text _))))
      rw [htexts]
      exact alike_pure (.string _)
    | _ => exact alike_sum hframe hall 0

theorem alike_attempt (op : Builtin) (hframe : frame.Like S.toLikeness frame')
    (hargs : S.LikeAll args args') :
    Alike S S.Like (attempt op frame args) (attempt op frame' args') := by
  cases op with
  | add => exact alike_runAdd hframe hargs
  | sub =>
    refine alike_pair hframe hargs (fun _ _ => rel_number) ?_
    rintro x _ y _ rfl rfl
    exact alike_pure (.number _)
  | mul => exact alike_product hframe hargs 1
  | div =>
    refine alike_bind (alike_dividendAndDivisor hframe hargs) ?_
    rintro r _ rfl
    exact alike_pure (.number _)
  | rem =>
    refine alike_bind (alike_dividendAndDivisor hframe hargs) ?_
    rintro r _ rfl
    exact alike_pure (.number _)
  | equal =>
    refine alike_pair hframe hargs (fun _ _ => rel_value) fun a a' b b' ha hb => ?_
    rw [Value.equals_of_like _ _ _ _ ha.1 hb.1]
    exact alike_pure (.boolean _)
  | less | greater | lessEqual | greaterEqual => exact alike_compares hframe hargs _
  | not =>
    refine alike_bind (alike_argument hframe (fun _ _ => rel_boolean) hargs 0) ?_
    rintro b _ rfl
    exact alike_pure (.boolean _)
  | and => exact alike_search hframe hargs false
  | or => exact alike_search hframe hargs true
  | element =>
    exact alike_pair hframe hargs (fun _ _ => rel_value) fun a a' b b' ha hb =>
      alike_settle hframe (elementAt_like ha.1 hb.1)
  | length =>
    refine alike_bind (alike_argument hframe (fun _ _ => rel_value) hargs 0) fun v v' hv => ?_
    refine alike_bind (alike_settle hframe (elements_like hv.1)) fun items items' hitems => ?_
    rw [hitems.length_eq]
    exact alike_pure (.number _)
  | error =>
    refine alike_bind (alike_argument hframe (fun _ _ => rel_value) hargs 0) fun v v' hv => ?_
    rw [text_of_solid hv]
    exact alike_fail hframe _
  | print =>
    refine alike_bind (alike_forceAll hframe hargs) fun vs vs' hvs => ?_
    rw [map_text_like hvs]
    refine alike_bind (alike_lift (Proc.alike_modify fun _ => rfl)) fun _ _ _ => ?_
    exact alike_pure (getLastD_like (likeAll_of_solid hvs) (Value.array_like_iff.mpr .nil))

theorem alike_run (op : Builtin) (hframe : frame.Like S.toLikeness frame')
    (hargs : S.LikeAll args args') :
    Proc.Alike S S.Like (run op frame args) (run op frame' args') :=
  alike_result (alike_attempt op hframe hargs)

end Builtin

end ChainScript
