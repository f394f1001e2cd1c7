import ChainScript.Builtin
import ChainScript.Proofs.Proc.Mirrors

/-! The functions of the prelude do with renamed arguments what they do with the arguments. -/
namespace ChainScript

variable {σ : Type} {ρ : Renaming σ} {f : Nat → Nat}

namespace Builtin

open Attempt

theorem number_rename (v : Value) :
    Reader.number.read? (v.rename f) = (Reader.number.read? v).map id := by
  cases v <;> rfl

theorem boolean_rename (v : Value) :
    Reader.boolean.read? (v.rename f) = (Reader.boolean.read? v).map id := by
  cases v <;> rfl

theorem value_rename (v : Value) :
    Reader.value.read? (v.rename f) = (Reader.value.read? v).map (.rename f) := rfl

theorem mirrors_sum (frame : Frame) (total : Float) (args : List Value) :
    Attempt.Mirrors ρ (Value.rename ρ.number) (sum frame total args)
      (sum (frame.rename ρ.number) total (args.map (.rename ρ.number))) := by
  induction args generalizing total with
  | nil => exact mirrors_pure (Value.number total)
  | cons v rest ih => exact mirrors_bind (mirrors_forceAs number_rename frame v) fun x => ih _

theorem mirrors_product (frame : Frame) (total : Float) (args : List Value) :
    Attempt.Mirrors ρ (Value.rename ρ.number) (product frame total args)
      (product (frame.rename ρ.number) total (args.map (.rename ρ.number))) := by
  induction args generalizing total with
  | nil => exact mirrors_pure (Value.number total)
  | cons v rest ih => exact mirrors_bind (mirrors_forceAs number_rename frame v) fun x => ih _

theorem map_text_rename (vs : List Value) :
    (vs.map (Value.rename f)).map Value.text = vs.map Value.text := by
  simp only [List.map_map, Function.comp_def, Value.text_rename]

theorem mirrors_runAdd (frame : Frame) (args : List Value) :
    Attempt.Mirrors ρ (Value.rename ρ.number) (runAdd frame args)
      (runAdd (frame.rename ρ.number) (args.map (.rename ρ.number))) := by
  refine mirrors_bind (mirrors_forceAll frame args) fun values => ?_
  cases values with
  | nil => exact mirrors_sum frame 0 []
  | cons v rest =>
    cases v with
    | string s =>
      have htext := map_text_rename (f := ρ.number) (.string s :: rest)
      simp only [List.map_cons, Value.rename] at htext ⊢
      rw [htext]
      exact mirrors_pure (Value.string _)
    | _ => exact mirrors_sum frame 0 _

theorem mirrors_search (stopper : Bool) (frame : Frame) (args : List Value) :
    Attempt.Mirrors ρ (Value.rename ρ.number) (search stopper frame args)
      (search stopper (frame.rename ρ.number) (args.map (.rename ρ.number))) := by
  induction args with
  | nil => exact mirrors_pure (Value.boolean _)
  | cons v rest ih =>
    refine mirrors_bind (mirrors_forceAs boolean_rename frame v) fun b => ?_
    dsimp only [id]
    split
    · exact mirrors_pure (Value.boolean _)
    · exact ih

/-- What is done with two arguments. -/
theorem mirrors_pair {α β : Type} {reader : Reader α} {g : α → α} {g' : β → β}
    {k k' : α → α → Attempt σ β} {frame : Frame} {args : List Value}
    (hread : ∀ v, reader.read? (v.rename ρ.number) = (reader.read? v).map g)
    (h : ∀ a b, Attempt.Mirrors ρ g' (k a b) (k' (g a) (g b))) :
    Attempt.Mirrors ρ g'
      (do
        let a ← argument reader frame args 0
        let b ← argument reader frame args 1
        k a b)
      (do
        let a ← argument reader (frame.rename ρ.number) (args.map (.rename ρ.number)) 0
        let b ← argument reader (frame.rename ρ.number) (args.map (.rename ρ.number)) 1
        k' a b) :=
  mirrors_bind (mirrors_argument hread frame args 0) fun a =>
    mirrors_bind (mirrors_argument hread frame args 1) fun b => h a b

theorem mirrors_dividendAndDivisor (frame : Frame) (args : List Value) :
    Attempt.Mirrors ρ id (dividendAndDivisor frame args)
      (dividendAndDivisor (frame.rename ρ.number) (args.map (.rename ρ.number))) := by
  refine mirrors_pair number_rename fun x y => ?_
  dsimp only [id]
  split
  · exact mirrors_bind (g := id) (mirrors_fail frame _) fun _ => mirrors_pure (x, y)
  · exact mirrors_pure (x, y)

theorem mirrors_compare (frame : Frame) (args : List Value) :
    Attempt.Mirrors ρ id (compare frame args)
      (compare (frame.rename ρ.number) (args.map (.rename ρ.number))) := by
  refine mirrors_pair value_rename fun a b => ?_
  cases a with
  | number x =>
    cases b with
    | number y => exact mirrors_pure (Comparison.ofNumbers x y)
    | _ => exact mirrors_fail frame _
  | string s =>
    cases b with
    | string t => exact mirrors_pure (Comparison.ofStrings s t)
    | _ => exact mirrors_fail frame _
  | _ => exact mirrors_fail frame _

theorem mirrors_compares (outcomes : List Comparison) (frame : Frame) (args : List Value) :
    Attempt.Mirrors ρ (Value.rename ρ.number) (compares outcomes frame args)
      (compares outcomes (frame.rename ρ.number) (args.map (.rename ρ.number))) :=
  mirrors_bind (mirrors_compare frame args) fun _ => mirrors_pure (Value.boolean _)

theorem elements_rename (v : Value) :
    elements (v.rename f) = (elements v).map (List.map (.rename f)) := by
  cases v with
  | array items => exact congrArg Except.ok (Value.renameAll_eq_map items)
  | string s =>
    simp only [Value.rename, elements, Except.map, List.map_map]
    rfl
  | _ => rfl

theorem indexAndCollection_rename (first second : Value) :
    indexAndCollection (first.rename f) (second.rename f) =
      (indexAndCollection first second).map (Prod.map id (.rename f)) := by
  cases second with
  | number x => cases first <;> rfl
  | _ => cases first <;> rfl

theorem elementAt_rename (first second : Value) :
    elementAt (first.rename f) (second.rename f) = (elementAt first second).map (.rename f) := by
  unfold elementAt
  rw [indexAndCollection_rename]
  cases indexAndCollection first second with
  | error cause => rfl
  | ok pair =>
    obtain ⟨x, collection⟩ := pair
    simp only [Except.map, bind, Except.bind, Prod.map, id]
    cases Number.toIndex? x with
    | none => rfl
    | some index =>
      simp only [elements_rename]
      cases elements collection with
      | error cause => rfl
      | ok items =>
        simp only [Except.map, List.getElem?_map, List.length_map]
        cases items[index]? <;> rfl

theorem mirrors_settle {α : Type} {g : α → α} (frame : Frame) (r : Except Cause α) :
    Attempt.Mirrors ρ g (settle frame r) (settle (frame.rename ρ.number) (r.map g)) := by
  cases r with
  | ok a => exact mirrors_pure a
  | error cause => exact mirrors_fail frame cause

theorem mirrors_attempt (op : Builtin) (frame : Frame) (args : List Value) :
    Attempt.Mirrors ρ (Value.rename ρ.number) (attempt op frame args)
      (attempt op (frame.rename ρ.number) (args.map (.rename ρ.number))) := by
  cases op with
  | add => exact mirrors_runAdd frame args
  | sub => exact mirrors_pair number_rename fun x y => mirrors_pure (Value.number (x - y))
  | mul => exact mirrors_product frame 1 args
  | div =>
    exact mirrors_bind (mirrors_dividendAndDivisor frame args) fun r =>
      mirrors_pure (Value.number (r.1 / r.2))
  | rem =>
    exact mirrors_bind (mirrors_dividendAndDivisor frame args) fun r =>
      mirrors_pure (Value.number (Number.remainder r.1 r.2))
  | equal =>
    refine mirrors_pair value_rename fun a b => ?_
    rw [Value.equals_rename ρ.injective]
    exact mirrors_pure (Value.boolean _)
  | less => exact mirrors_compares _ frame args
  | greater => exact mirrors_compares _ frame args
  | lessEqual => exact mirrors_compares _ frame args
  | greaterEqual => exact mirrors_compares _ frame args
  | not =>
    exact mirrors_bind (mirrors_argument boolean_rename frame args 0) fun b =>
      mirrors_pure (Value.boolean !b)
  | and => exact mirrors_search false frame args
  | or => exact mirrors_search true frame args
  | element =>
    refine mirrors_pair value_rename fun first second => ?_
    rw [elementAt_rename]
    exact mirrors_settle frame _
  | length =>
    refine mirrors_bind (mirrors_argument value_rename frame args 0) fun v => ?_
    rw [elements_rename]
    refine mirrors_bind (mirrors_settle frame _) fun items => ?_
    rw [List.length_map]
    exact mirrors_pure (Value.number _)
  | error =>
    refine mirrors_bind (mirrors_argument value_rename frame args 0) fun v => ?_
    rw [Value.text_rename]
    exact mirrors_fail frame _
  | print =>
    refine mirrors_bind (mirrors_forceAll frame args) fun values => ?_
    rw [map_text_rename, List.getLastD_eq_getLast?, List.getLastD_eq_getLast?, List.getLast?_map]
    refine mirrors_bind (mirrors_lift (Proc.mirrors_modify ?_ ?_)) fun _ => ?_
    · exact fun w => rfl
    · exact fun w => rfl
    · cases values.getLast? with
      | none => exact mirrors_pure (Value.array [])
      | some v => exact mirrors_pure v

theorem mirrors_run (op : Builtin) (frame : Frame) (args : List Value) :
    Proc.Mirrors ρ (Value.rename ρ.number) (run op frame args)
      (run op (frame.rename ρ.number) (args.map (.rename ρ.number))) :=
  mirrors_result (mirrors_attempt op frame args)

end Builtin

end ChainScript
