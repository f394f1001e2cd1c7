import Mathlib.Data.List.Forall2
import ChainScript.Proofs.Eval.Data
import ChainScript.Proofs.Value.Equal

/-!
Values that are alike: they are built in the same way with the same numbers, and differ only in the
calls that their errors blame. A value that is alike to itself is one whose functions that wait for
arguments are as they are asked to be.
-/
namespace ChainScript

theorem forall₂_iff_forall_zip {α β : Type} {R : α → β → Prop} {as : List α} {bs : List β} :
    List.Forall₂ R as bs ↔ as.length = bs.length ∧ ∀ e ∈ as.zip bs, R e.1 e.2 := by
  simp [List.forall₂_iff_zip]

theorem eq_of_forall_zip {α : Type} {as bs : List α} (hlength : as.length = bs.length)
    (h : ∀ e ∈ as.zip bs, e.1 = e.2) : as = bs := by
  rw [← List.forall₂_eq_eq_eq]
  exact forall₂_iff_forall_zip.mpr ⟨hlength, h⟩

theorem eq_of_mem_zip_self {α : Type} {as : List α} {e : α × α} (h : e ∈ as.zip as) :
    e.1 = e.2 := by
  have hself : List.Forall₂ (fun a b => a = b) as as := List.forall₂_same.mpr fun _ _ => rfl
  exact List.forall₂_zip hself h

/-- Both options are empty, or they have related contents. -/
theorem Option.rel_cases {α β : Type} {R : α → β → Prop} {a : Option α} {b : Option β}
    (h : Option.Rel R a b) :
    (a = none ∧ b = none) ∨ ∃ x y, a = some x ∧ b = some y ∧ R x y := by
  cases h with
  | none => exact .inl ⟨rfl, rfl⟩
  | some h => exact .inr ⟨_, _, rfl, rfl, h⟩

theorem rel_getElem? {α β : Type} {R : α → β → Prop} {as : List α} {bs : List β}
    (h : List.Forall₂ R as bs) (i : Nat) : Option.Rel R as[i]? bs[i]? := by
  induction h generalizing i with
  | nil => exact .none
  | cons hab _ ih =>
    cases i with
    | zero => exact .some hab
    | succ i => exact ih i

namespace Table

variable {κ α β : Type} {R : α → β → Prop}

/-- The tables have the same keys in the same order, and related values. -/
abbrev Related (R : α → β → Prop) : Table κ α → Table κ β → Prop :=
  List.Forall₂ fun e e' => e.1 = e'.1 ∧ R e.2 e'.2

theorem related_iff {t : Table κ α} {t' : Table κ β} :
    Related R t t' ↔ t.length = t'.length ∧ (∀ e ∈ t.zip t', e.1.1 = e.2.1) ∧
      ∀ e ∈ t.zip t', R e.1.2 e.2.2 := by
  rw [Related, forall₂_iff_forall_zip]
  exact and_congr_right fun _ => ⟨fun h => ⟨fun e he => (h e he).1, fun e he => (h e he).2⟩,
    fun h e he => ⟨h.1 e he, h.2 e he⟩⟩

/-- Names that are given values in turn. -/
theorem related_zip {vs : List α} {vs' : List β} (h : List.Forall₂ R vs vs') (names : List κ) :
    Related R (names.zip vs) (names.zip vs') := by
  induction h generalizing names with
  | nil => simp
  | cons hv _ ih =>
    cases names with
    | nil => exact .nil
    | cons x names => exact .cons ⟨rfl, hv⟩ (ih names)

variable [DecidableEq κ]

theorem related_get? {t : Table κ α} {t' : Table κ β} (h : Related R t t') (k : κ) :
    Option.Rel R (get? k t) (get? k t') := by
  induction h with
  | nil => exact .none
  | @cons e e' _ _ he _ ih =>
    obtain ⟨j, v⟩ := e
    obtain ⟨j', v'⟩ := e'
    obtain ⟨rfl, hv⟩ : j = j' ∧ R v v' := he
    unfold get?
    split
    · exact .some hv
    · exact ih

theorem related_insert {t : Table κ α} {t' : Table κ β} {v : α} {v' : β} (h : Related R t t')
    (hv : R v v') (k : κ) : Related R (insert k v t) (insert k v' t') := by
  induction h with
  | nil => exact .cons ⟨rfl, hv⟩ .nil
  | @cons e e' _ _ he hrest ih =>
    obtain ⟨j, u⟩ := e
    obtain ⟨j', u'⟩ := e'
    obtain ⟨rfl, hu⟩ : j = j' ∧ R u u' := he
    unfold insert
    split
    · exact .cons ⟨rfl, hv⟩ hrest
    · exact .cons ⟨rfl, hu⟩ ih

theorem related_insertAll {es : List (κ × α)} {es' : List (κ × β)} {t : Table κ α}
    {t' : Table κ β} (h : Related R es es') (ht : Related R t t') :
    Related R (insertAll es t) (insertAll es' t') := by
  induction h generalizing t t' with
  | nil => exact ht
  | @cons e e' _ _ he _ ih =>
    obtain ⟨j, u⟩ := e
    obtain ⟨j', u'⟩ := e'
    obtain ⟨rfl, hu⟩ : j = j' ∧ R u u' := he
    exact ih (related_insert ht hu j)

theorem related_ofList {es : List (κ × α)} {es' : List (κ × β)} (h : Related R es es') :
    Related R (ofList es) (ofList es') :=
  related_insertAll h .nil

end Table

/--
What values are allowed to differ in, and what is asked of them. Calls blamed by errors may differ
by `path`, and of a function that waits for the rest of its arguments `waiting` is asked, which
holds of those that calls make.
-/
structure Likeness where
  path : CallPath → CallPath → Prop
  waiting : Value → List Value → Nat → Order → Prop
  path_refl : ∀ p, path p p
  path_push : ∀ {p q}, path p q → ∀ name, path (p.push name) (q.push name)
  waiting_native : ∀ {n args}, args ≠ [] → args.length < n.arity.required →
    waiting (.native n) args n.arity.required n.order
  waiting_closure : ∀ {id l scope args}, args ≠ [] → args.length < l.params.length →
    waiting (.closure id l scope) args l.params.length .savedFirst
  waiting_combine : ∀ {func saved arity order args}, waiting func saved arity order →
    (Call.combine order saved args).length < arity →
    waiting func (Call.combine order saved args) arity order

variable {ℓ : Likeness}

mutual
/--
The values are alike. Errors in arrays and functions that are errors show in texts, so they have to
be the same.
-/
inductive Value.Like (ℓ : Likeness) : Value → Value → Prop
  | number (x : Float) : Value.Like ℓ (.number x) (.number x)
  | string (s : String) : Value.Like ℓ (.string s) (.string s)
  | boolean (b : Bool) : Value.Like ℓ (.boolean b) (.boolean b)
  | array {vs ws : List Value} (hlength : vs.length = ws.length)
      (hitems : ∀ e ∈ vs.zip ws, Value.Like ℓ e.1 e.2)
      (herrors : ∀ e ∈ vs.zip ws, e.1.isError = true → e.1 = e.2) :
      Value.Like ℓ (.array vs) (.array ws)
  | error (id : Nat) {f g : Failure} (hcause : f.cause = g.cause) (hpath : ℓ.path f.path g.path) :
      Value.Like ℓ (.error id f) (.error id g)
  | module {s t : Namespace} (hspace : Namespace.Like ℓ s t) :
      Value.Like ℓ (.module s) (.module t)
  | native (n : Native) : Value.Like ℓ (.native n) (.native n)
  | closure (id : Nat) (l : Lambda Code) {s t : Scope} (hscope : Scope.Like ℓ s t) :
      Value.Like ℓ (.closure id l s) (.closure id l t)
  | curried (id : Nat) {f g : Value} {vs ws : List Value} {arity : Nat} {order : Order}
      (hfunc : Value.Like ℓ f g) (herror : f.isError = true → f = g)
      (hlength : vs.length = ws.length) (hsaved : ∀ e ∈ vs.zip ws, Value.Like ℓ e.1 e.2)
      (hwaiting : ℓ.waiting f vs arity order) :
      Value.Like ℓ (.curried id f vs arity order) (.curried id g ws arity order)
  | thunk (id : Option Nat) (code : Code) {s t : Scope} (hscope : Scope.Like ℓ s t) :
      Value.Like ℓ (.thunk id code s) (.thunk id code t)
  | code (id : Nat) (code : Code) : Value.Like ℓ (.code id code) (.code id code)
inductive Namespace.Like (ℓ : Likeness) : Namespace → Namespace → Prop
  | mk {m n : Module} {s t : Scope} (hmodule : Module.Like ℓ m n) (hscope : Scope.Like ℓ s t) :
      Namespace.Like ℓ ⟨m, s⟩ ⟨n, t⟩
inductive Scope.Like (ℓ : Likeness) : Scope → Scope → Prop
  | root : Scope.Like ℓ .root .root
  | bound {xs ys : List (String × Value)} {s t : Scope} (hlength : xs.length = ys.length)
      (hkeys : ∀ e ∈ xs.zip ys, e.1.1 = e.2.1) (hnames : ∀ e ∈ xs.zip ys, Value.Like ℓ e.1.2 e.2.2)
      (houter : Scope.Like ℓ s t) : Scope.Like ℓ (.bound xs s) (.bound ys t)
  | module {m n : Module} {s t : Scope} (hmodule : Module.Like ℓ m n) (houter : Scope.Like ℓ s t) :
      Scope.Like ℓ (.module m s) (.module n t)
  | members {p q : Namespace} {s t : Scope} (hspace : Namespace.Like ℓ p q)
      (houter : Scope.Like ℓ s t) : Scope.Like ℓ (.members p s) (.members q t)
inductive Module.Like (ℓ : Likeness) : Module → Module → Prop
  | mk (id : Nat) {is js : List (String × Module)} {ds es : List (String × Decl)}
      (himports : is.length = js.length) (hikeys : ∀ e ∈ is.zip js, e.1.1 = e.2.1)
      (hmodules : ∀ e ∈ is.zip js, Module.Like ℓ e.1.2 e.2.2)
      (hdecls : ds.length = es.length) (hdkeys : ∀ e ∈ ds.zip es, e.1.1 = e.2.1)
      (hlikes : ∀ e ∈ ds.zip es, Decl.Like ℓ e.1.2 e.2.2) :
      Module.Like ℓ ⟨id, is, ds⟩ ⟨id, js, es⟩
inductive Decl.Like (ℓ : Likeness) : Decl → Decl → Prop
  | lambda (l : Lambda Code) : Decl.Like ℓ (.lambda l) (.lambda l)
  | value {v w : Value} (h : Value.Like ℓ v w) : Decl.Like ℓ (.value v) (.value w)
end

/-- Alike, and the same if they are errors. -/
def Value.Firm (ℓ : Likeness) (v w : Value) : Prop := v.Like ℓ w ∧ (v.isError = true → v = w)

namespace Value

variable {v w v' w' : Value} {vs ws : List Value} {s t : Scope}

theorem array_like_iff : (array vs).Like ℓ (array ws) ↔ List.Forall₂ (Firm ℓ) vs ws := by
  rw [forall₂_iff_forall_zip]
  constructor
  · rintro (_ | _ | _ | ⟨hlength, hitems, herrors⟩)
    exact ⟨hlength, fun e he => ⟨hitems e he, herrors e he⟩⟩
  · exact fun ⟨hlength, h⟩ => .array hlength (fun e he => (h e he).1) fun e he => (h e he).2

theorem like_curried (id : Nat) {f g : Value} {arity : Nat} {order : Order} (hfunc : f.Firm ℓ g)
    (hsaved : List.Forall₂ (Like ℓ) vs ws) (hwaiting : ℓ.waiting f vs arity order) :
    (curried id f vs arity order).Like ℓ (curried id g ws arity order) := by
  obtain ⟨hlength, hitems⟩ := forall₂_iff_forall_zip.mp hsaved
  exact .curried id hfunc.1 hfunc.2 hlength hitems hwaiting

theorem firm_of_not_isError (h : v.Like ℓ w) (hv : v.isError = false) : v.Firm ℓ w :=
  ⟨h, fun herror => absurd (hv.symm.trans herror) nofun⟩

section Shape

variable (h : v.Like ℓ w)

include h

theorem isError_of_like : w.isError = v.isError := by cases h <;> rfl

theorem isPlain_of_like : w.isPlain = v.isPlain := by cases h <;> rfl

theorem typeName_of_like : w.typeName = v.typeName := by cases h <;> rfl

theorem isReversedNative_of_like : w.isReversedNative = v.isReversedNative := by cases h <;> rfl

theorem identity?_of_like : w.identity? = v.identity? := by
  cases h with
  | module hspace => obtain ⟨⟨id, _, _, _, _, _, _⟩, _⟩ := hspace; rfl
  | code id e => rfl
  | _ => rfl

end Shape

end Value

theorem Scope.bound_like_iff {xs ys : List (String × Value)} {s t : Scope} :
    (Scope.bound xs s).Like ℓ (.bound ys t) ↔
      Table.Related (Value.Like ℓ) xs ys ∧ s.Like ℓ t := by
  rw [Table.related_iff]
  constructor
  · rintro (_ | ⟨hlength, hkeys, hnames, houter⟩)
    exact ⟨⟨hlength, hkeys, hnames⟩, houter⟩
  · exact fun ⟨⟨hlength, hkeys, hnames⟩, houter⟩ => .bound hlength hkeys hnames houter

theorem Scope.like_outer {s t : Scope} (h : s.Like ℓ t) : s.outer.Like ℓ t.outer := by
  cases h with
  | root => exact .root
  | bound _ _ _ ho => exact ho
  | module _ ho => exact ho
  | members _ ho => exact ho

theorem Module.like_iff {m n : Module} :
    m.Like ℓ n ↔ m.id = n.id ∧ Table.Related (Module.Like ℓ) m.imports n.imports ∧
      Table.Related (Decl.Like ℓ) m.decls n.decls := by
  obtain ⟨id, is, ds⟩ := m
  obtain ⟨id', js, es⟩ := n
  rw [Table.related_iff, Table.related_iff]
  constructor
  · rintro ⟨_, hil, hik, him, hdl, hdk, hdm⟩
    exact ⟨rfl, ⟨hil, hik, him⟩, hdl, hdk, hdm⟩
  · rintro ⟨hid, ⟨hil, hik, him⟩, hdl, hdk, hdm⟩
    obtain rfl : id = id' := hid
    exact .mk id hil hik him hdl hdk hdm

namespace Value

variable {v w v' w' : Value}

mutual
/-- Values that are alike, and the same if they are errors, have the same text. -/
theorem text_of_firm : (v w : Value) → v.Firm ℓ w → v.text = w.text
  | .array vs, _, ⟨h, _⟩ => by
    cases h with
    | array hlength hitems herrors =>
      rw [text, text, textAll_of_firm vs _ (array_like_iff.mp (.array hlength hitems herrors))]
  | .curried _ f _ _ _, _, ⟨h, _⟩ => by
    cases h with
    | curried _ hfunc herror => rw [text, text, text_of_firm f _ ⟨hfunc, herror⟩]
  | .error .., _, ⟨_, h⟩ => congrArg text (h rfl)
  | .number _, _, ⟨h, _⟩ | .string _, _, ⟨h, _⟩ | .boolean _, _, ⟨h, _⟩ | .module _, _, ⟨h, _⟩
  | .native _, _, ⟨h, _⟩ | .closure .., _, ⟨h, _⟩ | .thunk .., _, ⟨h, _⟩ | .code .., _, ⟨h, _⟩ => by
    cases h
    rfl
theorem textAll_of_firm :
    (vs ws : List Value) → List.Forall₂ (Firm ℓ) vs ws → textAll vs = textAll ws
  | [], _, h => by
    cases h
    rfl
  | v :: vs, _, h => by
    cases h with
    | cons hv hvs => rw [textAll, textAll, text_of_firm v _ hv, textAll_of_firm vs _ hvs]
end

mutual
/-- Values that are alike have the same key. -/
theorem key_of_like :
    (v w : Value) → v.Like ℓ w → Memo.Key.ofValue v = Memo.Key.ofValue w
  | .array vs, _, h => by
    cases h with
    | array hlength hitems =>
      have hkeys := keys_of_like vs _ (forall₂_iff_forall_zip.mpr ⟨hlength, hitems⟩)
      rw [Memo.Key.ofValue, Memo.Key.ofValue, hkeys]
  | .module _, _, h => by
    cases h with
    | module hspace => exact congrArg Memo.Key.identity (identity?_of_like (.module hspace)).symm
  | .number _, _, h | .string _, _, h | .boolean _, _, h | .error .., _, h | .native _, _, h
  | .closure .., _, h | .curried .., _, h | .thunk .., _, h | .code .., _, h => by
    cases h
    rfl
theorem keys_of_like : (vs ws : List Value) → List.Forall₂ (Like ℓ) vs ws →
    Memo.Key.ofValues vs = Memo.Key.ofValues ws
  | [], _, h => by
    cases h
    rfl
  | v :: vs, _, h => by
    cases h with
    | cons hv hvs =>
      rw [Memo.Key.ofValues, Memo.Key.ofValues, key_of_like v _ hv, keys_of_like vs _ hvs]
end

/-- Values that are alike are equal to the same values. -/
theorem equals_of_like (v v' : Value) :
    ∀ w w', v.Like ℓ w → v'.Like ℓ w' → w.equals w' = v.equals v' := by
  apply equals.induct
    (fun v v' => ∀ w w', v.Like ℓ w → v'.Like ℓ w' → w.equals w' = v.equals v')
    (fun vs vs' => ∀ ws ws', List.Forall₂ (Like ℓ) vs ws → List.Forall₂ (Like ℓ) vs' ws' →
      equalsAll ws ws' = equalsAll vs vs')
  case case1 | case2 | case3 | case5 =>
    intros
    rename_i h h'
    cases h
    cases h'
    rfl
  case case4 =>
    rintro vs vs' ih _ _ (_ | _ | _ | ⟨hlength, hitems, -⟩) (_ | _ | _ | ⟨hlength', hitems', -⟩)
    exact ih _ _ (forall₂_iff_forall_zip.mpr ⟨hlength, hitems⟩)
      (forall₂_iff_forall_zip.mpr ⟨hlength', hitems'⟩)
  case case6 =>
    -- Two values compared by identity: none of the other cases applies to those alike either.
    intro v v' hn hs hb ha hc w w' h h'
    rw [equals.eq_6 v v' hn hs hb ha hc, equals.eq_6, identity?_of_like h, identity?_of_like h']
    · rintro x y rfl rfl
      cases h
      cases h'
      exact hn _ _ rfl rfl
    · rintro x y rfl rfl
      cases h
      cases h'
      exact hs _ _ rfl rfl
    · rintro x y rfl rfl
      cases h
      cases h'
      exact hb _ _ rfl rfl
    · rintro x y rfl rfl
      cases h
      cases h'
      exact ha _ _ rfl rfl
    · rintro id x id' y rfl rfl
      cases h
      cases h'
      exact hc _ _ _ _ rfl rfl
  case case7 =>
    intro ws ws' h h'
    cases h
    cases h'
    rfl
  case case8 =>
    rintro v vs v' vs' ih ihs _ _ (_ | ⟨h, hs⟩) (_ | ⟨h', hs'⟩)
    rw [equalsAll, equalsAll, ih _ _ h h', ihs _ _ hs hs']
  case case9 =>
    intro vs vs' hnil hcons ws ws' h h'
    cases h with
    | nil =>
      cases h' with
      | nil => exact (hnil rfl rfl).elim
      | cons => rfl
    | cons =>
      cases h' with
      | nil => rfl
      | cons => exact (hcons _ _ _ _ rfl rfl).elim

end Value

/-- Errors have to blame the same calls. -/
def Likeness.IsStrict (ℓ : Likeness) : Prop := ∀ p q, ℓ.path p q → p = q

mutual
/-- Where errors have to blame the same calls, only the same values are alike. -/
theorem Value.eq_of_like (hℓ : ℓ.IsStrict) {v w : Value} (h : v.Like ℓ w) : v = w :=
  match h with
  | .number _ | .string _ | .boolean _ | .native _ | .code _ _ => rfl
  | .array hlength hitems _ =>
    congrArg _ (eq_of_forall_zip hlength fun e he => Value.eq_of_like hℓ (hitems e he))
  | @Value.Like.error _ id ⟨cause, path⟩ ⟨cause', path'⟩ hcause hblame => by
    obtain rfl : cause = cause' := hcause
    obtain rfl : path = path' := hℓ _ _ hblame
    rfl
  | .module hspace => congrArg _ (Namespace.eq_of_like hℓ hspace)
  | .closure id l hscope => congrArg _ (Scope.eq_of_like hℓ hscope)
  | .curried id hfunc _ hlength hsaved _ => by
    rw [Value.eq_of_like hℓ hfunc,
      eq_of_forall_zip hlength fun e he => Value.eq_of_like hℓ (hsaved e he)]
  | .thunk id code hscope => congrArg _ (Scope.eq_of_like hℓ hscope)
theorem Namespace.eq_of_like (hℓ : ℓ.IsStrict) {s t : Namespace} (h : s.Like ℓ t) : s = t :=
  match h with
  | .mk hmodule hscope => by rw [Module.eq_of_like hℓ hmodule, Scope.eq_of_like hℓ hscope]
theorem Scope.eq_of_like (hℓ : ℓ.IsStrict) {s t : Scope} (h : s.Like ℓ t) : s = t :=
  match h with
  | .root => rfl
  | .bound hlength hkeys hnames houter => by
    rw [Scope.eq_of_like hℓ houter, eq_of_forall_zip hlength fun e he =>
      Prod.ext (hkeys e he) (Value.eq_of_like hℓ (hnames e he))]
  | .module hmodule houter => by rw [Module.eq_of_like hℓ hmodule, Scope.eq_of_like hℓ houter]
  | .members hspace houter => by rw [Namespace.eq_of_like hℓ hspace, Scope.eq_of_like hℓ houter]
theorem Module.eq_of_like (hℓ : ℓ.IsStrict) {m n : Module} (h : m.Like ℓ n) : m = n :=
  match h with
  | .mk id himports hikeys hmodules hdecls hdkeys hlikes => by
    rw [eq_of_forall_zip himports fun e he =>
        Prod.ext (hikeys e he) (Module.eq_of_like hℓ (hmodules e he)),
      eq_of_forall_zip hdecls fun e he => Prod.ext (hdkeys e he) (Decl.eq_of_like hℓ (hlikes e he))]
theorem Decl.eq_of_like (hℓ : ℓ.IsStrict) {d e : Decl} (h : d.Like ℓ e) : d = e :=
  match h with
  | .lambda _ => rfl
  | .value h => congrArg _ (Value.eq_of_like hℓ h)
end

/-- What is asked of a value by itself. -/
def Likeness.Admits (ℓ : Likeness) : Value → Prop
  | .curried _ func saved arity order => ℓ.waiting func saved arity order
  | _ => True

mutual
/-- A value is alike to itself if all values inside of it are as they are asked to be. -/
theorem Value.like_self :
    (v : Value) → (∀ u : Value, u.Inside v → ℓ.Admits u) → v.Like ℓ v
  | .number x, _ => .number x
  | .string s, _ => .string s
  | .boolean b, _ => .boolean b
  | .array vs, h =>
    .array rfl (Value.like_self_of_zip vs fun _ hv u hu => h u (.item hv hu))
      fun _ he _ => eq_of_mem_zip_self he
  | .error id f, _ => .error id rfl (ℓ.path_refl f.path)
  | .module s, h => .module (Namespace.like_self s fun u hu => h u (.member hu))
  | .native n, _ => .native n
  | .closure id l s, h => .closure id l (Scope.like_self s fun u hu => h u (.captured hu))
  | .curried id f vs _ _, h =>
    .curried id (Value.like_self f fun u hu => h u (.func hu)) (fun _ => rfl) rfl
      (Value.like_self_of_zip vs fun _ hv u hu => h u (.saved hv hu)) (h _ .self)
  | .thunk id e s, h => .thunk id e (Scope.like_self s fun u hu => h u (.pinned hu))
  | .code id e, _ => .code id e
theorem Value.like_self_of_zip :
    (vs : List Value) → (∀ v ∈ vs, ∀ u : Value, u.Inside v → ℓ.Admits u) →
      ∀ e ∈ vs.zip vs, e.1.Like ℓ e.2
  | [], _ => nofun
  | v :: vs, h => by
    rintro e (_ | ⟨_, he⟩)
    · exact Value.like_self v (h v List.mem_cons_self)
    · exact Value.like_self_of_zip vs (fun u hu => h u (List.mem_cons_of_mem _ hu)) e he
theorem Namespace.like_self :
    (s : Namespace) → (∀ u : Value, u.InNamespace s → ℓ.Admits u) → s.Like ℓ s
  | ⟨m, s⟩, h => .mk (Module.like_self m fun u hu => h u (.module hu))
      (Scope.like_self s fun u hu => h u (.scope hu))
theorem Scope.like_self :
    (s : Scope) → (∀ u : Value, u.InScope s → ℓ.Admits u) → s.Like ℓ s
  | .root, _ => .root
  | .bound xs s, h =>
    .bound rfl (fun _ he => congrArg Prod.fst (eq_of_mem_zip_self he))
      (Scope.like_self_of_zip xs fun _ he u hu => h u (.bound he hu))
      (Scope.like_self s fun u hu => h u (.outer hu))
  | .module m s, h => .module (Module.like_self m fun u hu => h u (.module hu))
      (Scope.like_self s fun u hu => h u (.outer hu))
  | .members p s, h => .members (Namespace.like_self p fun u hu => h u (.members hu))
      (Scope.like_self s fun u hu => h u (.outer hu))
theorem Scope.like_self_of_zip :
    (xs : List (String × Value)) → (∀ e ∈ xs, ∀ u : Value, u.Inside e.2 → ℓ.Admits u) →
      ∀ e ∈ xs.zip xs, e.1.2.Like ℓ e.2.2
  | [], _ => nofun
  | (x, v) :: xs, h => by
    rintro e (_ | ⟨_, he⟩)
    · exact Value.like_self v (h (x, v) List.mem_cons_self)
    · exact Scope.like_self_of_zip xs (fun e' he' => h e' (List.mem_cons_of_mem _ he')) e he
theorem Module.like_self :
    (m : Module) → (∀ u : Value, u.InModule m → ℓ.Admits u) → m.Like ℓ m
  | ⟨id, is, ds⟩, h =>
    .mk id rfl (fun _ he => congrArg Prod.fst (eq_of_mem_zip_self he))
      (Module.like_self_of_imports is fun _ he u hu => h u (.imported he hu)) rfl
      (fun _ he => congrArg Prod.fst (eq_of_mem_zip_self he))
      (Module.like_self_of_decls ds fun _ _ he u hu => h u (.declared he hu))
theorem Module.like_self_of_imports :
    (is : List (String × Module)) → (∀ e ∈ is, ∀ u : Value, u.InModule e.2 → ℓ.Admits u) →
      ∀ e ∈ is.zip is, e.1.2.Like ℓ e.2.2
  | [], _ => nofun
  | (x, m) :: is, h => by
    rintro e (_ | ⟨_, he⟩)
    · exact Module.like_self m (h (x, m) List.mem_cons_self)
    · exact Module.like_self_of_imports is (fun e' he' => h e' (List.mem_cons_of_mem _ he')) e he
theorem Module.like_self_of_decls :
    (ds : List (String × Decl)) →
      (∀ x v, (x, Decl.value v) ∈ ds → ∀ u : Value, u.Inside v → ℓ.Admits u) →
      ∀ e ∈ ds.zip ds, e.1.2.Like ℓ e.2.2
  | [], _ => nofun
  | (x, d) :: ds, h => by
    rintro e (_ | ⟨_, he⟩)
    · exact Decl.like_self d fun v hv => h x v (hv ▸ List.mem_cons_self)
    · exact Module.like_self_of_decls ds (fun y v hv => h y v (List.mem_cons_of_mem _ hv)) e he
theorem Decl.like_self :
    (d : Decl) → (∀ v, d = .value v → ∀ u : Value, u.Inside v → ℓ.Admits u) → d.Like ℓ d
  | .lambda l, _ => .lambda l
  | .value v, h => .value (Value.like_self v (h v rfl))
end

mutual
/-- What is inside a value that is alike to itself is alike to itself. -/
theorem Value.like_of_inside {u v : Value} (h : u.Inside v) (hv : v.Like ℓ v) : u.Like ℓ u :=
  match h, hv with
  | .self, hv => hv
  | .item hmem h, .array hlength hitems _ =>
    Value.like_of_inside h
      (List.forall₂_same.mp (forall₂_iff_forall_zip.mpr ⟨hlength, hitems⟩) _ hmem)
  | .member h, .module hs => Namespace.like_of_inside h hs
  | .captured h, .closure _ _ hs => Scope.like_of_inside h hs
  | .func h, .curried _ hf _ _ _ _ => Value.like_of_inside h hf
  | .saved hmem h, .curried _ _ _ hlength hs _ =>
    Value.like_of_inside h (List.forall₂_same.mp (forall₂_iff_forall_zip.mpr ⟨hlength, hs⟩) _ hmem)
  | .pinned h, .thunk _ _ hs => Scope.like_of_inside h hs
theorem Namespace.like_of_inside {u : Value} {s : Namespace} (h : u.InNamespace s)
    (hs : s.Like ℓ s) : u.Like ℓ u :=
  match h, hs with
  | .module h, .mk hm _ => Module.like_of_inside h hm
  | .scope h, .mk _ hs => Scope.like_of_inside h hs
theorem Scope.like_of_inside {u : Value} {s : Scope} (h : u.InScope s) (hs : s.Like ℓ s) :
    u.Like ℓ u :=
  match h, hs with
  | .bound he h, hs =>
    Value.like_of_inside h (List.forall₂_same.mp (Scope.bound_like_iff.mp hs).1 _ he).2
  | .module h, .module hm _ => Module.like_of_inside h hm
  | .members h, .members hs _ => Namespace.like_of_inside h hs
  | .outer h, hs => Scope.like_of_inside h (Scope.like_outer hs)
theorem Module.like_of_inside {u : Value} {m : Module} (h : u.InModule m) (hm : m.Like ℓ m) :
    u.Like ℓ u :=
  match h, hm with
  | .imported he h, hm =>
    Module.like_of_inside h (List.forall₂_same.mp (Module.like_iff.mp hm).2.1 _ he).2
  | .declared he h, hm =>
    match (List.forall₂_same.mp (Module.like_iff.mp hm).2.2 _ he).2 with
    | .value hv => Value.like_of_inside h hv
end

end ChainScript
