import ChainScript.Proofs.Eval.Argument

/-!
Evaluation keeps the contract of a policy. The calls it makes are of three kinds: results of earlier
calls, values of names in scope, and bodies of memos; and it makes them in its own frame, with a
scope that has grown by results only.
-/
namespace ChainScript

variable {σ : Type} {p : Policy σ}

/-- The scope `s` has got new levels in front, of results and of modules. -/
inductive Scope.Grows (p : Policy σ) (s : Scope) : Scope → Prop
  | refl : Grows p s s
  | addAll {t : Scope} {names : List (String × Value)} (h : Grows p s t)
      (hn : ∀ e ∈ names, p.Fits e.2) : Grows p s (t.addAll names)
  | members {t : Scope} {space : Namespace} (h : Grows p s t) (hs : space.Obeys p) :
      Grows p s (.members space t)

namespace Scope

variable {s t u : Scope}

theorem grows_trans (h : Grows p s t) (h' : Grows p t u) : Grows p s u := by
  induction h' with
  | refl => exact h
  | addAll _ hn ih => exact .addAll ih hn
  | members _ hs ih => exact .members ih hs

theorem obeys_of_grows (hs : s.Obeys p) (h : Grows p s t) : t.Obeys p := by
  induction h with
  | refl => exact hs
  | addAll _ hn ih => exact obeys_addAll ih fun e he => (hn e he).1
  | members _ hm ih => exact .members hm ih

end Scope

/-- The members of a module are results. -/
theorem Namespace.fits_resolve? {space : Namespace} {v : Value} {x : String} (hs : space.Obeys p)
    (h : space.resolve? x = some (.value v)) : p.Fits v := by
  refine ⟨obeys_resolve? hs h, ?_⟩
  obtain ⟨⟨_, hd⟩, _⟩ := hs
  rw [resolve?, Module.resolve?] at h
  split at h
  next => simp at h
  next u hu =>
    obtain rfl : u = v := by simpa using h
    cases hd _ (Table.mem_of_get? hu) with
    | value _ hitem => exact p.result_of_item hitem
  next =>
    obtain ⟨imported, -, himported⟩ := Option.map_eq_some_iff.mp h
    obtain rfl := Binding.value.inj himported
    exact p.result_of_isEvaluated rfl

/-- The calls that code with the given memos may make when it is evaluated in a frame. -/
inductive Expr.Site (p : Policy σ) (memos : Memos) (frame : Frame) :
    Call → Prop
  | result {v : Value} {s : Scope} {args : List Value} (h : p.result v) :
      Site p memos frame ⟨v, frame.withScope s, args⟩
  | found {v : Value} {s : Scope} {x : String} {args : List Value}
      (hs : Scope.Grows p frame.scope s) (h : s.find? x = some (.value v)) :
      Site p memos frame ⟨v, frame.withScope s, args⟩
  | body {mark : Nat} {params : List String} {body : Code} {s : Scope} {values : List Value}
      (hm : memos mark params body) (hs : Scope.Grows p frame.scope s)
      (hv : ∀ v ∈ values, p.Fits v) :
      Site p memos frame
        ⟨.thunk none body (s.addAll (params.zip values)), frame.withScope s, []⟩

theorem Expr.site_of_grows {memos : Memos} {frame : Frame} {s : Scope}
    {c : Call} (hs : Scope.Grows p frame.scope s) (h : Expr.Site p memos (frame.withScope s) c) :
    Expr.Site p memos frame c := by
  cases h with
  | result h => exact .result h
  | found hs' h => exact .found (Scope.grows_trans hs hs') h
  | body hm hs' hv => exact .body hm (Scope.grows_trans hs hs') hv

namespace Pattern

open Proc

variable {site : Call → Prop} {w : World σ} {frame : Frame} {v : Value} {scope : Scope}

theorem obeys_of_mem_bindings {pattern : Pattern} {names : List (String × Value)}
    {e : String × Value} (hv : p.Fits v) (herror : v.isError = false)
    (h : pattern.bindings v = .ok names) (he : e ∈ names) : e.2.Obeys p ∧ p.item e.2 := by
  cases pattern with
  | name x =>
    obtain rfl := Except.ok.inj h
    obtain rfl := List.mem_singleton.mp he
    exact ⟨hv.1, p.item_of_result hv.2 herror⟩
  | array xs =>
    cases v with
    | array items =>
      simp only [bindings] at h
      split at h
      · cases h
      · obtain rfl := Except.ok.inj h
        have hmem := (List.of_mem_zip he).2
        cases hv.1 with
        | array hobeys hitem => exact ⟨hobeys _ hmem, hitem _ hmem⟩
    | _ => simp [bindings] at h

theorem ensures_bind (pattern : Pattern) (hv : p.Yields v w) :
    Ensures (p.contract.under site) (p.Outcome fun names => ∀ e ∈ names, e.2.Obeys p ∧ p.item e.2)
      (pattern.bind v frame) w := by
  unfold bind
  split
  · exact ensures_pure hv
  next herror =>
    split
    next names hnames =>
      exact ensures_pure ⟨hv.1, fun e he =>
        obeys_of_mem_bindings hv.2 (by simpa using herror) hnames he⟩
    next cause _ =>
      refine ensures_seq (ensures_yields_fail hv.1 cause) ?_
      intro e w he
      exact ensures_pure he

theorem fits_of_item {e : String × Value} (h : e.2.Obeys p ∧ p.item e.2) : p.Fits e.2 :=
  ⟨h.1, p.result_of_item h.2⟩

theorem ensures_bindSlot (slot : Option Pattern) (hv : p.Yields v w) :
    Ensures (p.contract.under site)
      (fun r w => p.Yields r.1 w ∧ Scope.Grows p scope r.2) (bindSlot slot v frame scope) w := by
  unfold bindSlot
  split
  · exact ensures_pure ⟨hv, .refl⟩
  next x =>
    have hgrows : Scope.Grows p scope (scope.addAll [(x, v)]) := by
      refine .addAll .refl ?_
      intro e he
      obtain rfl := List.mem_singleton.mp he
      exact hv.2
    exact ensures_pure ⟨hv, hgrows⟩
  next names =>
    refine ensures_seq (ensures_bind (array names) hv) ?_
    rintro (e | bound) w hbound
    · exact ensures_pure ⟨hbound, .refl⟩
    · have hgrows : Scope.Grows p scope (scope.addAll bound) :=
        .addAll .refl fun e he => fits_of_item (hbound.2 e he)
      exact ensures_pure ⟨⟨hbound.1, hv.2⟩, hgrows⟩

end Pattern

namespace Expr

open Proc

variable {memos : Memos} {site : Call → Prop} {w : World σ}
  {frame : Frame} {args : List Value}

theorem ensures_realized {b : Binding} (hw : w.Obeys p) (hb : b.Obeys p)
    (hargs : ∀ a ∈ args, a.Obeys p)
    (hsite : ∀ v, b = .value v ∨ p.result v → site ⟨v, frame, args⟩) :
    Ensures (p.contract.under site) p.Yields (do invoke (← realize b) frame args) w := by
  refine ensures_seq (ensures_realize hw hb) ?_
  rintro v w ⟨hw, hv, hkind⟩
  exact ensures_invoke hw (hsite v (hkind.imp id p.result_of_isEvaluated)) hv hargs

theorem ensures_withSubject {side subject : Value} (hside : p.Yields side w)
    (hsubject : subject.Obeys p) (hsite : site ⟨side, frame, [subject]⟩) :
    Ensures (p.contract.under site) p.Yields (withSubject side subject frame) w := by
  unfold withSubject
  split
  · exact ensures_pure hside
  · exact ensures_invoke hside.1 hsite hside.2.1 (by simpa using hsubject)

theorem ensures_forceParams (params : List String) (hw : w.Obeys p) (hs : frame.scope.Obeys p)
    (hsite : ∀ c, Site p memos frame c → site c) :
    Ensures (p.contract.under site) (p.Outcome fun values => ∀ v ∈ values, p.Fits v)
      (forceParams frame params) w := by
  induction params generalizing w with
  | nil => exact ensures_pure ⟨hw, by simp⟩
  | cons x rest ih =>
    unfold forceParams
    split
    · refine ensures_seq (ensures_yields_fail hw _) ?_
      intro e w he
      exact ensures_pure he
    next b hb =>
      refine ensures_seq (ensures_realize hw (Scope.obeys_find? hs hb)) ?_
      rintro v w ⟨hw, hv, hkind⟩
      have hcall : Site p memos frame ⟨v, frame, []⟩ := by
        rcases hkind with rfl | hkind
        · exact .found .refl hb
        · exact .result (p.result_of_isEvaluated hkind)
      refine ensures_seq (ensures_invoke hw (hsite _ hcall) hv (by simp)) ?_
      intro u w hu
      split
      · exact ensures_pure hu
      · refine ensures_seq (ih hu.1) ?_
        rintro (e | values) w hvalues
        · exact ensures_pure hvalues
        · refine ensures_pure ⟨hvalues.1, ?_⟩
          intro v' hv'
          rcases List.mem_cons.mp hv' with rfl | hv'
          · exact hu.2
          · exact hvalues.2 v' hv'

/-- A memo answers with a remembered result, or remembers what its body yields. -/
theorem ensures_storedOr {mark : Nat} {params : List String} {body : Code} {values : List Value}
    (hmemo : p.memo mark params body) (hw : w.Obeys p) (hs : frame.scope.Obeys p)
    (hvalues : ∀ v ∈ values, p.Fits v)
    (hsite : site ⟨.thunk none body (frame.scope.addAll (params.zip values)), frame, []⟩)
    (hbody : p.Admits body) :
    Ensures (p.contract.under site) p.Yields
      (storedOr mark values
        (invoke (.thunk none body (frame.scope.addAll (params.zip values))) frame [])) w := by
  unfold storedOr
  refine ensures_read ?_
  cases hstored : w.stored? mark (Memo.Key.ofValues values) with
  | some result =>
    obtain ⟨hobeys, hitem, -⟩ := hw mark _ result hstored
    exact ensures_pure ⟨hw, hobeys, p.result_of_item hitem⟩
  | none =>
    have hscope : (frame.scope.addAll (params.zip values)).Obeys p :=
      Scope.obeys_addAll hs fun e he => (hvalues _ (List.of_mem_zip he).2).1
    refine ⟨rfl, ⟨hsite, ⟨.thunk none hbody hscope, by simp⟩, hw⟩, ?_⟩
    intro v w' hknown hv
    change Ensures (p.contract.under site) p.Yields (do
      if !v.isError then modify (·.store mark (Memo.Key.ofValues values) v)
      return v) w'
    cases herror : v.isError with
    | true => exact ensures_pure hv
    | false =>
      have hstored := p.stored_of_known hmemo hknown herror
      refine ensures_seq (ensures_modify
        (World.obeys_store hv.1 hv.2.1 (p.item_of_result hv.2.2 herror) hstored)) ?_
      intro _ w hw
      exact ensures_pure ⟨hw, hv.2⟩

/-- The code has only memos of the policy that are among those given. -/
abbrev CodeIn (p : Policy σ) (memos : Memos) (e : Code) : Prop :=
  e.MemosIn fun mark params body => memos mark params body ∧ p.memo mark params body

theorem code_of_codeIn {e : Code} (h : e.CodeIn p memos) : p.Admits e :=
  fun mark params body hocc => (h mark params body hocc).2

mutual
theorem ensures_eval (code : Code) (frame : Frame) (args : List Value) (w : World σ)
    (hcode : code.CodeIn p memos) (hw : w.Obeys p) (hs : frame.scope.Obeys p)
    (hargs : ∀ a ∈ args, a.Obeys p) (hsite : ∀ c, Site p memos frame c → site c) :
    Ensures (p.contract.under site) p.Yields (code.eval frame args) w := by
  have hpart {e : Code} (he : e ∈ code.children) : e.CodeIn p memos :=
    memosIn_of_mem_children hcode he
  have hrest {v : Value} {w : World σ} (hv : p.Yields v w) :
      Ensures (p.contract.under site) p.Yields (applyRest v frame args) w :=
    ensures_applyRest hv hargs fun _ => hsite _ (.result hv.2.2)
  cases code with
  | number x =>
    unfold eval
    exact ensures_pure (p.yields_of_isEvaluated hw (.number x) rfl)
  | string t =>
    unfold eval
    exact ensures_pure (p.yields_of_isEvaluated hw (.string t) rfl)
  | empty =>
    unfold eval
    exact ensures_pure (p.yields_of_isEvaluated hw (.array (by simp) (by simp)) rfl)
  | var x =>
    unfold eval
    split
    · exact ensures_yields_fail hw _
    next b hb =>
      refine ensures_realized hw (Scope.obeys_find? hs hb) hargs ?_
      rintro v (rfl | hv)
      · exact hsite _ (.found .refl hb)
      · exact hsite _ (.result hv)
  | array items =>
    unfold eval
    exact ensures_evalArray items [] frame w (fun e he => hpart he) (by simp) hw hs hsite
  | lambda name params body =>
    unfold eval
    refine ensures_seq (ensures_fresh hw) ?_
    intro id w hw
    have hbody : p.Admits body := code_of_codeIn (hpart List.mem_cons_self)
    have hclosure : Value.Obeys p (.closure id ⟨name, params, body⟩ frame.scope) :=
      .closure id hbody hs
    split
    · exact ensures_pure (p.yields_of_isEvaluated hw hclosure rfl)
    · exact ensures_invoke hw (hsite _ (.result (p.result_of_isEvaluated rfl))) hclosure hargs
  | apply func own =>
    unfold eval
    refine ensures_seq
      (ensures_eval func frame [] w (hpart List.mem_cons_self) hw hs (by simp) hsite) ?_
    intro v w hv
    split
    · exact ensures_pure hv
    · refine ensures_invoke hv.1 (hsite _ (.result hv.2.2)) hv.2.1 ?_
      have hown : ∀ a ∈ own.map (Value.pin frame.scope), a.Obeys p := by
        intro a ha
        obtain ⟨e, he, rfl⟩ := List.mem_map.mp ha
        exact Value.obeys_pin (code_of_codeIn (hpart (List.mem_cons_of_mem _ he))) hs
      intro a ha
      split at ha
      · exact (List.mem_append.mp ha).elim (hargs a) (hown a)
      · exact (List.mem_append.mp ha).elim (hown a) (hargs a)
  | switch subject cases =>
    unfold eval
    refine ensures_seq
      (ensures_eval subject frame [] w (hpart List.mem_cons_self) hw hs (by simp) hsite) ?_
    intro v w hv
    split
    · exact ensures_pure hv
    · refine ensures_seq (ensures_evalCases cases v frame w ?_ hv hs hsite) fun _ _ h => hrest h
      intro c hc
      have hside {e : Code} (he : e ∈ [c.1, c.2]) : e.CodeIn p memos :=
        hpart (List.mem_cons_of_mem _ (List.mem_flatMap.mpr ⟨c, hc, he⟩))
      exact ⟨hside (by simp), hside (by simp)⟩
  | chain segments =>
    unfold eval
    refine ensures_seq (ensures_evalChain segments frame w ?_ hw hs hsite) fun _ _ h => hrest h
    exact fun e he => hpart (List.mem_map_of_mem he)
  | compound items =>
    unfold eval
    refine ensures_seq (ensures_evalItems items (.array []) [] frame w (fun e he => hpart he)
      (p.yields_of_isEvaluated hw (.array (by simp) (by simp)) rfl) (by simp) hs hsite) ?_
    rintro ⟨last, bound⟩ w ⟨hlast, -⟩
    exact hrest hlast
  | collector items =>
    unfold eval
    refine ensures_seq (ensures_evalItems items (.array []) [] frame w (fun e he => hpart he)
      (p.yields_of_isEvaluated hw (.array (by simp) (by simp)) rfl) (by simp) hs hsite) ?_
    rintro ⟨last, bound⟩ w ⟨hlast, hbound⟩
    dsimp only
    split
    · exact ensures_pure hlast
    · refine ensures_seq (ensures_fresh hlast.1) ?_
      intro id w hw
      have hdecls : ∀ e ∈ (Table.ofList bound).map fun (name, v) => (name, Decl.ofValue v),
          Decl.Obeys p e.2 := by
        intro e he
        obtain ⟨⟨x, v⟩, hmem, rfl⟩ := List.mem_map.mp he
        obtain ⟨hv, hitem⟩ := hbound _ (Table.mem_ofList hmem)
        exact Decl.obeys_ofValue hv hitem
      have hmodule : Module.Obeys p
          ⟨id, [], (Table.ofList bound).map fun (name, v) => (name, Decl.ofValue v)⟩ :=
        .mk (by simp) hdecls
      exact hrest (p.yields_of_isEvaluated hw (.module (.mk hmodule (.module hmodule hs))) rfl)
  | bind pattern value =>
    unfold eval
    refine ensures_seq
      (ensures_eval value frame [] w (hpart List.mem_cons_self) hw hs (by simp) hsite) ?_
    intro v w hv
    refine ensures_seq (Pattern.ensures_bind pattern hv) ?_
    rintro (e | names) w hnames
    · exact ensures_pure hnames
    · exact hrest ⟨hnames.1, hv.2⟩
  | member base name =>
    unfold eval
    refine ensures_seq
      (ensures_eval base frame [] w (hpart List.mem_cons_self) hw hs (by simp) hsite) ?_
    intro v w hv
    split
    next space =>
      cases hv.2.1 with
      | module hspace =>
        split
        · exact ensures_yields_fail hv.1 _
        next b hb =>
          refine ensures_realized hv.1 (Namespace.obeys_resolve? hspace hb) hargs ?_
          rintro u (rfl | hu)
          · exact hsite _ (.result (Namespace.fits_resolve? hspace hb).2)
          · exact hsite _ (.result hu)
    · exact ensures_pure hv
    · exact ensures_yields_fail hv.1 _
  | within base body =>
    unfold eval
    refine ensures_seq
      (ensures_eval base frame [] w (hpart List.mem_cons_self) hw hs (by simp) hsite) ?_
    intro v w hv
    split
    next space =>
      cases hv.2.1 with
      | module hspace =>
        have hgrows : Scope.Grows p frame.scope (.members space frame.scope) :=
          .members .refl hspace
        exact ensures_eval body (frame.withScope (.members space frame.scope)) args w
          (hpart (List.mem_cons_of_mem _ List.mem_cons_self)) hv.1 (.members hspace hs) hargs
          fun c hc => hsite c (site_of_grows hgrows hc)
    · exact ensures_pure hv
    · exact ensures_yields_fail hv.1 _
  | memo mark params body =>
    unfold eval
    refine ensures_seq (ensures_forceParams params hw hs hsite) ?_
    rintro (e | values) w hvalues
    · exact ensures_pure hvalues
    · have hmemo := hcode mark params body .self
      refine ensures_seq (ensures_storedOr hmemo.2 hvalues.1 hs hvalues.2
        (hsite _ (.body hmemo.1 .refl hvalues.2))
        (code_of_codeIn (hpart List.mem_cons_self))) fun _ _ h => hrest h
termination_by sizeOf code
decreasing_by
  all_goals
    subst_vars
    simp only [array.sizeOf_spec, apply.sizeOf_spec, switch.sizeOf_spec, chain.sizeOf_spec,
      compound.sizeOf_spec, collector.sizeOf_spec, bind.sizeOf_spec, member.sizeOf_spec,
      within.sizeOf_spec]
    omega
theorem ensures_evalArray (items : List Code) (values : List Value) (frame : Frame) (w : World σ)
    (hitems : ∀ e ∈ items, e.CodeIn p memos) (hvalues : ∀ v ∈ values, v.Obeys p ∧ p.item v)
    (hw : w.Obeys p) (hs : frame.scope.Obeys p) (hsite : ∀ c, Site p memos frame c → site c) :
    Ensures (p.contract.under site) p.Yields (evalArray items values frame) w := by
  cases items with
  | nil =>
    unfold evalArray
    have hobeys : Value.Obeys p (.array values) :=
      .array (fun v hv => (hvalues v hv).1) fun v hv => (hvalues v hv).2
    exact ensures_pure (p.yields_of_isEvaluated hw hobeys rfl)
  | cons e rest =>
    unfold evalArray
    refine ensures_seq
      (ensures_eval e frame [] w (hitems e List.mem_cons_self) hw hs (by simp) hsite) ?_
    intro v w hv
    split
    · exact ensures_pure hv
    next herror =>
      refine ensures_evalArray rest (values ++ [v]) frame w
        (fun d hd => hitems d (List.mem_cons_of_mem _ hd)) ?_ hv.1 hs hsite
      intro u hu
      rcases List.mem_append.mp hu with hu | hu
      · exact hvalues u hu
      · obtain rfl := List.mem_singleton.mp hu
        exact ⟨hv.2.1, p.item_of_result hv.2.2 (by simpa using herror)⟩
termination_by sizeOf items
decreasing_by all_goals (subst_vars; simp only [List.cons.sizeOf_spec]; omega)
theorem ensures_evalCases (cases : List (Code × Code)) (subject : Value) (frame : Frame)
    (w : World σ) (hcases : ∀ c ∈ cases, c.1.CodeIn p memos ∧ c.2.CodeIn p memos)
    (hsubject : p.Yields subject w) (hs : frame.scope.Obeys p)
    (hsite : ∀ c, Site p memos frame c → site c) :
    Ensures (p.contract.under site) p.Yields (evalCases cases subject frame) w := by
  match cases with
  | [] =>
    unfold evalCases
    exact ensures_pure hsubject
  | (lhs, rhs) :: rest =>
    unfold evalCases
    obtain ⟨hlhs, hrhs⟩ := hcases _ List.mem_cons_self
    refine ensures_seq (ensures_stop? frame hsubject.1) ?_
    rintro (_ | e) w ⟨hw, -, hstop⟩
    · refine ensures_seq (ensures_eval lhs frame [] w hlhs hw hs (by simp) hsite) ?_
      intro side w hside
      refine ensures_seq
        (ensures_withSubject hside hsubject.2.1 (hsite _ (.result hside.2.2))) ?_
      intro test w htest
      split
      · exact ensures_pure htest
      · split
        · refine ensures_seq (ensures_eval rhs frame [] w hrhs htest.1 hs (by simp) hsite) ?_
          intro side w hside
          exact ensures_withSubject hside hsubject.2.1 (hsite _ (.result hside.2.2))
        · exact ensures_evalCases rest subject frame w
            (fun c hc => hcases c (List.mem_cons_of_mem _ hc)) ⟨htest.1, hsubject.2⟩ hs hsite
    · exact ensures_pure (hstop e rfl).1
termination_by sizeOf cases
decreasing_by all_goals (simp only [List.cons.sizeOf_spec, Prod.mk.sizeOf_spec]; omega)
theorem ensures_evalChain (segments : List (Segment Code)) (frame : Frame) (w : World σ)
    (hsegments : ∀ g ∈ segments, g.expr.CodeIn p memos) (hw : w.Obeys p)
    (hs : frame.scope.Obeys p) (hsite : ∀ c, Site p memos frame c → site c) :
    Ensures (p.contract.under site) p.Yields (evalChain segments frame) w := by
  match segments with
  | [] =>
    unfold evalChain
    exact ensures_pure (p.yields_of_isEvaluated hw (.array (by simp) (by simp)) rfl)
  | ⟨e, _, slot⟩ :: rest =>
    unfold evalChain
    refine ensures_seq (ensures_stop? frame hw) ?_
    rintro (_ | e') w ⟨hw, -, hstop⟩
    · refine ensures_seq
        (ensures_eval e frame [] w (hsegments _ List.mem_cons_self) hw hs (by simp) hsite) ?_
      intro v w hv
      refine ensures_seq (Pattern.ensures_bindSlot slot hv) ?_
      rintro ⟨running, scope⟩ w ⟨hrunning, hgrows⟩
      exact ensures_evalSegments rest running scope frame w
        (fun g hg => hsegments g (List.mem_cons_of_mem _ hg)) hrunning hs hgrows hsite
    · exact ensures_pure (hstop e' rfl).1
termination_by sizeOf segments
decreasing_by all_goals (simp only [List.cons.sizeOf_spec, Segment.mk.sizeOf_spec]; omega)
theorem ensures_evalSegments (segments : List (Segment Code)) (running : Value) (scope : Scope)
    (frame : Frame) (w : World σ) (hsegments : ∀ g ∈ segments, g.expr.CodeIn p memos)
    (hrunning : p.Yields running w) (hs : frame.scope.Obeys p)
    (hgrows : Scope.Grows p frame.scope scope) (hsite : ∀ c, Site p memos frame c → site c) :
    Ensures (p.contract.under site) p.Yields (evalSegments segments running scope frame) w := by
  match segments with
  | [] =>
    unfold evalSegments
    exact ensures_pure hrunning
  | ⟨e, link, slot⟩ :: rest =>
    unfold evalSegments
    have hmore : ∀ g ∈ rest, g.expr.CodeIn p memos :=
      fun g hg => hsegments g (List.mem_cons_of_mem _ hg)
    refine ensures_seq (ensures_stop? frame hrunning.1) ?_
    rintro (_ | e') w ⟨hw, -, hstop⟩
    · dsimp only
      split
      · refine ensures_seq (ensures_eval e (frame.withScope scope) [running] w
          (hsegments _ List.mem_cons_self) hw (Scope.obeys_of_grows hs hgrows)
          (by simpa using hrunning.2.1) fun c hc => hsite c (site_of_grows hgrows hc)) ?_
        intro v w hv
        refine ensures_seq (Pattern.ensures_bindSlot slot hv) ?_
        rintro ⟨output, scope'⟩ w ⟨houtput, hgrows'⟩
        refine ensures_evalSegments rest (link.carry running output) scope' frame w hmore
          ⟨houtput.1, ?_⟩ hs (Scope.grows_trans hgrows hgrows') hsite
        unfold Link.carry
        split
        · exact hrunning.2
        · exact houtput.2
      · exact ensures_evalSegments rest running scope frame w hmore ⟨hw, hrunning.2⟩ hs hgrows
          hsite
    · exact ensures_pure (hstop e' rfl).1
termination_by sizeOf segments
decreasing_by all_goals (simp only [List.cons.sizeOf_spec, Segment.mk.sizeOf_spec]; omega)
theorem ensures_evalItems (items : List Code) (last : Value) (bound : List (String × Value))
    (frame : Frame) (w : World σ) (hitems : ∀ e ∈ items, e.CodeIn p memos)
    (hlast : p.Yields last w) (hbound : ∀ e ∈ bound, e.2.Obeys p ∧ p.item e.2)
    (hs : frame.scope.Obeys p) (hsite : ∀ c, Site p memos frame c → site c) :
    Ensures (p.contract.under site)
      (fun r w => p.Yields r.1 w ∧ ∀ e ∈ r.2, e.2.Obeys p ∧ p.item e.2)
      (evalItems items last bound frame) w := by
  unfold evalItems
  split
  · exact ensures_pure ⟨hlast, hbound⟩
  next pattern e rest =>
    have hvalue : e.CodeIn p memos :=
      memosIn_of_mem_children (hitems _ List.mem_cons_self) List.mem_cons_self
    refine ensures_seq (ensures_stop? frame hlast.1) ?_
    rintro (_ | e') w ⟨hw, -, hstop⟩
    · refine ensures_seq (ensures_eval e frame [] w hvalue hw hs (by simp) hsite) ?_
      intro v w hv
      refine ensures_seq (Pattern.ensures_bind pattern hv) ?_
      rintro (e' | names) w hnames
      · exact ensures_pure ⟨hnames, hbound⟩
      · have hgrows : Scope.Grows p frame.scope (frame.scope.addAll names) :=
          .addAll .refl fun e he => Pattern.fits_of_item (hnames.2 e he)
        refine ensures_evalItems rest v (bound ++ names)
          (frame.withScope (frame.scope.addAll names)) w
          (fun d hd => hitems d (List.mem_cons_of_mem _ hd)) ⟨hnames.1, hv.2⟩ ?_
          (Scope.obeys_of_grows hs hgrows) fun c hc => hsite c (site_of_grows hgrows hc)
        exact fun e he => (List.mem_append.mp he).elim (hbound e) (hnames.2 e)
    · exact ensures_pure ⟨(hstop e' rfl).1, hbound⟩
  next e rest _ =>
    refine ensures_seq (ensures_stop? frame hlast.1) ?_
    rintro (_ | e') w ⟨hw, -, hstop⟩
    · refine ensures_seq
        (ensures_eval e frame [] w (hitems e List.mem_cons_self) hw hs (by simp) hsite) ?_
      intro v w hv
      split
      · exact ensures_pure ⟨hv, hbound⟩
      · exact ensures_evalItems rest v bound frame w
          (fun d hd => hitems d (List.mem_cons_of_mem _ hd)) hv hbound hs hsite
    · exact ensures_pure ⟨(hstop e' rfl).1, hbound⟩
termination_by sizeOf items
decreasing_by all_goals (subst_vars; simp only [List.cons.sizeOf_spec, bind.sizeOf_spec]; omega)
end

end Expr

end ChainScript
