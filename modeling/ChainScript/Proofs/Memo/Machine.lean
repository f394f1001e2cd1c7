import ChainScript.Proofs.Memo.Recall
import ChainScript.Proofs.Memo.Tame

/-!
The caches of memos over whole runs. A look-up is for parameters that have been forced in order. It
answers from the cache, or evaluates the body once and stores what it yields if that is no error.
Nothing else writes to the caches, however the calls are nested, so that they only ever gain results
of bodies.
-/
namespace ChainScript

open Proc
open Memo (Lookup)

variable {σ α : Type} {host : Host σ} {p q : Proc σ α} {w w' w₁ w₂ : World σ} {c d : Call}
  {l : Lookup} {k : Value → Proc σ α} {v : Value} {mark : Nat} {keys : List Memo.Key}

/-- In the world `w'`, `q` is what is left of `p` or of a call inside it. -/
def Proc.Remains (host : Host σ) (p : Proc σ Value) (w : World σ) (q : Proc σ Value)
    (w' : World σ) : Prop :=
  Comes host p w q w' ∨ ∃ c w₁, Reaches host p w c w₁ ∧ Comes host (c.proc host) w₁ q w'

/-- The look-up misses, and its body yields `v`, which is no error. -/
structure Memo.Lookup.Succeeds (host : Host σ) (l : Lookup) (w : World σ) (v : Value)
    (w' : World σ) : Prop where
  missed : w.stored? l.mark l.keys = none
  yields : l.request.Answers host w v w'
  isError : v.isError = false

/-- While `p` is carried out, a look-up for the memo and the keys succeeds with `v`. -/
def Memo.Made (host : Host σ) (p : Proc σ Value) (w : World σ) (mark : Nat) (keys : List Key)
    (v : Value) : Prop :=
  ∃ (l : Lookup) (k : Value → Proc σ Value) (w₁ w₂ : World σ),
    Remains host p w (l.proc >>= k) w₁ ∧ l.mark = mark ∧ l.keys = keys ∧ l.Succeeds host w₁ v w₂

namespace World

/-- Every cache has each of its keys once. -/
def Distinct (w : World σ) : Prop := ∀ mark, (w.cache mark).Distinct

/-- The caches have lost no keys, and what they have gained is made. -/
structure Learns (made : Nat → List Memo.Key → Value → Prop) (w w' : World σ) : Prop where
  kept : ∀ mark keys, (w.stored? mark keys).isSome → (w'.stored? mark keys).isSome
  gained : ∀ mark keys v, w'.stored? mark keys = some v →
    w.stored? mark keys = some v ∨ made mark keys v
  distinct : w.Distinct → w'.Distinct

variable {made made' : Nat → List Memo.Key → Value → Prop}

theorem stored?_of_caches (h : w'.caches = w.caches) (mark : Nat) (keys : List Memo.Key) :
    w'.stored? mark keys = w.stored? mark keys := by
  rw [stored?, stored?, cache, cache, h]

theorem learns_of_caches (h : w'.caches = w.caches) : Learns made w w' where
  kept mark keys hsome := by rwa [stored?_of_caches h]
  gained mark keys v hget := by
    rw [stored?_of_caches h] at hget
    exact .inl hget
  distinct hw mark := by
    rw [cache, h]
    exact hw mark

theorem Learns.trans (h : Learns made w w₁) (h' : Learns made w₁ w') : Learns made w w' where
  kept mark keys hsome := h'.kept mark keys (h.kept mark keys hsome)
  gained mark keys v hget := by
    rcases h'.gained mark keys v hget with hget | hmade
    · exact h.gained mark keys v hget
    · exact .inr hmade
  distinct hw := h'.distinct (h.distinct hw)

theorem Learns.imp (h : Learns made w w')
    (himp : ∀ mark keys v, made mark keys v → made' mark keys v) : Learns made' w w' :=
  ⟨h.kept, fun mark keys v hget => (h.gained mark keys v hget).imp_right (himp mark keys v),
    h.distinct⟩

theorem cache_store (w : World σ) (mark mark' : Nat) (keys : List Memo.Key) (v : Value) :
    (w.store mark keys v).cache mark' =
      if mark = mark' then (w.cache mark).insert v keys else w.cache mark' := by
  simp only [cache, store, Table.get?_insert]
  split <;> rfl

theorem learns_store (h : made mark keys v) : Learns made w (w.store mark keys v) where
  kept mark' keys' hsome := by
    rw [stored?_store]
    split
    · rfl
    · exact hsome
  gained mark' keys' v' hget := by
    rw [stored?_store] at hget
    split at hget
    next heq =>
      obtain ⟨rfl, rfl⟩ := heq
      obtain rfl := Option.some.inj hget
      exact .inr h
    next => exact .inl hget
  distinct hw mark' := by
    rw [cache_store]
    split
    · exact Memo.Trie.distinct_insert (hw mark) v keys
    · exact hw mark'

end World

namespace Proc

theorem comes_of_hit (hstored : w.stored? l.mark l.keys = some v) (h : Comes host (k v) w q w') :
    Comes host (l.proc >>= k) w q w' := by
  rw [l.proc_bind k]
  refine .read ?_
  rw [hstored]
  exact h

theorem comes_of_miss (hstored : w.stored? l.mark l.keys = none)
    (hbody : l.request.Answers host w v w₁) (h : Comes host (l.settle k v) w₁ q w') :
    Comes host (l.proc >>= k) w q w' := by
  rw [l.proc_bind k]
  refine .read ?_
  rw [hstored]
  exact .call hbody h

theorem comes_of_failure (herror : v.isError = true) (h : Comes host (k v) w q w') :
    Comes host (l.settle k v) w q w' := by
  rw [Lookup.settle, if_pos herror]
  exact h

theorem comes_of_success (herror : v.isError = false)
    (h : Comes host (k v) (w.store l.mark l.keys v) q w') : Comes host (l.settle k v) w q w' := by
  rw [Lookup.settle, if_neg (by simp [herror])]
  exact .read (.write h)

/-- The write leaves the caches alone, or it is that of a look-up of `p` that has succeeded. -/
def Writes (host : Host σ) (p : Proc σ α) (w w₁ w₂ : World σ) : Prop :=
  w₂.caches = w₁.caches ∨
    ∃ l k w₀ v, Comes host p w (l.proc >>= k) w₀ ∧ Lookup.Succeeds host l w₀ v w₁ ∧
      w₂ = w₁.store l.mark l.keys v

theorem writes_of_comes {p' : Proc σ α} {w₀ : World σ} (h : Writes host p' w₀ w₁ w₂)
    (hcomes : ∀ q w', Comes host p' w₀ q w' → Comes host p w q w') : Writes host p w w₁ w₂ := by
  rcases h with hsame | ⟨l, k, w', v, hlookup, hstore⟩
  · exact .inl hsame
  · exact .inr ⟨l, k, w', v, hcomes _ _ hlookup, hstore⟩

theorem writes_of_tameAt {next : Proc σ α} (hp : TameAt p w)
    (h : Comes host p w (write w₂ next) w₁) : Writes host p w w₁ w₂ := by
  induction hp with
  | done => cases h
  | call _ ih =>
    cases h with
    | call hc h => exact writes_of_comes (ih _ _ h) fun _ _ => .call hc
  | read _ ih =>
    cases h with
    | read h => exact writes_of_comes (ih h) fun _ _ => .read
  | write hc _ ih =>
    cases h with
    | refl => exact .inl hc
    | write h => exact writes_of_comes (ih h) fun _ _ => .write
  | @lookup l k w _ ih =>
    rw [l.proc_bind k] at h
    cases h with
    | read h =>
      cases hstored : w.stored? l.mark l.keys with
      | some r =>
        simp only [hstored] at h
        exact writes_of_comes (ih r w h) fun _ _ => comes_of_hit hstored
      | none =>
        simp only [hstored] at h
        cases h with
        | @call _ _ _ v w w' _ hbody h =>
          cases herror : v.isError with
          | true =>
            rw [Lookup.settle, if_pos herror] at h
            exact writes_of_comes (ih v w' h) fun _ _ hcomes =>
              comes_of_miss hstored hbody (comes_of_failure herror hcomes)
          | false =>
            rw [Lookup.settle, if_neg (by simp [herror])] at h
            cases h with
            | read h =>
              cases h with
              | refl => exact .inr ⟨l, k, _, v, .refl, ⟨hstored, hbody, herror⟩, rfl⟩
              | write h =>
                exact writes_of_comes (ih v _ h) fun _ _ hcomes =>
                  comes_of_miss hstored hbody (comes_of_success herror hcomes)

end Proc

namespace Proc

variable {p q : Proc σ Value}

theorem remains_of_comes {q' : Proc σ Value} (h : Remains host p w q w₁)
    (hcomes : Comes host q w₁ q' w₂) : Remains host p w q' w₂ := by
  rcases h with h | ⟨c, w', hc, h⟩
  · exact .inl (comes_trans h hcomes)
  · exact .inr ⟨c, w', hc, comes_trans h hcomes⟩

/-- A call that is made by what is left is inside `p` like the others. -/
theorem reaches_of_makes (h : Remains host p w q w₁) (hmade : Makes host q w₁ c w₂) :
    Reaches host p w c w₂ := by
  obtain ⟨next, hcomes⟩ := hmade
  rcases h with h | ⟨d, w', ⟨ds, hd⟩, h⟩
  · exact ⟨[], .made ⟨next, comes_trans h hcomes⟩⟩
  · exact ⟨d :: ds, .inside hd ⟨next, comes_trans h hcomes⟩⟩

theorem reaches_of_stack {cs : List Call} (h : Remains host p w q w₁)
    (hstack : Stack host q w₁ (c :: cs) w₂) : Reaches host p w c w₂ := by
  generalize hds : c :: cs = ds at hstack
  induction hstack generalizing c cs with
  | made hmade =>
    obtain ⟨rfl, rfl⟩ := List.cons.inj hds
    exact reaches_of_makes h hmade
  | inside _ hmade ih =>
    obtain ⟨rfl, rfl⟩ := List.cons.inj hds
    exact reaches_of_makes (.inr ⟨_, _, ih rfl, .refl⟩) hmade

section Learning

variable (hhost : host.Tame) (hp : Tame p)

include hhost hp

/-- One step: wherever something is written, the caches stay or learn the result of a look-up. -/
theorem learns_of_write {next : Proc σ Value} (h : Remains host p w (write w₂ next) w₁) :
    World.Learns (Memo.Made host p w) w₁ w₂ := by
  have hwrites : ∃ q w', Remains host p w q w' ∧ Writes host q w' w₁ w₂ := by
    rcases h with h | ⟨c, w', hc, h⟩
    · exact ⟨p, w, .inl .refl, writes_of_tameAt (hp w) h⟩
    · have hwrites := writes_of_tameAt (Call.tame_proc hhost c w') h
      exact ⟨c.proc host, w', .inr ⟨c, w', hc, .refl⟩, hwrites⟩
  obtain ⟨q, w', hq, hsame | ⟨l, k, w₀, v, hlookup, hsucceeds, rfl⟩⟩ := hwrites
  · exact World.learns_of_caches hsame
  · exact World.learns_store ⟨l, k, w₀, w₁, remains_of_comes hq hlookup, rfl, rfl, hsucceeds⟩

/-- A procedure learns along the way if its calls do. -/
theorem learns_of_comes {q' : Proc σ Value} (hq : Remains host p w q w₁)
    (hcalls : ∀ c w₂ v w₃, Makes host q w₁ c w₂ → c.Answers host w₂ v w₃ →
      World.Learns (Memo.Made host p w) w₂ w₃)
    (h : Comes host q w₁ q' w₂) : World.Learns (Memo.Made host p w) w₁ w₂ := by
  induction h with
  | refl => exact World.learns_of_caches rfl
  | @call c next q' v w₁ w₂ w' hc _ ih =>
    have hstep := hcalls c w₁ v w₂ ⟨next, .refl⟩ hc
    refine hstep.trans (ih (remains_of_comes hq (.call hc .refl)) ?_)
    exact fun d w₃ u w₄ ⟨rest, hrest⟩ => hcalls d w₃ u w₄ ⟨rest, .call hc hrest⟩
  | read _ ih =>
    refine ih (remains_of_comes hq (.read .refl)) ?_
    exact fun d w₃ u w₄ ⟨rest, hrest⟩ => hcalls d w₃ u w₄ ⟨rest, .read hrest⟩
  | write _ ih =>
    have hstep := learns_of_write hhost hp hq
    refine hstep.trans (ih (remains_of_comes hq (.write .refl)) ?_)
    exact fun d w₃ u w₄ ⟨rest, hrest⟩ => hcalls d w₃ u w₄ ⟨rest, .write hrest⟩

/-- By induction on the calls inside each other. -/
theorem learns_of_answers (hc : Reaches host p w c w₁) (h : c.Answers host w₁ v w₂) :
    World.Learns (Memo.Made host p w) w₁ w₂ := by
  obtain ⟨fuel, h⟩ := h
  induction fuel generalizing c w₁ v w₂ with
  | zero => simp [Call.answer] at h
  | succ fuel ih =>
    have hbody : Remains host p w (c.proc host) w₁ := .inr ⟨c, w₁, hc, .refl⟩
    refine learns_of_comes hhost hp hbody ?_ (comes_of_runs ⟨fuel, h⟩)
    intro d w₃ u w₄ hmade hd
    obtain ⟨u', w', hanswer⟩ := answer_of_makes h hmade
    obtain ⟨rfl, rfl⟩ := Call.answers_unique hd ⟨fuel, hanswer⟩
    exact ih (reaches_of_makes hbody hmade) hanswer

/-- The run: from any point in it to any later one, the caches learn. -/
theorem learns_of_remains {q' : Proc σ Value} (hq : Remains host p w q w₁)
    (h : Remains host q w₁ q' w₂) : World.Learns (Memo.Made host p w) w₁ w₂ := by
  have hcomes : ∀ {r r' : Proc σ Value} {w₃ w₄}, Remains host p w r w₃ → Comes host r w₃ r' w₄ →
      World.Learns (Memo.Made host p w) w₃ w₄ := by
    intro r r' w₃ w₄ hr
    refine learns_of_comes hhost hp hr ?_
    exact fun c w₅ v w₆ hmade hc => learns_of_answers hhost hp (reaches_of_makes hr hmade) hc
  rcases h with h | ⟨c, w₃, ⟨cs, hstack⟩, h⟩
  · exact hcomes hq h
  · have hopen : ∀ cs w₃, Stack host q w₁ cs w₃ → World.Learns (Memo.Made host p w) w₁ w₃ := by
      intro cs w₃ hstack
      induction hstack with
      | made hmade =>
        obtain ⟨next, hmade⟩ := hmade
        exact hcomes hq hmade
      | inside hstack hmade ih =>
        obtain ⟨next, hmade⟩ := hmade
        exact ih.trans (hcomes (.inr ⟨_, _, reaches_of_stack hq hstack, .refl⟩) hmade)
    exact (hopen _ _ hstack).trans (hcomes (.inr ⟨c, w₃, reaches_of_stack hq hstack, .refl⟩) h)

end Learning

end Proc

namespace Memo.Lookup

variable {answer : Call → World σ → Option (Value × World σ)}

theorem calls_of_hit {r : Value} (hstored : w.stored? l.mark l.keys = some r) :
    l.proc.calls answer w = [] := by
  rw [← bind_done l.proc, l.proc_bind]
  simp only [calls, hstored]

theorem calls_of_miss (hstored : w.stored? l.mark l.keys = none) :
    l.proc.calls answer w = [(l.request, w)] := by
  have hsettle : ∀ v w', (l.settle done v).calls answer w' = [] := by
    intro v w'
    unfold settle
    split <;> rfl
  rw [← bind_done l.proc, l.proc_bind]
  simp only [calls, hstored]
  cases answer l.request w with
  | none => rfl
  | some last => simp only [hsettle]

theorem runs_of_failure (hstored : w.stored? l.mark l.keys = none)
    (hbody : l.request.Answers host w v w₁) (herror : v.isError = true) :
    l.proc.Runs host w v w₁ := by
  obtain ⟨fuel, hbody⟩ := hbody
  refine ⟨fuel, ?_⟩
  rw [← bind_done l.proc, l.proc_bind]
  simp only [exec, hstored, hbody, settle, if_pos herror]

theorem runs_of_success (h : l.Succeeds host w v w₁) :
    l.proc.Runs host w v (w₁.store l.mark l.keys v) := by
  obtain ⟨fuel, hbody⟩ := h.yields
  have herror : ¬ v.isError = true := by simp [h.isError]
  refine ⟨fuel, ?_⟩
  rw [← bind_done l.proc, l.proc_bind]
  simp only [exec, h.missed, hbody, settle, if_neg herror]

/-- What a body that has run leaves behind for the keys of its look-up comes from look-ups in it. -/
theorem made_of_stored (hhost : host.Tame) {r : Value} (hstored : w.stored? l.mark l.keys = none)
    (hbody : l.request.Answers host w v w₁) (hr : w₁.stored? l.mark l.keys = some r) :
    Made host (l.request.proc host) w l.mark l.keys r := by
  have hend : Remains host (l.request.proc host) w (done v) w₁ :=
    .inl (comes_of_runs (Call.answers_iff_runs.mp hbody))
  have hlearns := learns_of_remains hhost (Call.tame_proc hhost l.request) (.inl .refl) hend
  rcases hlearns.gained _ _ r hr with hold | hmade
  · rw [hstored] at hold
    cases hold
  · exact hmade

end Memo.Lookup

/-- The caches are in order: no errors in them, and each key once. -/
structure World.Tidy (w : World σ) : Prop where
  isError : ∀ mark keys v, w.stored? mark keys = some v → v.isError = false
  distinct : w.Distinct

namespace World

theorem tidy_of_caches_eq_nil (h : w.caches = []) : w.Tidy := by
  have hempty : ∀ mark, w.cache mark = .empty := by simp [cache, h, Table.get?]
  refine ⟨?_, fun mark => hempty mark ▸ Memo.Trie.distinct_empty⟩
  intro mark keys v hv
  rw [stored?, hempty, Memo.Trie.get?_empty] at hv
  cases hv

theorem tidy_of_learns {start : Proc σ Value} (hw : w.Tidy)
    (h : Learns (Memo.Made host start w) w w') : w'.Tidy := by
  refine ⟨?_, h.distinct hw.distinct⟩
  intro mark keys v hv
  rcases h.gained mark keys v hv with hold | ⟨_, _, _, _, _, _, _, hsucceeds⟩
  · exact hw.isError mark keys v hold
  · exact hsucceeds.isError

/-- The size of a cache is the number of lists of keys that it has a result for. -/
theorem exists_stored_keys (hw : w.Tidy) (mark : Nat) :
    ∃ stored : List (List Memo.Key), stored.Nodup ∧
      (∀ keys, keys ∈ stored ↔ (w.stored? mark keys).isSome = true) ∧
      (w.cache mark).size = stored.length :=
  ⟨(w.cache mark).keys, Memo.Trie.nodup_keys (hw.distinct mark),
    fun _ => Memo.Trie.mem_keys_iff (hw.distinct mark), (Memo.Trie.length_keys _).symm⟩

end World

namespace Memo

/-- What the parameter is bound to answers `v` when it is called without arguments. -/
def Forces (host : Host σ) (frame : Frame) (x : String) (w : World σ) (v : Value)
    (w' : World σ) : Prop :=
  ∃ b u w₁, frame.scope.find? x = some b ∧ (realize b).Runs host w u w₁ ∧
    Call.Answers host ⟨u, frame, []⟩ w₁ v w'

/-- The parameter has no value: its name is unknown, or it is forced to the error. -/
def Lacks (host : Host σ) (frame : Frame) (x : String) (w : World σ) (e : Value)
    (w' : World σ) : Prop :=
  frame.scope.find? x = none ∧ (fail frame (.unknownIdentifier x)).Runs host w e w' ∨
    Forces host frame x w e w' ∧ e.isError = true

/-- The parameters are forced one after the other, to one value each, none of them an error. -/
inductive ForcesAll (host : Host σ) (frame : Frame) :
    List String → World σ → List Value → World σ → Prop
  | nil {w : World σ} : ForcesAll host frame [] w [] w
  | cons {x : String} {v : Value} {params : List String} {values : List Value} {w w₁ w' : World σ}
      (hx : Forces host frame x w v w₁) (hv : v.isError = false)
      (hrest : ForcesAll host frame params w₁ values w') :
      ForcesAll host frame (x :: params) w (v :: values) w'

/-- The parameters are forced up to the first one that has no value. -/
inductive Blocks (host : Host σ) (frame : Frame) :
    List String → World σ → Value → World σ → Prop
  | here {x : String} {e : Value} {params : List String} {w w' : World σ}
      (hx : Lacks host frame x w e w') : Blocks host frame (x :: params) w e w'
  | later {x : String} {v e : Value} {params : List String} {w w₁ w' : World σ}
      (hx : Forces host frame x w v w₁) (hv : v.isError = false)
      (hrest : Blocks host frame params w₁ e w') : Blocks host frame (x :: params) w e w'

variable {frame : Frame} {x : String} {params : List String} {values : List Value}
  {r : Except Value (List Value)} {e : Value}

/-- What forcing the parameters ends with, if it ends. -/
def ForcedTo (host : Host σ) (frame : Frame) (params : List String) (w : World σ) :
    Except Value (List Value) → World σ → Prop
  | .ok values, w' => ForcesAll host frame params w values w'
  | .error e, w' => Blocks host frame params w e w'

/-- A parameter that has a value leaves the others. -/
theorem runs_forceParams_of_forces (hx : Forces host frame x w v w₁) (hv : v.isError = false) :
    (Expr.forceParams frame (x :: params)).Runs host w r w' ↔
      ∃ later, (Expr.forceParams frame params).Runs host w₁ later w' ∧ r = later.map (v :: ·) := by
  obtain ⟨b, u, w₀, hfind, hu, hans⟩ := hx
  simp only [Expr.forceParams, hfind]
  rw [runs_bind_iff hu, runs_bind_iff (runs_invoke hans)]
  simp only [hv]
  constructor
  · intro h
    obtain ⟨later, w₂, hlater, h⟩ := runs_bind_inv h
    refine ⟨later, ?_⟩
    cases later with
    | error e =>
      obtain ⟨rfl, rfl⟩ := runs_unique h runs_done
      exact ⟨hlater, rfl⟩
    | ok values =>
      obtain ⟨rfl, rfl⟩ := runs_unique h runs_done
      exact ⟨hlater, rfl⟩
  · rintro ⟨later, hlater, rfl⟩
    refine runs_bind hlater ?_
    cases later <;> exact runs_done

theorem runs_forceParams_of_lacks (hx : Lacks host frame x w e w₁) :
    (Expr.forceParams frame (x :: params)).Runs host w (.error e) w₁ := by
  rcases hx with ⟨hfind, hfail⟩ | ⟨⟨b, u, w₀, hfind, hu, hans⟩, he⟩
  · simp only [Expr.forceParams, hfind]
    exact runs_bind hfail runs_done
  · simp only [Expr.forceParams, hfind]
    refine runs_bind hu (runs_bind (runs_invoke hans) ?_)
    simp only [he]
    exact runs_done

/-- The first parameter is forced, or has no value. -/
theorem forces_or_lacks (h : (Expr.forceParams frame (x :: params)).Runs host w r w') :
    (∃ v w₁, Forces host frame x w v w₁ ∧ v.isError = false) ∨
      ∃ e w₁, Lacks host frame x w e w₁ := by
  cases hfind : frame.scope.find? x with
  | none =>
    simp only [Expr.forceParams, hfind] at h
    obtain ⟨e, w₁, hfail, -⟩ := runs_bind_inv h
    exact .inr ⟨e, w₁, .inl ⟨hfind, hfail⟩⟩
  | some b =>
    simp only [Expr.forceParams, hfind] at h
    obtain ⟨u, w₀, hu, h⟩ := runs_bind_inv h
    obtain ⟨v, w₁, hv, -⟩ := runs_bind_inv h
    have hx : Forces host frame x w v w₁ := ⟨b, u, w₀, hfind, hu, runs_invoke_iff.mp hv⟩
    cases herror : v.isError with
    | true => exact .inr ⟨v, w₁, .inr ⟨hx, herror⟩⟩
    | false => exact .inl ⟨v, w₁, hx, herror⟩

/-- Forcing ends with one value for each parameter, or with the error of the first that has none. -/
theorem runs_forceParams_iff :
    (Expr.forceParams frame params).Runs host w r w' ↔ ForcedTo host frame params w r w' := by
  constructor
  · intro h
    -- on the parameters, for any result: what the others end with decides between the two relations
    induction params generalizing w r with
    | nil =>
      obtain ⟨rfl, rfl⟩ := runs_unique h runs_done
      exact .nil
    | cons x rest ih =>
      rcases forces_or_lacks h with ⟨v, w₁, hx, hv⟩ | ⟨e, w₁, hx⟩
      · obtain ⟨later, hlater, rfl⟩ := (runs_forceParams_of_forces hx hv).mp h
        have hrest := ih hlater
        cases later with
        | error e => exact .later hx hv hrest
        | ok values => exact .cons hx hv hrest
      · obtain ⟨rfl, rfl⟩ := runs_unique h (runs_forceParams_of_lacks hx)
        exact .here hx
  · intro h
    cases r with
    | error e =>
      induction h with
      | here hx => exact runs_forceParams_of_lacks hx
      | later hx hv _ ih => exact (runs_forceParams_of_forces hx hv).mpr ⟨_, ih, rfl⟩
    | ok values =>
      induction h with
      | nil => exact runs_done
      | cons hx hv _ ih => exact (runs_forceParams_of_forces hx hv).mpr ⟨_, ih, rfl⟩

variable {id fuel : Nat} {lambda : Lambda Code} {params : List String} {body : Code}
  {scope : Scope} {caller : Frame} {args values : List Value}

/-- The frame in which a closure that is called evaluates its body. -/
def bodyFrame (id : Nat) (lambda : Lambda Code) (scope : Scope) (caller : Frame)
    (args : List Value) : Frame :=
  (caller.descend lambda.name).withScope
    ((scope.add lambda.name (.closure id lambda scope)).addAll (lambda.params.zip args))

/-- A call of a memo function comes to the look-up for its forced parameters. -/
theorem comes_of_forceParams (hbody : lambda.body = .memo mark params body)
    (hlength : args.length = lambda.params.length)
    (hstop : w.stop? (caller.descend lambda.name) = none)
    (hforce : (Expr.forceParams (bodyFrame id lambda scope caller args) params).Runs host w
      (.ok values) w₁) :
    Comes host (Call.proc host ⟨.closure id lambda scope, caller, args⟩) w
      (Lookup.proc ⟨mark, params, body, bodyFrame id lambda scope caller args, values⟩) w₁ := by
  let inner := bodyFrame id lambda scope caller args
  have hlookup : Comes host ((Expr.memo mark params body).eval inner []) w
      (Lookup.proc ⟨mark, params, body, inner, values⟩ >>= fun r => applyRest r inner []) w₁ := by
    rw [Expr.eval_memo]
    exact comes_of_part hforce .refl
  have hcall : Comes host (Call.proc host ⟨.closure id lambda scope, caller, args⟩) w
      ((Expr.memo mark params body).eval inner [] >>= fun r => applyRest r caller []) w := by
    change Comes host (Call.runClosure _ lambda scope caller args) w _ w
    simp only [Call.runClosure, hlength, Nat.lt_irrefl, if_false, hbody,
      List.drop_eq_nil_of_le (Nat.le_of_eq hlength)]
    exact comes_of_part (runs_stop? hstop) .refl
  have hcomes := comes_trans hcall (comes_bind hlookup)
  -- no arguments are left over, neither for the memo nor for the function around it
  simp only [bind_bind] at hcomes
  change Comes host _ w (Lookup.proc _ >>= done) w₁ at hcomes
  rwa [bind_done] at hcomes

/-- The look-up in a call of a memo function, and the world that it is made in. -/
def lookup? (host : Host σ) (fuel : Nat) (c : Call) (w : World σ) : Option (Lookup × World σ) :=
  match c with
  | ⟨.closure id ⟨name, params, .memo mark params' body⟩ scope, caller, args⟩ =>
    let frame := bodyFrame id ⟨name, params, .memo mark params' body⟩ scope caller args
    if args.length = params.length ∧ (w.stop? (caller.descend name)).isNone then
      match (Expr.forceParams frame params').exec (Call.answer host fuel) w with
      | some (.ok values, w₁) => some (⟨mark, params', body, frame, values⟩, w₁)
      | _ => none
    else none
  | _ => none

theorem comes_of_lookup? (h : lookup? host fuel c w = some (l, w₁)) :
    (Expr.forceParams l.frame l.params).Runs host w (.ok l.values) w₁ ∧
      Comes host (c.proc host) w l.proc w₁ := by
  unfold lookup? at h
  split at h
  next id name params mark params' body scope caller args =>
    dsimp only at h
    split at h
    next hcall =>
      split at h
      next values w₂ hforce =>
        obtain ⟨rfl, rfl⟩ := Prod.mk.inj (Option.some.inj h)
        obtain ⟨hlength, hstop⟩ := hcall
        exact ⟨⟨fuel, hforce⟩,
          comes_of_forceParams rfl hlength (Option.isNone_iff_eq_none.mp hstop) ⟨fuel, hforce⟩⟩
      next => cases h
    next => cases h
  next => cases h

end Memo

/-- The look-ups in the calls that a procedure makes, each with the world that it is made in. -/
def Proc.lookups (host : Host σ) (fuel : Nat) (p : Proc σ α) (w : World σ) :
    List (Lookup × World σ) :=
  (p.calls (Call.answer host fuel) w).filterMap fun (c, w') => Memo.lookup? host fuel c w'

theorem Proc.remains_of_mem_lookups {p : Proc σ Value} {fuel : Nat}
    (h : (l, w') ∈ p.lookups host fuel w) :
    ∃ w₁, (Expr.forceParams l.frame l.params).Runs host w₁ (.ok l.values) w' ∧
      Remains host p w l.proc w' := by
  obtain ⟨⟨c, w₁⟩, hc, hlookup⟩ := List.mem_filterMap.mp h
  obtain ⟨hforce, hcomes⟩ := Memo.comes_of_lookup? hlookup
  exact ⟨w₁, hforce, .inr ⟨c, w₁, ⟨[], .made (makes_of_mem_calls hc)⟩, hcomes⟩⟩

/-- The characters of a string, and nothing for other values. -/
def Value.text? : Value → Option String
  | .string s => some s
  | _ => none

theorem Value.text?_eq_some {s : String} (h : v.text? = some s) : v = .string s := by
  cases v <;> simp_all [text?]

namespace Program

theorem tame_start (program : Program) (frame : Frame) :
    Tame (program.start frame : Proc σ Value) := by
  cases program with
  | entry m name args =>
    simp only [start, Module.call]
    split
    · exact tame_fail frame _
    next b _ => exact tame_realized b _ args
  | fragment code => exact Expr.tame_eval code frame []

/--
The evaluation of a memo forces its parameters, looks up its cache and goes on with the result. The
parameters are called in order and without arguments, up to the first that is unknown or yields an
error; the look-up is for the values that they yield. A look-up that hits yields what is stored,
with no call and no change. One that misses makes one call, for the body with the parameters bound
to their values. What that yields is stored if it is no error; if it is, whatever is there for the
same keys was stored by look-ups inside that call. Over the whole run, no cache has an error in it,
its size is the number of lists of keys stored in it, and from each point of the run to all later
ones no keys are lost.
-/
theorem memo_state_machine (hhost : host.Tame) (program : Program) (frame : Frame)
    {w₀ : World σ} (hw₀ : w₀.Tidy) :
    (∀ mark params body caller args,
      (Expr.eval (.memo mark params body) caller args : Proc σ Value) =
        Expr.forceParams caller params >>= fun forced =>
          match forced with
          | .error e => pure e
          | .ok values =>
            (⟨mark, params, body, caller, values⟩ : Lookup).proc >>= fun result =>
              applyRest result caller args) ∧
    (∀ caller params w w',
      (∀ values, (Expr.forceParams caller params).Runs host w (.ok values) w' ↔
        Memo.ForcesAll host caller params w values w') ∧
      ∀ e, (Expr.forceParams caller params).Runs host w (.error e) w' ↔
        Memo.Blocks host caller params w e w') ∧
    (∀ (l : Lookup) (w : World σ) (r : Value), w.stored? l.mark l.keys = some r →
      l.proc.Runs host w r w ∧ ∀ fuel, l.proc.calls (Call.answer host fuel) w = []) ∧
    (∀ (l : Lookup) (w : World σ), w.stored? l.mark l.keys = none →
      (∀ fuel, l.proc.calls (Call.answer host fuel) w = [(l.request, w)]) ∧
      ∀ v w₁, l.request.Answers host w v w₁ →
        (v.isError = false →
          l.proc.Runs host w v (w₁.store l.mark l.keys v) ∧
          (w₁.store l.mark l.keys v).stored? l.mark l.keys = some v) ∧
        (v.isError = true →
          l.proc.Runs host w v w₁ ∧
          ∀ r, w₁.stored? l.mark l.keys = some r →
            Memo.Made host (l.request.proc host) w l.mark l.keys r)) ∧
    ∀ q w, Remains host (program.start frame) w₀ q w →
      (∀ mark keys v, w.stored? mark keys = some v → v.isError = false) ∧
      (∀ mark, ∃ stored : List (List Memo.Key), stored.Nodup ∧
        (∀ keys, keys ∈ stored ↔ (w.stored? mark keys).isSome = true) ∧
        (w.cache mark).size = stored.length) ∧
      ∀ q' w', Remains host q w q' w' →
        ∀ mark keys, (w.stored? mark keys).isSome = true →
          (w'.stored? mark keys).isSome = true := by
  have hstart : Tame (program.start frame : Proc σ Value) := tame_start program frame
  refine ⟨Expr.eval_memo, ?_, ?_, ?_, ?_⟩
  · exact fun _ _ _ _ => ⟨fun _ => Memo.runs_forceParams_iff, fun _ => Memo.runs_forceParams_iff⟩
  · intro l w r hstored
    exact ⟨Expr.storedOr_runs_of_stored hstored, fun _ => Lookup.calls_of_hit hstored⟩
  · intro l w hstored
    refine ⟨fun _ => Lookup.calls_of_miss hstored, ?_⟩
    intro v w₁ hbody
    refine ⟨?_, ?_⟩
    · intro herror
      exact ⟨Lookup.runs_of_success ⟨hstored, hbody, herror⟩, by simp⟩
    · intro herror
      refine ⟨Lookup.runs_of_failure hstored hbody herror, ?_⟩
      exact fun r hr => Lookup.made_of_stored hhost hstored hbody hr
  · intro q w hq
    have htidy : w.Tidy :=
      World.tidy_of_learns hw₀ (learns_of_remains hhost hstart (.inl .refl) hq)
    refine ⟨htidy.isError, World.exists_stored_keys htidy, ?_⟩
    intro q' w' hq'
    exact (learns_of_remains hhost hstart hq hq').kept

/-- A memo that is called twice with equal arguments. -/
def twice : Program :=
  .fragment <|
    match Expr.ofSource "let memo f x => + x 'b'; f 'a'; f 'a'" with
    | .ok e => (e.allot 0).1
    | .error _ => .empty

/-- Both calls look up the same keys, and only the first one finds nothing there. -/
theorem lookups_twice :
    ((twice.start firstFrame).lookups Host.none 40 firstWorld).map (fun (l, w) =>
      (l.mark, l.keys, (w.stored? l.mark l.keys).map Value.text?,
        (Call.answer Host.none 40 l.request w).map (·.1.text?))) =
      [(0, [.string "a"], none, some (some "ab")),
        (0, [.string "a"], some (some "ab"), some (some "ab"))] := by
  decide +kernel

theorem exec_twice :
    ((twice.start firstFrame).exec (Call.answer Host.none 40) firstWorld).map (fun (v, w) =>
      (v.text?, (w.cache 0).size)) = some (some "ab", 1) := by
  decide +kernel

/-- The first call evaluates the body, and the second one goes on with what is stored. -/
theorem memo_state_machine_twice :
    Host.none.Tame ∧ firstWorld.Tidy ∧
    ∃ (l l' : Lookup) (w₁ w₂ w₃ w : World Unit),
      (twice.start firstFrame).lookups Host.none 40 firstWorld = [(l, w₁), (l', w₂)] ∧
      Remains Host.none (twice.start firstFrame) firstWorld l.proc w₁ ∧
      Remains Host.none (twice.start firstFrame) firstWorld l'.proc w₂ ∧
      l'.mark = l.mark ∧ l'.keys = l.keys ∧
      (∃ w₀, Memo.ForcesAll Host.none l.frame l.params w₀ l.values w₁) ∧
      w₁.stored? l.mark l.keys = none ∧
      (∀ fuel, l.proc.calls (Call.answer Host.none fuel) w₁ = [(l.request, w₁)]) ∧
      l.proc.Runs Host.none w₁ (.string "ab") (w₃.store l.mark l.keys (.string "ab")) ∧
      w₂.stored? l.mark l.keys = some (.string "ab") ∧
      (∀ fuel, l'.proc.calls (Call.answer Host.none fuel) w₂ = []) ∧
      l'.proc.Runs Host.none w₂ (.string "ab") w₂ ∧
      (twice.start firstFrame).Runs Host.none firstWorld (.string "ab") w ∧
      (w.cache l.mark).size = 1 ∧
      ∃ stored : List (List Memo.Key), stored.Nodup ∧
        (∀ keys, keys ∈ stored ↔ (w.stored? l.mark keys).isSome = true) ∧
        (w.cache l.mark).size = stored.length := by
  have hworld : firstWorld.Tidy := World.tidy_of_caches_eq_nil rfl
  obtain ⟨-, hforces, hhit, hmiss, hpoints⟩ :=
    memo_state_machine Host.tame_none twice firstFrame hworld
  obtain ⟨⟨l, w₁⟩, rest, hlookups, hfirst, hrest⟩ := List.map_eq_cons_iff.mp lookups_twice
  obtain ⟨⟨l', w₂⟩, rest', rfl, hsecond, hnil⟩ := List.map_eq_cons_iff.mp hrest
  obtain rfl := List.map_eq_nil_iff.mp hnil
  simp only [Prod.mk.injEq] at hfirst hsecond
  obtain ⟨hmark, hkeys, hnone, hyields⟩ := hfirst
  obtain ⟨hmark', hkeys', hsome, -⟩ := hsecond
  obtain ⟨w₀, hforce, hremains⟩ :=
    remains_of_mem_lookups (hlookups ▸ List.mem_cons_self : (l, w₁) ∈ _)
  obtain ⟨-, -, hremains'⟩ :=
    remains_of_mem_lookups (hlookups ▸ List.mem_cons_of_mem _ List.mem_cons_self : (l', w₂) ∈ _)
  obtain ⟨⟨v, w₃⟩, hanswer, hv⟩ := Option.map_eq_some_iff.mp hyields
  obtain rfl := Value.text?_eq_some hv
  obtain ⟨r, hstored, hr⟩ := Option.map_eq_some_iff.mp hsome
  obtain rfl := Value.text?_eq_some hr
  obtain ⟨⟨u, w⟩, hexec, hend⟩ := Option.map_eq_some_iff.mp exec_twice
  obtain ⟨hu, hsize⟩ := Prod.mk.inj hend
  obtain rfl := Value.text?_eq_some hu
  have hrun : (twice.start firstFrame).Runs Host.none firstWorld (.string "ab") w := ⟨40, hexec⟩
  obtain ⟨hcalls, hyielded⟩ := hmiss l w₁ (Option.map_eq_none_iff.mp hnone)
  obtain ⟨hmissed, -⟩ := (hyielded _ _ ⟨40, hanswer⟩).1 rfl
  obtain ⟨hrecalled, hcalls'⟩ := hhit l' w₂ _ hstored
  obtain ⟨-, hsizes, -⟩ := hpoints _ _ (.inl (comes_of_runs hrun))
  rw [← hmark] at hmark' hsize
  rw [← hkeys] at hkeys'
  rw [hmark', hkeys'] at hstored
  exact ⟨Host.tame_none, hworld, l, l', w₁, w₂, w₃, w, hlookups, hremains, hremains', hmark',
    hkeys', ⟨w₀, ((hforces _ _ _ _).1 _).mp hforce⟩, Option.map_eq_none_iff.mp hnone, hcalls,
    hmissed, hstored, hcalls', hrecalled, hrun, hsize, hsizes l.mark⟩

end Program

end ChainScript
