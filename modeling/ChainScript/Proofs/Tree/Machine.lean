import ChainScript.Proofs.Tree.Arena
import ChainScript.Proofs.Tree.Parse
import ChainScript.Tree.Machine

/-!
The machine and the recursive parser agree. What the parser does with one symbol, the machine does
from the moment the symbol is on top of its stack to the moment the stack below it is bare again;
in between it grafts the tree at its cursor, which comes back to where it was. So the arena of an
accepted source is well formed and holds the tree that the parser gives.
-/
namespace ChainScript

open Grammar

namespace Machine

/-- The machine gets from one state to another. -/
def Steps : Machine → Machine → Prop :=
  Relation.ReflTransGen fun m m' => m.step = .inl m'

/-- The machine stops with a result. -/
def Halts (m : Machine) (r : Except ParseError Arena) : Prop :=
  ∃ m', m.Steps m' ∧ m'.step = .inr r

variable {m m' : Machine} {r r' : Except ParseError Arena}

theorem Steps.single (h : m.step = .inl m') : m.Steps m' := Relation.ReflTransGen.single h

theorem Halts.of_steps (h : m.Steps m') (hr : m'.Halts r) : m.Halts r := by
  obtain ⟨last, hlast, hstop⟩ := hr
  exact ⟨last, h.trans hlast, hstop⟩

theorem Halts.of_step (h : m.step = .inr r) : m.Halts r := ⟨m, .refl, h⟩

/-- A machine that stops after some steps stops in the same way from any state on the path. -/
theorem Halts.after (hr : m.Halts r) (h : m.Steps m') : m'.Halts r := by
  induction h with
  | refl => exact hr
  | tail _ hstep ih =>
    obtain ⟨last, hlast, hstop⟩ := ih
    rcases Relation.ReflTransGen.cases_head hlast with rfl | ⟨next, hnext, hrest⟩
    · simp [hstep] at hstop
    · obtain rfl : next = _ := Sum.inl.inj (hnext.symm.trans hstep)
      exact ⟨last, hrest, hstop⟩

theorem Halts.unique (h : m.Halts r) (h' : m.Halts r') : r = r' := by
  obtain ⟨last, hlast, hstop⟩ := h
  obtain ⟨last', hlast', hstop'⟩ := h'.after hlast
  rcases Relation.ReflTransGen.cases_head hlast' with rfl | ⟨next, hnext, _⟩
  · exact Sum.inr.inj (hstop.symm.trans hstop')
  · simp [hstop] at hnext

end Machine

namespace Tree

variable {bound : Nat} {n start : Nonterminal} {x : Grammar.Symbol} {xs : List Grammar.Symbol}
  {s s' : TokenStream} {t : Tree} {ts : List Tree} {e : ParseError}

theorem parseAll_cons_eq_error {parseOne : Grammar.Symbol → TokenStream → Outcome Tree}
    (h : parseAll parseOne (x :: xs) s = some (.error e)) :
    parseOne x s = some (.error e) ∨ ∃ t rest, parseOne x s = some (.ok (t, rest)) ∧
      parseAll parseOne xs rest = some (.error e) := by
  simp only [parseAll] at h
  split at h
  · simp at h
  · rename_i e' hone
    obtain rfl : e' = e := by simpa using h
    exact .inl hone
  · rename_i t rest hone
    split at h
    · simp at h
    · rename_i e' hall
      obtain rfl : e' = e := by simpa using h
      exact .inr ⟨t, rest, hone, hall⟩
    · simp at h

/-- An expansion fails in front of a fault, without a rule, or inside the right side. -/
theorem parseSymbol_nonterm_eq_error (h : parseSymbol bound (.nonterm n) s = some (.error e)) :
    (∃ q, s = .unclosed q ∧ e = .unclosedString q) ∨
    (∀ q, s ≠ .unclosed q) ∧ (expand? n (.ofStream s) = none ∧ e = refuse n s ∨
      ∃ bound' xs, bound = bound' + 1 ∧ expand? n (.ofStream s) = some xs ∧
        parseAll (parseSymbol bound') xs s = some (.error e)) := by
  by_cases hs : ∃ q, s = .unclosed q
  · obtain ⟨q, rfl⟩ := hs
    exact .inl ⟨q, rfl, by simpa [parseSymbol] using h.symm⟩
  · have hs : ∀ q, s ≠ .unclosed q := fun q he => hs ⟨q, he⟩
    refine .inr ⟨hs, ?_⟩
    cases bound with
    | zero =>
      cases s with
      | unclosed q => exact (hs q rfl).elim
      | _ => simp [parseSymbol] at h
    | succ bound' =>
      rw [parseSymbol_succ hs] at h
      split at h
      · rename_i hx
        exact .inl ⟨hx, by simpa using h.symm⟩
      · rename_i xs hx
        split at h
        · simp at h
        · rename_i e' hall
          obtain rfl : e' = e := by simpa using h
          exact .inr ⟨bound', xs, rfl, hx, hall⟩
        · simp at h

end Tree

namespace Machine

open ChainScript.Tree (parseSymbol parseAll)

variable {bound : Nat} {n start : Nonterminal} {x : Symbol} {xs : List Symbol}
  {s s' : TokenStream} {t : Tree} {ts : List Tree} {e : ParseError}
  {a : Arena} {stack : List Entry} {cursor : Option Nat}

/-- One expansion. -/
theorem step_nonterm (n : Nonterminal) (a : Arena) (stack : List Entry) (cursor : Option Nat)
    (hs : ∀ q, s ≠ .unclosed q) :
    step ⟨a, .symbol (.nonterm n) :: stack, cursor, s⟩ =
      match expand? n (.ofStream s) with
      | none => .inr (.error (Tree.refuse n s))
      | some xs =>
        .inl ⟨a.push cursor (.node n []), xs.map .symbol ++ .close :: stack, some a.size, s⟩ := by
  cases s with
  | unclosed q => exact (hs q rfl).elim
  | _ => rfl

theorem step_unclosed {q : Position} :
    step ⟨a, .symbol x :: stack, cursor, .unclosed q⟩ = .inr (.error (.unclosedString q)) := by
  cases x <;> rfl

theorem step_leaf (hx : ∀ n, x ≠ .nonterm n)
    (h : parseSymbol bound x s = some (.ok (t, s'))) :
    step ⟨a, .symbol x :: stack, cursor, s⟩ = .inl ⟨a.graft cursor t, stack, cursor, s'⟩ := by
  cases x with
  | nonterm n => exact (hx n rfl).elim
  | epsilon =>
    cases s with
    | unclosed q => simp [parseSymbol] at h
    | _ =>
      obtain ⟨rfl, rfl⟩ : .epsilon = t ∧ _ = s' := by simpa [parseSymbol] using h
      rfl
  | term b =>
    cases s with
    | unclosed q => simp [parseSymbol] at h
    | finished p => simp [parseSymbol] at h
    | token token rest =>
      rw [parseSymbol] at h
      split at h
      · rename_i hb
        obtain ⟨rfl, rfl⟩ : .leaf token = t ∧ rest = s' := by simpa using h
        simp [step, hb, Arena.graft]
      · simp at h

theorem step_leaf_error (hx : ∀ n, x ≠ .nonterm n)
    (h : parseSymbol bound x s = some (.error e)) :
    step ⟨a, .symbol x :: stack, cursor, s⟩ = .inr (.error e) := by
  cases x with
  | nonterm n => exact (hx n rfl).elim
  | epsilon =>
    cases s with
    | unclosed q =>
      obtain rfl : _ = e := by simpa [parseSymbol] using h
      rfl
    | _ => simp [parseSymbol] at h
  | term b =>
    cases s with
    | token token rest =>
      rw [parseSymbol] at h
      split at h
      · simp at h
      · rename_i hb
        obtain rfl : _ = e := by simpa using h
        simp [step, hb]
    | _ =>
      obtain rfl : _ = e := by simpa [parseSymbol] using h
      rfl

theorem lt_size_graft (t : Tree) (h : ∀ p ∈ cursor, p < a.size) :
    ∀ p ∈ cursor, p < (a.graft cursor t).size := by
  intro p hp
  have hlt := h p hp
  rw [Arena.size_graft t h]
  omega

/-- The machine goes through a right side if it goes through each symbol of it. -/
theorem steps_parseAll (stack : List Entry)
    (hone : ∀ {x s t s' a stack}, parseSymbol bound x s = some (.ok (t, s')) →
      (∀ p ∈ cursor, p < a.size) →
      Steps ⟨a, .symbol x :: stack, cursor, s⟩ ⟨a.graft cursor t, stack, cursor, s'⟩)
    (h : parseAll (parseSymbol bound) xs s = some (.ok (ts, s')))
    (hcursor : ∀ p ∈ cursor, p < a.size) :
    Steps ⟨a, xs.map .symbol ++ stack, cursor, s⟩ ⟨a.graftAll cursor ts, stack, cursor, s'⟩ := by
  induction xs generalizing s ts a with
  | nil =>
    obtain ⟨rfl, rfl⟩ : [] = ts ∧ s = s' := by simpa [parseAll] using h
    exact .refl
  | cons x xs ih =>
    obtain ⟨t, rest, ts, ht, hts, rfl⟩ := Tree.parseAll_cons_eq_ok.mp h
    exact (hone ht hcursor).trans (ih hts (lt_size_graft t hcursor))

/-- What the parser makes of a symbol, the machine grafts at its cursor. -/
theorem steps_parseSymbol (h : parseSymbol bound x s = some (.ok (t, s')))
    (hcursor : ∀ p ∈ cursor, p < a.size) :
    Steps ⟨a, .symbol x :: stack, cursor, s⟩ ⟨a.graft cursor t, stack, cursor, s'⟩ := by
  induction bound using Nat.strongRecOn generalizing x s t s' a stack cursor with
  | ind bound ih =>
  cases x with
  | nonterm n =>
    have hs : ∀ q, s ≠ .unclosed q := by
      rintro q rfl
      simp [parseSymbol] at h
    obtain ⟨bound, xs, children, rfl, hx, hall, rfl⟩ := Tree.parseSymbol_nonterm_eq_ok h
    have hopen := step_nonterm n a stack cursor hs
    rw [hx] at hopen
    have hinner : ∀ p ∈ some a.size, p < (a.push cursor (.node n [])).size := by
      simp
    have hparts := steps_parseAll (.close :: stack) (ih bound (by omega)) hall hinner
    -- Behind the right side the cursor finds the parent that the new node was given.
    have hback : ((a.push cursor (.node n [])).graftAll (some a.size) children).parent? a.size =
        cursor := by
      rw [Arena.parent?_graftAll children hinner (by simp), Arena.parent?_push hcursor,
        if_pos rfl]
    refine (Steps.single hopen).trans (hparts.trans (.single ?_))
    simp [step, Arena.graft, hback]
  | _ => exact .single (step_leaf (by simp) h)

theorem halts_parseAll (stack : List Entry)
    (hone : ∀ {x s a stack}, parseSymbol bound x s = some (.error e) →
      (∀ p ∈ cursor, p < a.size) → Halts ⟨a, .symbol x :: stack, cursor, s⟩ (.error e))
    (h : parseAll (parseSymbol bound) xs s = some (.error e))
    (hcursor : ∀ p ∈ cursor, p < a.size) :
    Halts ⟨a, xs.map .symbol ++ stack, cursor, s⟩ (.error e) := by
  induction xs generalizing s a with
  | nil => simp [parseAll] at h
  | cons x xs ih =>
    rcases Tree.parseAll_cons_eq_error h with hx | ⟨t, rest, ht, hts⟩
    · exact hone hx hcursor
    · exact (ih hts (lt_size_graft t hcursor)).of_steps (steps_parseSymbol ht hcursor)

/-- Where the parser fails on a symbol, the machine stops. -/
theorem halts_parseSymbol (h : parseSymbol bound x s = some (.error e))
    (hcursor : ∀ p ∈ cursor, p < a.size) :
    Halts ⟨a, .symbol x :: stack, cursor, s⟩ (.error e) := by
  induction bound using Nat.strongRecOn generalizing x s a stack cursor with
  | ind bound ih =>
  cases x with
  | nonterm n =>
    rcases Tree.parseSymbol_nonterm_eq_error h with ⟨q, rfl, rfl⟩ | ⟨hs, hnone | hsome⟩
    · exact .of_step step_unclosed
    · obtain ⟨hx, rfl⟩ := hnone
      have hstop := step_nonterm n a stack cursor hs
      rw [hx] at hstop
      exact .of_step hstop
    · obtain ⟨bound, xs, rfl, hx, hall⟩ := hsome
      have hopen := step_nonterm n a stack cursor hs
      rw [hx] at hopen
      refine Halts.of_steps (.single hopen) ?_
      exact halts_parseAll (.close :: stack) (ih bound (by omega)) hall (by simp)
  | _ => exact .of_step (step_leaf_error (by simp) h)

/-- The machine stops with the result of the parser. -/
theorem halts_parse (start : Nonterminal) (s : TokenStream) :
    (Machine.start start s).Halts ((Tree.parse start s).map (Arena.graft {} none)) := by
  cases hr : parseSymbol (Tree.depthBound s) (.nonterm start) s with
  | none => exact (Tree.parseSymbol_depthBound_ne_none start s hr).elim
  | some r =>
    cases r with
    | error e =>
      rw [Tree.parse, hr]
      exact halts_parseSymbol hr (by simp)
    | ok q =>
      obtain ⟨t, rest⟩ := q
      refine Halts.of_steps (steps_parseSymbol hr (by simp)) (.of_step ?_)
      rw [Tree.parse, hr]
      cases rest <;> rfl

/-- The machine halts on every stream, with the result of the parser and its tree in the arena. -/
theorem halts_start_iff {r : Except ParseError Arena} :
    (Machine.start start s).Halts r ↔ r = (Tree.parse start s).map (Arena.graft {} none) := by
  constructor
  · intro h
    exact h.unique (halts_parse start s)
  · rintro rfl
    exact halts_parse start s

/--
The arena of an accepted source is the preorder listing of its parse tree. It is well formed, and
its leaves are the tokens of the source.
-/
theorem arena_of_parse {source : String}
    (h : Tree.parse start (.ofSource source) = .ok t) :
    ∃ a : Arena, (∀ r, (Machine.start start (.ofSource source)).Halts r ↔ r = .ok a) ∧
      a.nodes.toList = t.listing none 0 ∧ a.WellFormed start ∧
      a.leaves = (TokenStream.ofSource source).toList := by
  obtain ⟨hroot, _, _, hleaves⟩ := Tree.spells_of_parse h
  obtain ⟨children, rfl⟩ := Tree.symbol_eq_nonterm hroot
  refine ⟨Arena.graft {} none (.node start children), ?_, ?_, ?_, ?_⟩
  · intro r
    rw [halts_start_iff, h]
    rfl
  · exact Arena.toList_graft_root _
  · exact Arena.wellFormed_graft start children
  · rw [Arena.leaves_graft, Arena.toList_graft_root, Tree.token?_listing, hleaves]

theorem arena_of_parse_main : ∃ t a, Tree.parse .script (.ofSource "main => + [1] x;") = .ok t ∧
    (Machine.start .script (.ofSource "main => + [1] x;")).Halts (.ok a) ∧
    a.WellFormed .script ∧ a.leaves.map (·.position.column) = [1, 6, 9, 11, 12, 13, 15, 16] := by
  obtain ⟨t, ht⟩ : ∃ t, Tree.parse .script (.ofSource "main => + [1] x;") = .ok t := by
    have hok : (Tree.parse .script (.ofSource "main => + [1] x;")).isOk = true := by
      decide +kernel
    cases hr : Tree.parse .script (.ofSource "main => + [1] x;") with
    | error e => simp [hr, Except.isOk, Except.toBool] at hok
    | ok t => exact ⟨t, rfl⟩
  obtain ⟨a, hhalts, _, hwell, hleaves⟩ := arena_of_parse ht
  refine ⟨t, a, ht, (hhalts _).mpr rfl, hwell, ?_⟩
  rw [hleaves]
  decide +kernel

end Machine

end ChainScript
