import ChainScript.Proofs.Tree.Viable

/-!
The machine halts. Each token pays for a fixed number of steps, and a symbol is charged with the
steps that the tokens it takes do not pay for. What a nonterminal is charged covers each of its
right sides, since the nonterminals at the left end have smaller ranks and a symbol that is not
nullable takes a token. So every step, even if it consumes nothing, takes something off the budget
of the machine, and the number of steps is at most proportional to that of the tokens.
-/
namespace ChainScript

open Grammar

namespace Grammar

/-- The number of steps that a token pays for. -/
def worth : Nat := 64

namespace Symbol

/--
The steps from a symbol on top of the stack to the bare stack below it, less those that the tokens
taken on the way pay for.
-/
def charge : Symbol → Int
  | term _ => 1 - worth
  | epsilon => 1
  | nonterm .script | nonterm .fragment => 5
  -- An expression is two ranks above its operand: two steps for the expansion itself and three for
  -- each of the four symbols behind the operand, which may be empty, make seven a rank.
  | nonterm n => if Grammar.nullable n then 3 else 7 * rank n + 3 - worth

/-- The steps that a symbol may take before a token pays for more. -/
def advance : Symbol → Int
  | nonterm n => rank n + 3
  | _ => 1

end Symbol

def chargeAll : List Symbol → Int
  | [] => 0
  | x :: xs => x.charge + chargeAll xs

/-- The steps that a right side may take before a token pays for more, wherever it gets stuck. -/
def advanceAll : List Symbol → Int
  | [] => 0
  | x :: xs => max x.advance (x.charge + advanceAll xs)

/-- The charge of a nonterminal covers its right sides, the expansion and the way back up. -/
theorem productions_charge (n : Nonterminal) : ∀ xs ∈ productions n,
    chargeAll xs + 2 ≤ (Symbol.nonterm n).charge ∧
      advanceAll xs + 1 ≤ (Symbol.nonterm n).advance := by
  cases n <;> decide

theorem charge_lt_worth (n : Nonterminal) :
    (Symbol.nonterm n).charge + 1 < worth ∧ (Symbol.nonterm n).advance < worth := by
  cases n <;> decide

theorem Symbol.one_le_advance (x : Symbol) : 1 ≤ x.advance := by
  cases x with
  | nonterm n => simp only [advance]; omega
  | _ => exact Int.le_refl 1

end Grammar

namespace Machine

/-- The steps that a stack may take before a token pays for more, the one that stops included. -/
def reserve : List Entry → Int
  | [] => 1
  | .close :: stack => 1 + reserve stack
  | .symbol x :: stack => max x.advance (x.charge + reserve stack)

/-- The number of steps that a machine has left. -/
def budget (m : Machine) : Int := worth * m.stream.toList.length + reserve m.stack

theorem one_le_reserve (stack : List Entry) : 1 ≤ reserve stack := by
  induction stack with
  | nil => exact Int.le_refl 1
  | cons entry stack ih =>
    cases entry with
    | close => simp only [reserve]; omega
    | symbol x => exact Int.le_trans x.one_le_advance (Int.le_max_left _ _)

theorem reserve_append (xs : List Symbol) (stack : List Entry) :
    reserve (xs.map .symbol ++ stack) ≤ max (advanceAll xs) (chargeAll xs + reserve stack) := by
  induction xs with
  | nil => simp only [List.map_nil, List.nil_append, chargeAll]; omega
  | cons x xs ih =>
    simp only [List.map_cons, List.cons_append, reserve, advanceAll, chargeAll]
    omega

variable {m m' : Machine} {k : Nat}

/-- Every step that goes on takes something off the budget. -/
theorem budget_step (h : m.step = .inl m') : m'.budget + 1 ≤ m.budget := by
  cases move_of_step h with
  | close => simp only [budget, reserve]; omega
  | epsilon hs =>
    simp only [budget, reserve, Symbol.charge]
    omega
  | token t =>
    simp only [budget, reserve, Symbol.charge, TokenStream.toList, List.length_cons, worth]
    omega
  | @expand a stack cursor s n xs hs hx =>
    obtain ⟨hcharge, hadvance⟩ := productions_charge n xs (expand?_mem_productions hx)
    have happend := reserve_append xs (.close :: stack)
    have hpos := one_le_reserve stack
    simp only [reserve] at happend
    simp only [budget, reserve]
    omega

theorem one_le_budget (m : Machine) : 1 ≤ m.budget := by
  have hpos := one_le_reserve m.stack
  simp only [budget, worth]
  omega

/-- The machine gets from one state to another in so many steps. -/
inductive StepsIn : Machine → Nat → Machine → Prop
  | refl (m : Machine) : StepsIn m 0 m
  | head {m m' m'' : Machine} {k : Nat} (h : m.step = .inl m') (hs : StepsIn m' k m'') :
      StepsIn m (k + 1) m''

theorem StepsIn.steps (h : m.StepsIn k m') : m.Steps m' := by
  induction h with
  | refl m => exact .refl
  | head h _ ih => exact .head h ih

theorem budget_stepsIn (h : m.StepsIn k m') : m'.budget + k ≤ m.budget := by
  induction h with
  | refl m => simp
  | head h _ ih =>
    have hstep := budget_step h
    omega

/-- From any state the machine comes to a stop. -/
theorem exists_stepsIn (m : Machine) : ∃ k last r, m.StepsIn k last ∧ last.step = .inr r := by
  obtain ⟨b, hb⟩ : ∃ b : Nat, m.budget ≤ b := ⟨m.budget.toNat, Int.self_le_toNat _⟩
  induction b generalizing m with
  | zero =>
    have hpos := one_le_budget m
    omega
  | succ b ih =>
    cases hstep : m.step with
    | inr r => exact ⟨0, m, r, .refl m, hstep⟩
    | inl m' =>
      have hless := budget_step hstep
      obtain ⟨k, last, r, hrun, hstop⟩ := ih m' (by omega)
      exact ⟨k + 1, last, r, .head hstep hrun, hstop⟩

theorem budget_start (start : Nonterminal) (s : TokenStream) :
    (Machine.start start s).budget ≤ worth * (s.toList.length + 1) := by
  obtain ⟨hcharge, hadvance⟩ := charge_lt_worth start
  simp only [budget, Machine.start, reserve, worth] at *
  omega

/-- No sequence of steps goes on forever, wherever it starts. -/
theorem exists_step_ne (run : Nat → Machine) : ∃ i, (run i).step ≠ .inl (run (i + 1)) := by
  by_contra! hrun
  have hbudget : ∀ i : Nat, (run i).budget + i ≤ (run 0).budget := by
    intro i
    induction i with
    | zero => simp
    | succ i ih =>
      have hstep := budget_step (hrun i)
      omega
  have hpos := one_le_budget (run (run 0).budget.toNat)
  have hlast := hbudget (run 0).budget.toNat
  omega

/--
On every stream and for every nonterminal the machine halts, after a number of steps that is at most
proportional to the number of tokens, with the result of the parser. It goes through no infinite
sequence of steps at all, and the steps between two tokens are bounded by what is on the stack.
-/
theorem halts_within (start : Nonterminal) (s : TokenStream) :
    (∃ k last, (Machine.start start s).StepsIn k last ∧
      last.step = .inr ((Tree.parse start s).map (Arena.graft {} none)) ∧
      k < worth * (s.toList.length + 1)) ∧
    (∀ run : Nat → Machine, ∃ i, (run i).step ≠ .inl (run (i + 1))) ∧
    ∀ m k m', StepsIn m k m' → m'.stream = m.stream → k < reserve m.stack := by
  refine ⟨?_, exists_step_ne, ?_⟩
  · obtain ⟨k, last, r, hrun, hstop⟩ := exists_stepsIn (Machine.start start s)
    have hr := halts_start_iff.mp ⟨last, hrun.steps, hstop⟩
    have hbudget := budget_stepsIn hrun
    have hpos := one_le_budget last
    have hstart := budget_start start s
    refine ⟨k, last, hrun, hr ▸ hstop, ?_⟩
    simp only [worth] at *
    omega
  · intro m k m' hrun hstream
    have hbudget := budget_stepsIn hrun
    have hpos := one_le_reserve m'.stack
    rw [budget, budget, hstream] at hbudget
    omega

/-- The start at an expression that goes on to an open quote, with two expansions ahead of it. -/
theorem halts_within_unclosed :
    (∃ k last, (Machine.start .expr (.ofSource "f (a 'b")).StepsIn k last ∧
      last.step = .inr (.error (.unclosedString ⟨1, 6⟩)) ∧ k < worth * 4) ∧
    ∃ m, (Machine.start .expr (.ofSource "f (a 'b")).StepsIn 2 m ∧
      m.stream = .ofSource "f (a 'b" ∧ 2 < reserve [.symbol (.nonterm .expr)] := by
  obtain ⟨⟨k, last, hrun, hstop, hk⟩, -, hidle⟩ := halts_within .expr (.ofSource "f (a 'b")
  have hparse : Tree.parse .expr (.ofSource "f (a 'b") = .error (.unclosedString ⟨1, 6⟩) := by
    rfl
  have htokens : (TokenStream.ofSource "f (a 'b").toList.length = 3 := by
    decide +kernel
  rw [hparse] at hstop
  rw [htokens] at hk
  have hahead : ∃ m, (Machine.start .expr (.ofSource "f (a 'b")).StepsIn 2 m ∧
      m.stream = .ofSource "f (a 'b" :=
    ⟨_, .head rfl (.head rfl (.refl _)), rfl⟩
  obtain ⟨m, hsteps, hstream⟩ := hahead
  exact ⟨⟨k, last, hrun, hstop, hk⟩, m, hsteps, hstream, hidle _ _ _ hsteps hstream⟩

end Machine

end ChainScript
