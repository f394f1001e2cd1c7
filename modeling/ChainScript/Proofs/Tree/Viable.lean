import ChainScript.Proofs.Tree.Machine

/-!
Errors are reported at the earliest token. Every nonterminal has a word, so whatever the machine
holds on its stack can be completed, and the tokens it has consumed are the beginning of a sentence.
It looks no further than one token ahead: where it stops, it stops whatever comes after that token,
so no sentence goes on with it.
-/
namespace ChainScript

open Grammar

namespace Grammar

variable {start : Nonterminal}

/-- How many expansions inside each other the simplest word of a nonterminal takes. -/
def height : Nonterminal → Nat
  | .script | .fragment | .decl | .array | .ref | .expr => 1
  | .cexpr | .funcDecl | .assign => 2
  | .letExpr | .compound | .lambda => 3
  | _ => 0

def Symbol.isBelow (bound : Nat) : Symbol → Bool
  | nonterm n => height n < bound
  | _ => true

theorem exists_production_below (n : Nonterminal) :
    ∃ xs ∈ productions n, xs.all (·.isBelow (height n)) = true := by
  cases n <;> decide

theorem form_cons (x : Symbol) (xs : List Symbol) : form (x :: xs) = form [x] ++ form xs := by
  simp only [form, ← List.filterMap_append, List.singleton_append]

theorem form_append (xs ys : List Symbol) : form (xs ++ ys) = form xs ++ form ys :=
  List.filterMap_append

/-- A right side has a word if each of its symbols has one. -/
theorem exists_word_of_forall {xs : List Symbol}
    (h : ∀ x ∈ xs, ∃ w : List Terminal, (bnf start).Derives (form [x]) (w.map .terminal)) :
    ∃ w : List Terminal, (bnf start).Derives (form xs) (w.map .terminal) := by
  induction xs with
  | nil => exact ⟨[], .refl _⟩
  | cons x xs ih =>
    obtain ⟨v, hv⟩ := h x (by simp)
    obtain ⟨w, hw⟩ := ih fun y hy => h y (by simp [hy])
    refine ⟨v ++ w, ?_⟩
    rw [form_cons, List.map_append]
    exact (hv.append_right _).trans (hw.append_left _)

/-- Terminals are words, and the empty expansion has the empty word. -/
theorem exists_word_of_nonterm {x : Symbol}
    (h : ∀ n, x = .nonterm n →
      ∃ w : List Terminal, (bnf start).Derives (form [.nonterm n]) (w.map .terminal)) :
    ∃ w : List Terminal, (bnf start).Derives (form [x]) (w.map .terminal) := by
  cases x with
  | term a => exact ⟨[a], .refl _⟩
  | epsilon => exact ⟨[], .refl _⟩
  | nonterm n => exact h n rfl

theorem exists_word_nonterm (n : Nonterminal) :
    ∃ w : List Terminal, (bnf start).Derives (form [.nonterm n]) (w.map .terminal) := by
  induction hk : height n using Nat.strongRecOn generalizing n with
  | ind k ih =>
  obtain ⟨xs, hxs, hbelow⟩ := exists_production_below n
  have hstep : (bnf start).Produces [.nonterminal n] (form xs) :=
    ⟨⟨n, form xs⟩, mem_bnf_rules.mpr ⟨xs, hxs, rfl⟩, ContextFreeRule.Rewrites.input_output⟩
  obtain ⟨w, hw⟩ : ∃ w : List Terminal, (bnf start).Derives (form xs) (w.map .terminal) := by
    refine exists_word_of_forall fun x hx => exists_word_of_nonterm ?_
    rintro m rfl
    have hlt : height m < height n := by
      simpa [Symbol.isBelow] using List.all_eq_true.mp hbelow _ hx
    exact ih (height m) (hk ▸ hlt) m rfl
  exact ⟨w, hstep.trans_derives hw⟩

/-- Whatever is still to come can come. -/
theorem exists_word (start : Nonterminal) (xs : List Symbol) :
    ∃ w : List Terminal, (bnf start).Derives (form xs) (w.map .terminal) :=
  exists_word_of_forall fun _ _ => exists_word_of_nonterm fun n _ => exists_word_nonterm n

/-- Tokens as a sentential form. -/
def written (tokens : List Token) : Form := (tokens.map Terminal.ofToken).map .terminal

theorem written_append (tokens more : List Token) :
    written (tokens ++ more) = written tokens ++ written more := by
  simp only [written, List.map_append]

/-- The tokens are the beginning of a sentence. -/
def Viable (start : Nonterminal) (tokens : List Token) : Prop :=
  ∃ w : List Terminal, tokens.map .ofToken ++ w ∈ (bnf start).language

theorem viable_of_derives {tokens : List Token} {xs : List Symbol}
    (h : (bnf start).Derives (form [.nonterm start]) (written tokens ++ form xs)) :
    Viable start tokens := by
  obtain ⟨w, hw⟩ := exists_word start xs
  have hsentence : (bnf start).Derives (form [.nonterm start])
      ((tokens.map Terminal.ofToken ++ w).map .terminal) := by
    rw [List.map_append]
    exact h.trans (hw.append_left _)
  exact ⟨w, hsentence⟩

/-- Every terminal is that of some token. -/
theorem exists_ofToken (a : Terminal) : ∃ t : Token, Terminal.ofToken t = a := by
  cases a with
  | id => exact ⟨⟨.start, .identifier ""⟩, rfl⟩
  | number => exact ⟨⟨.start, .number 0⟩, rfl⟩
  | string => exact ⟨⟨.start, .string ""⟩, rfl⟩
  | keyword k => exact ⟨⟨.start, .keyword k⟩, rfl⟩

theorem exists_map_ofToken (w : List Terminal) :
    ∃ tokens : List Token, tokens.map .ofToken = w := by
  induction w with
  | nil => exact ⟨[], rfl⟩
  | cons a w ih =>
    obtain ⟨tokens, rfl⟩ := ih
    obtain ⟨t, rfl⟩ := exists_ofToken a
    exact ⟨t :: tokens, rfl⟩

end Grammar

namespace Machine

variable {start : Nonterminal} {m m' : Machine} {t : Token} {rest : TokenStream}

/-- What a step that goes on can do. -/
inductive Move : Machine → Machine → Prop
  | close {a stack cursor s} :
      Move ⟨a, .close :: stack, cursor, s⟩ ⟨a, stack, cursor.bind a.parent?, s⟩
  | epsilon {a stack cursor s} (hs : ∀ q, s ≠ .unclosed q) :
      Move ⟨a, .symbol .epsilon :: stack, cursor, s⟩ ⟨a.push cursor .epsilon, stack, cursor, s⟩
  | token {a stack cursor rest} (t : Token) :
      Move ⟨a, .symbol (.term (.ofToken t)) :: stack, cursor, .token t rest⟩
        ⟨a.push cursor (.leaf t), stack, cursor, rest⟩
  | expand {a stack cursor s n xs} (hs : ∀ q, s ≠ .unclosed q)
      (hx : expand? n (.ofStream s) = some xs) :
      Move ⟨a, .symbol (.nonterm n) :: stack, cursor, s⟩
        ⟨a.push cursor (.node n []), xs.map .symbol ++ .close :: stack, some a.size, s⟩

theorem move_of_step (h : m.step = .inl m') : Move m m' := by
  obtain ⟨a, stack, cursor, s⟩ := m
  cases stack with
  | nil => simp [step] at h
  | cons entry stack =>
    cases entry with
    | close =>
      obtain rfl := Sum.inl.inj h
      exact .close
    | symbol x =>
      have hs : ∀ q, s ≠ .unclosed q := by
        rintro q rfl
        simp [step_unclosed] at h
      cases x with
      | epsilon =>
        cases s with
        | unclosed q => exact (hs q rfl).elim
        | _ =>
          obtain rfl := Sum.inl.inj h
          exact .epsilon hs
      | term b =>
        cases s with
        | unclosed q => exact (hs q rfl).elim
        | finished p => simp [step] at h
        | token t rest =>
          simp only [step] at h
          split at h
          · rename_i hb
            obtain rfl : Terminal.ofToken t = b := by simpa [Terminal.accepts] using hb
            obtain rfl := Sum.inl.inj h
            exact .token t
          · simp at h
      | nonterm n =>
        rw [step_nonterm _ _ _ _ hs] at h
        split at h
        · simp at h
        · rename_i xs hx
          obtain rfl := Sum.inl.inj h
          exact .expand hs hx

theorem Move.step_eq (h : Move m m') : m.step = .inl m' := by
  cases h with
  | close => rfl
  | @epsilon a stack cursor s hs =>
    cases s with
    | unclosed q => exact (hs q rfl).elim
    | _ => rfl
  | token t => simp [step, Terminal.accepts]
  | expand hs hx => rw [step_nonterm _ _ _ _ hs, hx]

def Entry.symbol? : Entry → Option Symbol
  | symbol x => some x
  | close => none

/-- The symbols that are still to come. -/
def pending (m : Machine) : List Symbol := m.stack.filterMap Entry.symbol?

theorem pending_expand {a : Arena} {xs : List Symbol} {stack : List Entry} {cursor : Option Nat}
    {s : TokenStream} :
    pending ⟨a, xs.map .symbol ++ .close :: stack, cursor, s⟩ =
      xs ++ stack.filterMap Entry.symbol? := by
  have hmap : (xs.map Entry.symbol).filterMap Entry.symbol? = xs := by
    rw [List.filterMap_map]
    exact List.filterMap_some
  rw [pending, List.filterMap_append, hmap, List.filterMap_cons_none rfl]

/-- A move consumes tokens that the symbols before it derive in front of those after it. -/
theorem Move.derives (h : Move m m') :
    ∃ tokens, m.stream = .prepend tokens m'.stream ∧
      (bnf start).Derives (form m.pending) (written tokens ++ form m'.pending) := by
  cases h with
  | close => exact ⟨[], rfl, .refl _⟩
  | epsilon hs => exact ⟨[], rfl, .refl _⟩
  | token t => exact ⟨[t], rfl, .refl _⟩
  | @expand a stack cursor s n xs hs hx =>
    refine ⟨[], rfl, ?_⟩
    have hstep : (bnf start).Produces [.nonterminal n] (form xs) :=
      ⟨⟨n, form xs⟩, mem_bnf_rules.mpr ⟨xs, expand?_mem_productions hx, rfl⟩,
        ContextFreeRule.Rewrites.input_output⟩
    rw [pending_expand, form_append]
    exact (hstep.append_right _).single

theorem Steps.derives (h : m.Steps m') :
    ∃ tokens, m.stream = .prepend tokens m'.stream ∧
      (bnf start).Derives (form m.pending) (written tokens ++ form m'.pending) := by
  induction h with
  | refl => exact ⟨[], rfl, .refl _⟩
  | @tail middle last _ hstep ih =>
    obtain ⟨tokens, hstream, hderives⟩ := ih
    obtain ⟨more, hstream', hderives'⟩ := (move_of_step hstep).derives
    refine ⟨tokens ++ more, by rw [hstream, hstream', TokenStream.prepend_append], ?_⟩
    have hform : written (tokens ++ more) ++ form last.pending =
        written tokens ++ (written more ++ form last.pending) := by
      rw [written_append, List.append_assoc]
    exact hform ▸ hderives.trans (hderives'.append_left _)

/-- A move does not look behind the first token that is left. -/
theorem Move.replay {ahead : List Token} (h : Move m m')
    (hstream : m'.stream = .prepend ahead (.token t rest)) :
    ∃ before, m.stream = .prepend before (.token t rest) ∧ ∀ rest',
      Move { m with stream := .prepend before (.token t rest') }
        { m' with stream := .prepend ahead (.token t rest') } := by
  have hhead : ∀ rest', Lookahead.ofStream (.prepend ahead (.token t rest')) =
      .ofStream (.prepend ahead (.token t rest)) := by
    intro rest'
    cases ahead <;> rfl
  have hgood : ∀ rest' q, TokenStream.prepend ahead (.token t rest') ≠ .unclosed q := by
    intro rest' q
    cases ahead <;> simp
  cases h with
  | close => exact ⟨ahead, hstream, fun _ => .close⟩
  | epsilon hs => exact ⟨ahead, hstream, fun rest' => .epsilon (hgood rest')⟩
  | token u =>
    simp only at hstream
    exact ⟨u :: ahead, by rw [hstream, TokenStream.prepend_cons], fun _ => .token u⟩
  | expand hs hx =>
    simp only at hstream
    refine ⟨ahead, hstream, fun rest' => .expand (hgood rest') ?_⟩
    rw [hhead, ← hstream, hx]

theorem Steps.replay (ahead : List Token) (h : m.Steps m')
    (hstream : m'.stream = .prepend ahead (.token t rest)) :
    ∃ before, m.stream = .prepend before (.token t rest) ∧ ∀ rest',
      Steps { m with stream := .prepend before (.token t rest') }
        { m' with stream := .prepend ahead (.token t rest') } := by
  induction h generalizing ahead with
  | refl => exact ⟨ahead, hstream, fun _ => .refl⟩
  | tail _ hstep ih =>
    obtain ⟨middle, hmiddle, hmove⟩ := (move_of_step hstep).replay hstream
    obtain ⟨before, hbefore, hsteps⟩ := ih middle hmiddle
    exact ⟨before, hbefore, fun rest' => (hsteps rest').trans (.single (hmove rest').step_eq)⟩

end Machine

/-- The token that an error points at. -/
def ParseError.found? : ParseError → Option Token
  | unexpectedToken _ t => some t
  | noRule _ t => some t
  | expectedEnd t => some t
  | unclosedString _ => none
  | unexpectedEnd _ _ => none

namespace Machine

variable {start : Nonterminal} {m : Machine} {s : TokenStream} {e : ParseError}

/-- What a step that stops with an error has seen of the stream. -/
inductive Stop (m : Machine) : ParseError → Prop
  | unclosed {q} (hs : m.stream = .unclosed q) : Stop m (.unclosedString q)
  | finished {p} (x : Symbol) (hs : m.stream = .finished p) : Stop m (.unexpectedEnd x p)
  | token {e t rest} (ht : e.found? = some t) (hs : m.stream = .token t rest)
      (hstep : ∀ rest', step { m with stream := .token t rest' } = .inr (.error e)) : Stop m e

theorem stop_of_step (h : m.step = .inr (.error e)) : Stop m e := by
  obtain ⟨a, stack, cursor, s⟩ := m
  cases stack with
  | nil =>
    obtain h : finish a s = .error e := Sum.inr.inj h
    cases s with
    | finished p => simp [finish] at h
    | unclosed q =>
      obtain rfl : ParseError.unclosedString q = e := by simpa [finish] using h
      exact .unclosed rfl
    | token t rest =>
      obtain rfl : ParseError.expectedEnd t = e := by simpa [finish] using h
      exact .token rfl rfl fun _ => rfl
  | cons entry stack =>
    cases entry with
    | close => simp [step] at h
    | symbol x =>
      cases s with
      | unclosed q =>
        obtain rfl : ParseError.unclosedString q = e := by simpa [step_unclosed] using h
        exact .unclosed rfl
      | finished p =>
        cases x with
        | epsilon => simp [step] at h
        | term b =>
          obtain rfl : ParseError.unexpectedEnd (.term b) p = e := by simpa [step] using h
          exact .finished _ rfl
        | nonterm n =>
          simp only [step] at h
          split at h
          · obtain rfl : ParseError.unexpectedEnd (.nonterm n) p = e := by
              simpa [Tree.refuse] using h
            exact .finished _ rfl
          · simp at h
      | token t rest =>
        cases x with
        | epsilon => simp [step] at h
        | term b =>
          simp only [step] at h
          split at h
          · simp at h
          · rename_i hb
            obtain rfl : ParseError.unexpectedToken b t = e := by simpa using h
            exact .token rfl rfl fun rest' => by simp [step, hb]
        | nonterm n =>
          simp only [step] at h
          split at h
          · rename_i hx
            obtain rfl : ParseError.noRule n t = e := by simpa [Tree.refuse] using h
            refine .token rfl rfl fun rest' => ?_
            have hx' : expand? n (.ofStream (.token t rest')) = none := hx
            simp [step, hx', Tree.refuse]
          · simp at h

/-- A failed parse comes to a state that stops, with a beginning of a sentence behind it. -/
theorem exists_stop (h : Tree.parse start s = .error e) :
    ∃ m tokens, (Machine.start start s).Steps m ∧ m.step = .inr (.error e) ∧
      s = .prepend tokens m.stream ∧ Viable start tokens := by
  have hhalts := halts_parse start s
  rw [h] at hhalts
  obtain ⟨m, hsteps, hstop⟩ := hhalts
  obtain ⟨tokens, hstream, hderives⟩ := hsteps.derives
  exact ⟨m, tokens, hsteps, hstop, hstream, viable_of_derives hderives⟩

/-- If the machine stops at a token, no sentence goes on with it. -/
theorem not_viable_of_stop {before : List Token} {t : Token} {rest : TokenStream}
    (hstart : .eof ∈ follow start)
    (hsteps : (Machine.start start (.prepend before (.token t rest))).Steps m)
    (hstream : m.stream = .token t rest)
    (hstop : ∀ rest', step { m with stream := .token t rest' } = .inr (.error e)) :
    ¬ Viable start (before ++ [t]) := by
  rintro ⟨w, hw⟩
  obtain ⟨more, rfl⟩ := exists_map_ofToken w
  obtain ⟨before', hbefore, hreplay⟩ := hsteps.replay [] hstream
  obtain rfl : before = before' := by
    have hlist := congrArg TokenStream.toList hbefore
    rw [Machine.start, TokenStream.toList_prepend, TokenStream.toList_prepend] at hlist
    exact List.append_cancel_right hlist
  -- The same machine in front of the sentence must accept it, but it stops at the same token.
  let rest' := TokenStream.prepend more (.finished .start)
  have hhalts : (Machine.start start (.prepend before (.token t rest'))).Halts (.error e) :=
    ⟨_, hreplay rest', hstop rest'⟩
  have hfault : (TokenStream.prepend before (.token t rest')).fault = none := by
    simp [rest', TokenStream.fault_prepend, TokenStream.fault]
  have htokens : (TokenStream.prepend before (.token t rest')).toList = before ++ [t] ++ more := by
    simp [rest', TokenStream.toList_prepend, TokenStream.toList]
  obtain ⟨tree, htree⟩ := Tree.exists_parse_of_mem_language hstart hfault
    (by rwa [htokens, List.map_append])
  have heq := halts_start_iff.mp hhalts
  rw [htree] at heq
  simp [Except.map] at heq

end Machine

namespace Tree

variable {start : Nonterminal} {s : TokenStream} {e : ParseError}

/-- An error as early as a parser that reads from left to right can report it. -/
structure IsEarliest (start : Nonterminal) (s : TokenStream) (e : ParseError) : Prop where
  token : ∀ t, e.found? = some t → e.position = t.position ∧ ∃ before after,
    s.toList = before ++ t :: after ∧ Viable start before ∧ ¬ Viable start (before ++ [t])
  ending : ∀ x p, e = .unexpectedEnd x p → s.fault = none ∧
    s.toList.map Terminal.ofToken ∉ (bnf start).language ∧
    ∃ w ≠ [], s.toList.map Terminal.ofToken ++ w ∈ (bnf start).language
  quote : ∀ q, e = .unclosedString q → s.fault = some q ∧ Viable start s.toList

theorem position_of_found? {t : Token} (h : e.found? = some t) : e.position = t.position := by
  cases e <;> simp_all [ParseError.found?, ParseError.position]

theorem isEarliest_of_parse (hstart : .eof ∈ follow start) (h : parse start s = .error e) :
    IsEarliest start s e := by
  obtain ⟨m, tokens, hsteps, hstop, hs, hviable⟩ := Machine.exists_stop h
  cases Machine.stop_of_step hstop with
  | @unclosed q hstream =>
    refine ⟨by simp [ParseError.found?], by simp, ?_⟩
    rintro _ ⟨⟩
    rw [hs, hstream, TokenStream.fault_prepend, TokenStream.toList_prepend]
    exact ⟨rfl, by simpa [TokenStream.toList] using hviable⟩
  | @finished p x hstream =>
    refine ⟨by simp [ParseError.found?], ?_, by simp⟩
    intro _ _ _
    have hfault : s.fault = none := by
      rw [hs, hstream, TokenStream.fault_prepend]
      rfl
    have htokens : s.toList = tokens := by
      rw [hs, hstream, TokenStream.toList_prepend]
      simp [TokenStream.toList]
    have hnot : s.toList.map Terminal.ofToken ∉ (bnf start).language := by
      intro hmem
      obtain ⟨tree, htree⟩ := exists_parse_of_mem_language hstart hfault hmem
      simp [htree] at h
    obtain ⟨w, hw⟩ := hviable
    refine ⟨hfault, hnot, w, ?_, htokens ▸ hw⟩
    rintro rfl
    exact hnot (by simpa [htokens] using hw)
  | @token _ t rest ht hstream hstep =>
    rw [hstream] at hs
    subst hs
    refine ⟨?_, ?_, ?_⟩
    · intro u hu
      obtain rfl : t = u := by simpa [ht] using hu
      refine ⟨position_of_found? hu, tokens, rest.toList, ?_, hviable, ?_⟩
      · rw [TokenStream.toList_prepend]
        rfl
      · exact Machine.not_viable_of_stop hstart hsteps hstream hstep
    · rintro x p rfl
      simp [ParseError.found?] at ht
    · rintro q rfl
      simp [ParseError.found?] at ht

/--
A parse of a script or fragment that fails does so at the first token with which the tokens before
it are no longer the beginning of a sentence, or at the end of a text that only begins one.
-/
theorem parse_error_isEarliest {source : String} (hstart : start = .script ∨ start = .fragment)
    (h : parse start (.ofSource source) = .error e) : IsEarliest start (.ofSource source) e := by
  refine isEarliest_of_parse ?_ h
  rcases hstart with rfl | rfl <;> decide

theorem parse_error_isEarliest_twoArrows :
    ∃ e, parse .script (.ofSource "a => [1; b] => 'c") = .error e ∧ e.position = ⟨1, 13⟩ ∧
      IsEarliest .script (.ofSource "a => [1; b] => 'c") e := by
  have hparse : parse .script (.ofSource "a => [1; b] => 'c") =
      .error (.unexpectedToken (.keyword .semicolon) ⟨⟨1, 13⟩, .keyword .arrow⟩) := by
    rfl
  exact ⟨_, hparse, rfl, parse_error_isEarliest (Or.inl rfl) hparse⟩

end Tree

end ChainScript
