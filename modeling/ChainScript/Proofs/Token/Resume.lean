import ChainScript.Proofs.Token.Join
import ChainScript.Proofs.Token.Word

/-!
Going on in the middle of a source. Where a token stands, the rest of the source has that token and
all that follow it, whether a lexeme starts there or a word is cut in two.
-/
namespace ChainScript

open Position Lexeme Numeral

variable {before after rest w more x y : List Char} {p : Position} {c : Char}

namespace Position

/-- Of the beginnings of one text, no two end at the same position. -/
theorem eq_of_behind_eq {a b : List Char} (h : a ++ x = b ++ y) (hbehind : behind a = behind b) :
    a = b := by
  rcases List.append_eq_append_iff.mp h with ⟨z, rfl, -⟩ | ⟨z, rfl, -⟩
  · cases z with
    | nil => rw [List.append_nil]
    | cons c z => exact absurd (behind_append a _ ▸ hbehind.symm) (advance_cons_ne _ c z)
  · cases z with
    | nil => rw [List.append_nil]
    | cons c z => exact absurd (behind_append b _ ▸ hbehind) (advance_cons_ne _ c z)

end Position

namespace Lexeme

/-- A word does not go on into this text. -/
def EndsWord (y : List Char) : Prop := ∀ c ∈ y.head?, isWordChar c = false

/-- A word that starts like the text takes all its characters, and may go on behind them. -/
theorem exists_of_endsWord (h : w ++ more = x ++ after) (hx : ∀ c ∈ x, isWordChar c = true)
    (hmore : EndsWord more) : ∃ y, w = x ++ y ∧ after = y ++ more := by
  rcases List.append_eq_append_iff.mp h with ⟨z, rfl, rfl⟩ | ⟨z, rfl, rfl⟩
  · cases z with
    | nil => exact ⟨[], by simp, rfl⟩
    | cons c z =>
      have hc := hmore c rfl
      rw [hx c (by simp)] at hc
      cases hc
  · exact ⟨z, rfl, rfl⟩

theorem isWordChar_iff :
    isWordChar c = true ↔ (isBlank c = false ∧ c ≠ '#') ∧ isQuote c = false := by
  simp only [isWordChar, Bool.not_eq_true', Bool.or_eq_false_iff, decide_eq_false_iff_not]
  tauto

theorem skipBlank_of_head (h : isBlank c = false ∧ c ≠ '#') (p : Position) (x : List Char) :
    skipBlank false p (c :: x) = ⟨p, c :: x⟩ := by
  rw [skipBlank, if_neg Bool.false_ne_true, if_neg (by simp [h.1]), if_neg h.2]

theorem head_of_skipBlank {comment : Bool} {q : Position}
    (h : skipBlank comment p x = ⟨q, c :: y⟩) : isBlank c = false ∧ c ≠ '#' := by
  fun_induction skipBlank comment p x with
  | case1 => cases h
  | case2 p e rest ih => exact ih h
  | case3 comment p e rest hcomment hblank ih => exact ih h
  | case4 comment p rest hcomment hblank ih => exact ih h
  | case5 comment p e rest hcomment hblank hmark =>
    cases h
    exact ⟨Bool.eq_false_iff.mpr hblank, hmark⟩

theorem endsWord_span (x : List Char) : EndsWord (x.span isWordChar).2 :=
  (forall_span isWordChar x).2

theorem readAt_eq_word {after : Cursor} (hc : isBlank c = false ∧ c ≠ '#')
    (h : readAt c x p = (.word w, after)) :
    (∀ c ∈ w, isWordChar c = true) ∧ EndsWord after.rest ∧ c :: x = w ++ after.rest ∧
      after = ⟨p.advance w, after.rest⟩ := by
  cases reads_of_readAt h with
  | word hdigit hquote =>
    have hw : ∀ e ∈ c :: (x.span isWordChar).1, isWordChar e = true :=
      List.forall_mem_cons.mpr ⟨isWordChar_iff.mpr ⟨hc, hquote⟩, (forall_span isWordChar x).1⟩
    exact ⟨hw, endsWord_span x, congrArg _ (cuts_word.append x).symm, rfl⟩

theorem next?_word (hw : ∀ c ∈ w, isWordChar c = true) (hhead : ∀ c ∈ w.head?, c.isDigit = false)
    (hne : w ≠ []) (hmore : EndsWord more) (p : Position) :
    next? ⟨p, w ++ more⟩ = some (p, .word w, ⟨p.advance w, more⟩) := by
  obtain ⟨c, w, rfl⟩ := List.exists_cons_of_ne_nil hne
  rw [List.forall_mem_cons] at hw
  have hc := isWordChar_iff.mp hw.1
  refine next?_eq_some_iff.mpr ⟨c, w ++ more, skipBlank_of_head hc.1 _ _, ?_⟩
  rw [readAt_word (hhead c rfl) hc.2, span_append hw.2 hmore]

end Lexeme

namespace Word

variable {t : Token}

theorem exists_place_of_mem {here : Position} {parts : List Part} (h : t ∈ place here parts) :
    ∃ ps part qs, parts = ps ++ part :: qs ∧ t = ⟨here.advance (spelling ps), part.value⟩ := by
  induction parts generalizing here with
  | nil => cases h
  | cons part parts ih =>
    rcases List.mem_cons.mp h with rfl | h
    · exact ⟨[], part, parts, rfl, rfl⟩
    · obtain ⟨ps, part', qs, rfl, rfl⟩ := ih h
      refine ⟨part :: ps, part', qs, rfl, ?_⟩
      rw [spelling_cons, advance_append]

/-- A word can be cut in front of each of its tokens, and goes on with that token. -/
theorem exists_split_of_mem {here : Position} (h : t ∈ split here w) :
    ∃ x y earlier later, w = x ++ y ∧ t.position = here.advance x ∧
      split here w = earlier ++ t :: later ∧ split t.position y = t :: later := by
  obtain ⟨parts, hparts⟩ := exists_splits w
  rw [split_of_splits hparts] at h ⊢
  obtain ⟨ps, part, qs, rfl, rfl⟩ := exists_place_of_mem h
  refine ⟨spelling ps, spelling (part :: qs), place here ps, _, ?_, rfl, place_append _ _ _, ?_⟩
  · rw [← hparts.spelling, spelling_append]
  · exact split_of_splits hparts.drop _

end Word

namespace Scanner

open Word

variable {cursor : Cursor} {ts : List Token} {t : Token} {fault : Option Position}

theorem scans_word (hw : ∀ c ∈ w, isWordChar c = true) (hhead : ∀ c ∈ w.head?, c.isDigit = false)
    (hmore : EndsWord more) (h : Scans ⟨p.advance w, more⟩ ts fault) :
    Scans ⟨p, w ++ more⟩ (split p w ++ ts) fault := by
  by_cases hne : w = []
  · subst hne
    exact h
  · exact .lexeme (next?_word hw hhead hne hmore p) nofun h

/-- The text has these tokens when it starts in the middle of a word. -/
inductive InWord : Cursor → List Token → Option Position → Prop
  | mk {p : Position} {w more : List Char} {ts : List Token} {fault : Option Position}
      (hw : ∀ c ∈ w, isWordChar c = true) (hmore : EndsWord more)
      (h : Scans ⟨p.advance w, more⟩ ts fault) : InWord ⟨p, w ++ more⟩ (split p w ++ ts) fault

/-- The text has these tokens, whether it starts with a lexeme or goes on with a word. -/
def Continues (cursor : Cursor) (ts : List Token) (fault : Option Position) : Prop :=
  Scans cursor ts fault ∨ InWord cursor ts fault

/-- At the first character of a word, it makes no difference that nothing of it was read yet. -/
theorem inWord_of_scans (hc : isWordChar c = true) (hdigit : c.isDigit = false)
    (h : Scans ⟨p, c :: x⟩ ts fault) : InWord ⟨p, c :: x⟩ ts fault := by
  have hw : ∀ e ∈ c :: (x.span isWordChar).1, isWordChar e = true :=
    List.forall_mem_cons.mpr ⟨hc, (forall_span isWordChar x).1⟩
  have hmore := endsWord_span x
  have hcut : c :: x = c :: (x.span isWordChar).1 ++ (x.span isWordChar).2 :=
    congrArg _ (cuts_word.append x).symm
  rw [hcut] at h ⊢
  have hnext := next?_word hw (by simpa using hdigit) (by simp) hmore p
  obtain ⟨us, rfl, hrest⟩ := h.exists_of_next? hnext nofun
  exact .mk hw hmore hrest

/-- In a first lexeme, the text goes on with each of its tokens where that token stands. -/
theorem exists_continues_of_readAt {here : Position} {lexeme : Lexeme} {after : Cursor}
    (hc : isBlank c = false ∧ c ≠ '#') (hread : readAt c rest here = (lexeme, after))
    (hlexeme : lexeme ≠ .unclosed) (hrest : Scans after ts fault) (ht : t ∈ tokens here lexeme) :
    ∃ a b earlier later, c :: rest = a ++ b ∧ t.position = here.advance a ∧
      tokens here lexeme ++ ts = earlier ++ t :: later ∧
      Continues ⟨t.position, b⟩ (t :: later) fault := by
  have hnext := next?_eq_some_iff.mpr ⟨c, rest, skipBlank_of_head hc here rest, hread⟩
  have hscans : Scans ⟨here, c :: rest⟩ (tokens here lexeme ++ ts) fault :=
    .lexeme hnext hlexeme hrest
  cases lexeme with
  | numeral text =>
    obtain rfl := List.mem_singleton.mp ht
    exact ⟨[], c :: rest, [], ts, rfl, rfl, rfl, .inl hscans⟩
  | quoted text =>
    obtain rfl := List.mem_singleton.mp ht
    exact ⟨[], c :: rest, [], ts, rfl, rfl, rfl, .inl hscans⟩
  | word w =>
    obtain ⟨hw, hmore, hcut, hafter⟩ := readAt_eq_word hc hread
    obtain ⟨x, y, earlier, later, rfl, hposition, hsplit, hy⟩ := exists_split_of_mem ht
    refine ⟨x, y ++ after.rest, earlier, later ++ ts, ?_, hposition, ?_, .inr ?_⟩
    · rw [hcut, List.append_assoc]
    · rw [tokens, hsplit, List.append_assoc, List.cons_append]
    · rw [← List.cons_append, ← hy]
      refine .mk (fun e he => hw e (List.mem_append_right _ he)) hmore ?_
      rwa [hposition, ← advance_append, ← hafter]
  | unclosed => exact absurd rfl hlexeme

/-- Where a token stands, the text goes on with that token. -/
theorem Scans.exists_continues (h : Scans ⟨p, x⟩ ts fault) (ht : t ∈ ts) :
    ∃ a b earlier later, x = a ++ b ∧ t.position = p.advance a ∧ ts = earlier ++ t :: later ∧
      Continues ⟨t.position, b⟩ (t :: later) fault := by
  generalize hcursor : (⟨p, x⟩ : Cursor) = cursor at h
  induction h generalizing p x with
  | done => cases ht
  | unclosed => cases ht
  | @lexeme _ after here lexeme ts fault h hlexeme hrest ih =>
    subst hcursor
    rcases List.mem_append.mp ht with ht | ht
    · obtain ⟨c, rest, hskip, hread⟩ := next?_eq_some_iff.mp h
      have hc := head_of_skipBlank hskip
      obtain ⟨gap, rfl, rfl⟩ := skipBlank_eq hskip
      obtain ⟨a, b, earlier, later, hab, hposition, htokens, hcontinues⟩ :=
        exists_continues_of_readAt hc hread hlexeme hrest ht
      refine ⟨gap ++ a, b, earlier, later, ?_, ?_, htokens, hcontinues⟩
      · rw [hab, List.append_assoc]
      · rw [hposition, advance_append]
    · obtain ⟨taken, -, rfl, hafter⟩ := next?_eq h
      obtain ⟨a, b, earlier, later, hab, hposition, rfl, hcontinues⟩ := ih ht rfl
      refine ⟨taken ++ a, b, tokens here lexeme ++ earlier, later, ?_, ?_, ?_, hcontinues⟩
      · rw [hab, List.append_assoc]
      · rw [hposition, hafter, advance_append]
      · rw [List.append_assoc]

/-- The tokens of a text are laid out over its first part. -/
theorem Scans.layout (h : Scans ⟨behind before, x⟩ ts fault) :
    ∃ text rest, x = text ++ rest ∧ Layout before text (ts.map .token) := by
  generalize hcursor : (⟨behind before, x⟩ : Cursor) = cursor at h
  induction h generalizing before x with
  | done => exact ⟨[], x, rfl, .nil before⟩
  | unclosed => exact ⟨[], x, rfl, .nil before⟩
  | @lexeme _ after here lexeme ts fault h hlexeme _ ih =>
    subst hcursor
    obtain ⟨position, more⟩ := after
    obtain ⟨taken, rfl, rfl, hevents⟩ := layout_next? rfl h
    obtain ⟨text, rest, rfl, htext⟩ := ih rfl
    refine ⟨taken ++ text, rest, by rw [List.append_assoc], ?_⟩
    rw [List.map_append, ← events_eq_tokens hlexeme]
    exact hevents.append htext

end Scanner

end ChainScript
