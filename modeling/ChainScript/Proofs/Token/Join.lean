import ChainScript.Proofs.Token.Layout

/-!
Texts one behind the other. A text that follows a line break is scanned as a text of its own, and so
is the text before a quote that is never closed.
-/
namespace ChainScript

variable {p q here : Position} {x y z : List Char} {c : Char}

namespace Position

/-- Where a position of a text comes to lie when the text starts at `origin`. -/
def relocate (origin p : Position) : Position :=
  if p.line = 1 then ⟨origin.line, origin.column + (p.column - 1)⟩
  else ⟨origin.line + (p.line - 1), p.column⟩

@[simp] theorem relocate_start (origin : Position) : origin.relocate start = origin := rfl

theorem relocate_next (origin : Position) (hline : 0 < p.line) (hcolumn : 0 < p.column) (c : Char) :
    origin.relocate (p.next c) = (origin.relocate p).next c := by
  unfold next relocate
  by_cases hc : c = '\n'
  · by_cases hfirst : p.line = 1
    · simp [hc, hfirst]
    · simp only [hc, hfirst, if_true, if_false]
      rw [if_neg (by omega)]
      simp only [mk.injEq, and_true]
      omega
  · by_cases hfirst : p.line = 1
    · simp only [hc, hfirst, if_true, if_false, mk.injEq, true_and]
      omega
    · simp [hc, hfirst]

theorem behind_eq_advance (text : List Char) : behind text = start.advance text :=
  behind_append [] text

/-- Each character of a text moves along with the start of the text. -/
theorem follows_relocate (origin : Position) : start.Follows (relocate origin) := by
  intro text
  rw [relocate_start]
  induction text using List.reverseRecOn with
  | nil => rfl
  | append_singleton text c ih =>
    have hstep (p : Position) : p.advance (text ++ [c]) = (p.advance text).next c :=
      advance_append p text [c]
    have hline : 0 < (behind text).line := Nat.lt_of_lt_of_le Nat.one_pos (Nat.le_add_right _ _)
    have hcolumn : 0 < (behind text).column :=
      Nat.lt_of_lt_of_le Nat.one_pos (Nat.le_add_right _ _)
    rw [hstep, hstep, ih, ← behind_eq_advance, relocate_next origin hline hcolumn]

/-- No text ends where it starts, unless it is empty. -/
theorem advance_cons_ne (p : Position) (c : Char) (text : List Char) :
    p.advance (c :: text) ≠ p := by
  intro h
  have hbefore := before_advance p c text
  rw [h] at hbefore
  unfold Before at hbefore
  omega

theorem line_advance_start (text : List Char) :
    (start.advance text).line = 1 + text.count '\n' := by
  rw [← behind_eq_advance]
  rfl

end Position

namespace Lexeme

variable {lexeme : Lexeme}

/-- What was read as a lexeme in front of a character that is in no word is read without it. -/
theorem readAt_before {s : Char} (hstop : isWordChar s = false)
    (h : readAt c (x ++ s :: y) p = (lexeme, ⟨q, z ++ s :: y⟩)) (hlexeme : lexeme ≠ unclosed) :
    readAt c x p = (lexeme, ⟨q, z⟩) := by
  generalize hafter : (⟨q, z ++ s :: y⟩ : Cursor) = after at h
  cases reads_of_readAt h with
  | numeral hdigit =>
    rw [← List.cons_append, cuts_numeral.stop hstop, Cursor.mk.injEq,
      List.append_cancel_right_eq] at hafter
    obtain ⟨rfl, rfl⟩ := hafter
    rw [readAt_numeral hdigit, ← List.cons_append, cuts_numeral.stop hstop]
  | quoted hdigit hquote hread =>
    subst hafter
    obtain ⟨taken, htaken, -, hclosed⟩ := readQuoted_taken hread
    rw [← List.append_assoc, List.append_cancel_right_eq] at htaken
    rw [htaken]
    exact readAt_quoted hdigit hquote ((readQuoted_append hclosed).2 z)
  | unclosed => exact absurd rfl hlexeme
  | word hdigit hquote =>
    rw [cuts_word.stop hstop, Cursor.mk.injEq, List.append_cancel_right_eq] at hafter
    obtain ⟨rfl, rfl⟩ := hafter
    rw [readAt_word hdigit hquote, cuts_word.stop hstop]

theorem isQuote_of_unclosed {after : Cursor} (h : readAt c x p = (unclosed, after)) :
    isQuote c = true := by
  cases reads_of_readAt h with
  | unclosed hdigit hquote => exact hquote

theorem not_isWordChar_of_isQuote (h : isQuote c = true) : isWordChar c = false := by
  simp [isWordChar, h]

theorem next?_before {s : Char} (hstop : isWordChar s = false)
    (h : next? ⟨p, x⟩ = some (here, lexeme, ⟨q, z ++ s :: y⟩)) (hlexeme : lexeme ≠ unclosed) :
    ∃ before, x = before ++ s :: y ∧ next? ⟨p, before⟩ = some (here, lexeme, ⟨q, z⟩) := by
  obtain ⟨d, rest, hskip, hread⟩ := next?_eq_some_iff.mp h
  obtain ⟨blank, rfl, -, -, hblank⟩ := skipBlank_cut hskip
  obtain ⟨taken, htakes, htaken, -⟩ := readAt_eq hread
  obtain ⟨e, taken, rfl⟩ := List.exists_cons_of_length_pos htakes.nonempty
  rw [List.cons_append, List.cons.injEq, ← List.append_assoc] at htaken
  obtain ⟨rfl, rfl⟩ := htaken
  refine ⟨blank ++ d :: (taken ++ z), by simp, ?_⟩
  exact next?_eq_some_iff.mpr ⟨d, _, hblank _, readAt_before hstop hread hlexeme⟩

end Lexeme

namespace Scanner

open Lexeme

variable {ts : List Token} {quote : Position}

/-- The tokens before an unclosed quote are those of the text before it. -/
theorem scans_before_fault (h : Scans ⟨p, x⟩ ts (some quote)) :
    ∃ before c after, x = before ++ c :: after ∧ isQuote c = true ∧ quote = p.advance before ∧
      Scans ⟨p, before⟩ ts none := by
  generalize hcursor : (⟨p, x⟩ : Cursor) = cursor at h
  generalize hfault : some quote = fault at h
  induction h generalizing p x with
  | done => cases hfault
  | unclosed h =>
    subst hcursor
    cases hfault
    obtain ⟨c, after, hskip, hread⟩ := next?_eq_some_iff.mp h
    obtain ⟨blank, rfl, hquote, hend, -⟩ := skipBlank_cut hskip
    refine ⟨blank, c, after, rfl, isQuote_of_unclosed hread, hquote, ?_⟩
    exact .done (next?_eq_none_iff.mpr ⟨_, hend⟩)
  | @lexeme _ rest here lexeme ts _ h hlexeme _ ih =>
    subst hcursor
    obtain ⟨before, c, after, hrest, hc, hquote, hbefore⟩ := ih rfl hfault
    obtain ⟨position, text⟩ := rest
    obtain rfl : text = before ++ c :: after := hrest
    obtain ⟨first, rfl, hfirst⟩ := next?_before (not_isWordChar_of_isQuote hc) h hlexeme
    obtain ⟨taken, -, rfl, rfl⟩ := next?_eq hfirst
    refine ⟨taken ++ before, c, after, rfl, hc, ?_, .lexeme hfirst hlexeme hbefore⟩
    rw [hquote, Position.advance_append]

end Scanner

namespace TokenStream

open Scanner Position Lexeme

/-- The tokens of a text that starts at `origin`. -/
theorem scans_relocate (source : String) (origin : Position) :
    Scans ⟨origin, source.toList⟩ ((ofSource source).toList.map (Token.move origin.relocate))
      ((ofSource source).fault.map origin.relocate) := by
  have hmoved := scans_move (follows_relocate origin) (scans_ofSource source)
  rwa [Cursor.move, Cursor.ofText, relocate_start] at hmoved

/--
Scanning goes line by line and stops at a fault. Behind a text without fault and a line break,
another text is scanned as on its own, so many lines further down; and what comes before an unclosed
quote is all that the text before that quote holds.
-/
theorem ofSource_composes :
    (∀ a b : String, (ofSource a).fault = none →
      (ofSource (a ++ "\n" ++ b)).toList =
        (ofSource a).toList ++ (ofSource b).toList.map (Token.down (1 + a.toList.count '\n')) ∧
      (ofSource (a ++ "\n" ++ b)).fault =
        (ofSource b).fault.map (Position.down (1 + a.toList.count '\n'))) ∧
    ∀ (source : String) (quote : Position), (ofSource source).fault = some quote →
      ∃ before c after, source = before ++ String.singleton c ++ after ∧ isQuote c = true ∧
        quote = behind before.toList ∧ (ofSource source).toList = (ofSource before).toList ∧
        (ofSource before).fault = none := by
  refine ⟨?_, ?_⟩
  · intro a b ha
    rw [← line_advance_start]
    exact ofSource_line ha b
  · intro source quote hfault
    have hscans := scans_ofSource source
    rw [hfault] at hscans
    obtain ⟨before, c, after, htext, hc, hquote, hbefore⟩ := scans_before_fault hscans
    rw [← String.toList_ofList (l := before)] at hbefore
    obtain ⟨htokens, hnone⟩ := ofSource_of_scans hbefore
    refine ⟨String.ofList before, c, String.ofList after, ?_, hc, ?_, htokens.symm, hnone⟩
    · apply String.toList_injective
      simp [htext]
    · rw [String.toList_ofList, behind_eq_advance, hquote]

/-- A string over two lines and a comment, and then a quote that is never closed. -/
theorem ofSource_composes_comment :
    (ofSource "x 'p\nq' # 1e").fault = none ∧
      (ofSource ("x 'p\nq' # 1e" ++ "\n" ++ "1e 'open")).toList =
        (ofSource "x 'p\nq' # 1e").toList ++ (ofSource "1e 'open").toList.map (Token.down 2) ∧
      (ofSource ("x 'p\nq' # 1e" ++ "\n" ++ "1e 'open")).fault = some ⟨3, 4⟩ ∧
      ∃ before c after,
        "x 'p\nq' # 1e" ++ "\n" ++ "1e 'open" = before ++ String.singleton c ++ after ∧
          isQuote c = true ∧ ⟨3, 4⟩ = behind before.toList ∧
          (ofSource ("x 'p\nq' # 1e" ++ "\n" ++ "1e 'open")).toList = (ofSource before).toList ∧
          (ofSource before).fault = none := by
  have ha : (ofSource "x 'p\nq' # 1e").fault = none := by decide +kernel
  obtain ⟨htokens, hfault⟩ := ofSource_composes.1 "x 'p\nq' # 1e" "1e 'open" ha
  have hquote := hfault.trans (by decide +kernel : _ = some (⟨3, 4⟩ : Position))
  exact ⟨ha, htokens, hquote, ofSource_composes.2 _ _ hquote⟩

end TokenStream

end ChainScript
