import Mathlib.Data.List.TakeDrop
import ChainScript.Token.Scanner

/-!
Where lexemes end. No reader but that of a quoted string looks behind a character that is in no
word, each lexeme takes up the text between the cursors before and after it, and a text that stands
elsewhere is cut up in the same way.
-/
namespace ChainScript

variable {p q here : Position} {x y z : List Char} {c : Char}

namespace Position

/-- The position so many lines further down. -/
def down (lines : Nat) (p : Position) : Position := ⟨p.line + lines, p.column⟩

theorem next_down (lines : Nat) (p : Position) (c : Char) :
    (p.down lines).next c = (p.next c).down lines := by
  unfold next down
  split
  · rw [Nat.add_right_comm]
  · rfl

/-- Moved to `f p`, a text that stands at `p` has all its characters where `f` moves them. -/
def Follows (f : Position → Position) (p : Position) : Prop :=
  ∀ x, (f p).advance x = f (p.advance x)

theorem follows_down (lines : Nat) (p : Position) : Follows (down lines) p := by
  intro x
  induction x generalizing p with
  | nil => rfl
  | cons c rest ih =>
    have hcons (q : Position) : q.advance (c :: rest) = (q.next c).advance rest := rfl
    rw [hcons, hcons, next_down, ih]

variable {f : Position → Position}

theorem Follows.next (h : Follows f p) (c : Char) : (f p).next c = f (p.next c) := h [c]

theorem Follows.advance (h : Follows f p) (x : List Char) : Follows f (p.advance x) := by
  intro y
  rw [← h x, ← advance_append, h, advance_append]

theorem Follows.step (h : Follows f p) (c : Char) : Follows f (p.next c) := h.advance [c]

/-- Behind a line break a text starts as at the very beginning, but further down. -/
theorem advance_line (x : List Char) :
    start.advance (x ++ ['\n']) = start.down (start.advance x).line := by
  rw [advance_append]
  simp [advance, next, down, start, Nat.add_comm]

end Position

def Token.move (f : Position → Position) (t : Token) : Token := ⟨f t.position, t.value⟩

def Token.down (lines : Nat) (t : Token) : Token := ⟨t.position.down lines, t.value⟩

def Cursor.move (f : Position → Position) (cursor : Cursor) : Cursor :=
  ⟨f cursor.position, cursor.rest⟩

variable {f : Position → Position}

namespace Word

def Piece.move (f : Position → Position) (piece : Piece) : Piece := ⟨f piece.start, piece.reversed⟩

@[simp] theorem Piece.close_move (piece : Option Piece) :
    close (piece.map (move f)) = (close piece).map (Token.move f) := by
  cases piece <;> rfl

@[simp] theorem Piece.extend_move (piece : Option Piece) (here : Position) (c : Char) :
    extend (piece.map (move f)) (f here) c = (extend piece here c).move f := by
  cases piece <;> rfl

@[simp] theorem Piece.any_move (piece : Option Piece) :
    ((piece.map (move f)).any fun p => isInteger p.text) =
      piece.any fun p => isInteger p.text := by
  cases piece <;> rfl

theorem splitFrom_move (hf : here.Follows f) (skip : Nat) (piece : Option Piece) (x : List Char) :
    splitFrom (f here) skip (piece.map (Piece.move f)) x =
      (splitFrom here skip piece x).map (Token.move f) := by
  fun_induction splitFrom here skip piece x with
  | case1 => exact Piece.close_move _
  | case2 here piece c rest skip ih => rw [splitFrom, hf.next, ih (hf.step c)]
  | case3 here piece c rest hfraction ih =>
    rw [splitFrom, Piece.any_move, if_pos hfraction, Piece.extend_move, hf.next]
    exact ih (hf.step c)
  | case4 here piece c rest hfraction hsymbol ih =>
    rw [splitFrom, Piece.any_move, if_neg hfraction, Piece.extend_move, hf.next]
    simp only [hsymbol]
    exact ih (hf.step c)
  | case5 here piece c rest hfraction k hsymbol ih =>
    rw [splitFrom, Piece.any_move, if_neg hfraction, hf.next]
    simp only [hsymbol, List.map_append, List.map_cons, Piece.close_move]
    rw [← ih (hf.step c)]
    rfl

theorem split_move (hf : here.Follows f) (x : List Char) :
    split (f here) x = (split here x).map (Token.move f) :=
  splitFrom_move hf 0 none x

/-- Each token of a word takes at least one character. -/
theorem length_splitFrom_le (here : Position) (skip : Nat) (piece : Option Piece)
    (x : List Char) : (splitFrom here skip piece x).length ≤ piece.toList.length + x.length := by
  fun_induction splitFrom here skip piece x with
  | case1 => simp [Piece.close]
  | case2 here piece c rest skip ih =>
    rw [List.length_cons]
    omega
  | case3 here piece c rest hfraction ih =>
    simp only [Option.toList_some, List.length_cons, List.length_nil] at ih ⊢
    omega
  | case4 here piece c rest hfraction hsymbol ih =>
    simp only [Option.toList_some, List.length_cons, List.length_nil] at ih ⊢
    omega
  | case5 here piece c rest hfraction k hsymbol ih =>
    simp only [Piece.close, List.length_append, List.length_map, List.length_cons,
      Option.toList_none, List.length_nil] at ih ⊢
    omega

theorem splitFrom_ne_nil_of_piece (here : Position) (skip : Nat) (piece : Piece) (x : List Char) :
    splitFrom here skip (some piece) x ≠ [] := by
  generalize hopen : some piece = open'
  fun_induction splitFrom here skip open' x generalizing piece with
  | case1 => simp [Piece.close, ← hopen]
  | case2 here open' c rest skip ih => exact ih piece hopen
  | case3 here open' c rest hfraction ih => exact ih _ rfl
  | case4 here open' c rest hfraction hsymbol ih => exact ih _ rfl
  | case5 => simp

theorem length_split_le (here : Position) (x : List Char) : (split here x).length ≤ x.length := by
  simpa [split] using length_splitFrom_le here 0 none x

theorem split_ne_nil (here : Position) (c : Char) (x : List Char) : split here (c :: x) ≠ [] := by
  simp only [split, splitFrom]
  split
  · exact splitFrom_ne_nil_of_piece _ _ _ _
  · split
    · exact splitFrom_ne_nil_of_piece _ _ _ _
    · simp

end Word

namespace Lexeme

/-- A reader cuts off the front of a text, and sees no further than to the end of a word. -/
structure Cuts (read : List Char → List Char × List Char) : Prop where
  append : ∀ x, (read x).1 ++ (read x).2 = x
  stop : ∀ {c}, isWordChar c = false → ∀ x y,
    read (x ++ c :: y) = ((read x).1, (read x).2 ++ c :: y)

theorem cuts_span {P : Char → Bool} (h : ∀ {c}, isWordChar c = false → P c = false) :
    Cuts (List.span P) where
  append x := by rw [List.span_eq_takeWhile_dropWhile, List.takeWhile_append_dropWhile]
  stop hstop x y := by
    simp only [List.span_eq_takeWhile_dropWhile]
    induction x with
    | nil => simp [h hstop]
    | cons c rest ih =>
      obtain ⟨htake, hdrop⟩ := Prod.mk.inj ih
      cases hc : P c <;> simp [hc, htake, hdrop]

theorem isDigit_of_isWordChar (h : isWordChar c = false) : c.isDigit = false := by
  by_contra hdigit
  simp only [Bool.not_eq_false, Char.isDigit, Bool.and_eq_true, decide_eq_true_eq] at hdigit
  simp only [isWordChar, isBlank, isQuote, Bool.not_eq_false', Bool.or_eq_true,
    decide_eq_true_eq] at h
  have hne {d : Char} (hd : d.val < 48) : c ≠ d := by
    rintro rfl
    exact absurd hdigit.1 (by simpa using hd)
  rcases h with (((((h | h) | h) | h) | h) | h | h) | h <;> exact hne (by decide) h

theorem cuts_digits : Cuts (List.span Char.isDigit) := cuts_span isDigit_of_isWordChar

theorem cuts_fraction : Cuts spanFraction where
  append x := by
    unfold spanFraction
    split
    next rest =>
      have hdigits := cuts_digits.append rest
      split
      · rfl
      next heq =>
        rw [heq] at hdigits
        exact congrArg _ hdigits
    next => rfl
  stop {s} hstop x y := by
    unfold spanFraction
    cases x with
    | nil =>
      have hs : s ≠ '.' := by
        rintro rfl
        cases hstop
      simp [hs]
    | cons c rest =>
      by_cases hc : c = '.'
      · subst hc
        simp only [List.cons_append]
        rw [cuts_digits.stop hstop]
        rcases List.span Char.isDigit rest with ⟨_ | ⟨d, digits⟩, tail⟩ <;> rfl
      · simp [hc]

/-- The sign of an exponent, if it has one. -/
def spanSign : List Char → List Char × List Char
  | '+' :: rest => (['+'], rest)
  | '-' :: rest => (['-'], rest)
  | rest => ([], rest)

theorem spanExponent_cons (c : Char) (rest : List Char) :
    spanExponent (c :: rest) =
      if c = 'e' ∨ c = 'E' then
        match (spanSign rest).2.span Char.isDigit with
        | ([], _) => ([], c :: rest)
        | (digits, more) => (c :: (spanSign rest).1 ++ digits, more)
      else ([], c :: rest) := rfl

theorem cuts_sign : Cuts spanSign where
  append x := by
    unfold spanSign
    split <;> rfl
  stop {s} hstop x y := by
    cases x with
    | nil =>
      have hs : s ≠ '+' ∧ s ≠ '-' := by
        constructor <;> rintro rfl <;> cases hstop
      simp [spanSign, hs]
    | cons c rest =>
      by_cases hplus : c = '+'
      · subst hplus
        rfl
      · by_cases hminus : c = '-'
        · subst hminus
          rfl
        · simp [spanSign, hplus, hminus]

theorem cuts_exponent : Cuts spanExponent where
  append x := by
    cases x with
    | nil => rfl
    | cons c rest =>
      have hsign := cuts_sign.append rest
      have hdigits := cuts_digits.append (spanSign rest).2
      rw [spanExponent_cons]
      split
      · split
        · rfl
        next heq =>
          rw [heq] at hdigits
          simp only [List.cons_append, List.append_assoc] at hdigits ⊢
          rw [hdigits, hsign]
      · rfl
  stop {s} hstop x y := by
    cases x with
    | nil =>
      have hs : ¬(s = 'e' ∨ s = 'E') := by
        rintro (rfl | rfl) <;> cases hstop
      rw [List.nil_append, spanExponent_cons, if_neg hs]
      rfl
    | cons c rest =>
      rw [List.cons_append, spanExponent_cons, spanExponent_cons, cuts_sign.stop hstop]
      split
      · rw [cuts_digits.stop hstop]
        rcases List.span Char.isDigit (spanSign rest).2 with ⟨_ | ⟨d, digits⟩, tail⟩ <;> rfl
      · rfl

theorem cuts_numeral : Cuts spanNumeral where
  append x := by
    have hwhole := cuts_digits.append x
    have hfraction := cuts_fraction.append (x.span Char.isDigit).2
    have hexponent := cuts_exponent.append (spanFraction (x.span Char.isDigit).2).2
    simp only [spanNumeral, List.append_assoc]
    rw [hexponent, hfraction, hwhole]
  stop hstop x y := by
    simp only [spanNumeral]
    rw [cuts_digits.stop hstop, cuts_fraction.stop hstop, cuts_exponent.stop hstop]

theorem cuts_word : Cuts (List.span isWordChar) := cuts_span id

/-- Each character is skipped or ends the skipping, whatever comes behind it. -/
theorem skipBlank_cons (comment : Bool) (c : Char) :
    (∃ comment', ∀ p rest, skipBlank comment p (c :: rest) = skipBlank comment' (p.next c) rest) ∨
      ∀ p rest, skipBlank comment p (c :: rest) = ⟨p, c :: rest⟩ := by
  by_cases hcomment : comment = true
  · exact .inl ⟨_, fun p rest => by rw [skipBlank, if_pos hcomment]⟩
  · by_cases hblank : isBlank c = true
    · exact .inl ⟨_, fun p rest => by rw [skipBlank, if_neg hcomment, if_pos hblank]⟩
    · by_cases hmark : c = '#'
      · exact .inl ⟨_, fun p rest => by
          rw [skipBlank, if_neg hcomment, if_neg hblank, if_pos hmark]⟩
      · exact .inr fun p rest => by
          rw [skipBlank, if_neg hcomment, if_neg hblank, if_neg hmark]

theorem skipBlank_eq {comment : Bool} (h : skipBlank comment p x = ⟨q, z⟩) :
    ∃ blank, x = blank ++ z ∧ q = p.advance blank := by
  induction x generalizing comment p with
  | nil =>
    cases h
    exact ⟨[], rfl, rfl⟩
  | cons c rest ih =>
    rcases skipBlank_cons comment c with ⟨comment', hskip⟩ | hstop
    · rw [hskip] at h
      obtain ⟨blank, rfl, hq⟩ := ih h
      exact ⟨c :: blank, rfl, hq⟩
    · rw [hstop] at h
      cases h
      exact ⟨[], rfl, rfl⟩

/-- What is skipped before a character is skipped also at the end, and whatever comes behind. -/
theorem skipBlank_cut {comment : Bool} (h : skipBlank comment p x = ⟨q, c :: z⟩) :
    ∃ blank, x = blank ++ c :: z ∧ q = p.advance blank ∧ skipBlank comment p blank = ⟨q, []⟩ ∧
      ∀ y, skipBlank comment p (blank ++ c :: y) = ⟨q, c :: y⟩ := by
  induction x generalizing comment p with
  | nil => cases h
  | cons d rest ih =>
    rcases skipBlank_cons comment d with ⟨comment', hskip⟩ | hstop
    · rw [hskip] at h
      obtain ⟨blank, rfl, hq, hend, hmore⟩ := ih h
      refine ⟨d :: blank, rfl, hq, by rw [hskip, hend], ?_⟩
      intro y
      rw [List.cons_append, hskip, hmore]
    · rw [hstop] at h
      cases h
      exact ⟨[], rfl, rfl, rfl, hstop _⟩

theorem skipBlank_append {comment : Bool} (h : skipBlank comment p x = ⟨q, c :: z⟩)
    (y : List Char) : skipBlank comment p (x ++ y) = ⟨q, c :: z ++ y⟩ := by
  obtain ⟨blank, rfl, -, -, hblank⟩ := skipBlank_cut h
  rw [List.append_assoc]
  exact hblank (z ++ y)

/-- A line break is skipped, also behind a comment, and ends the comment. -/
theorem skipBlank_line {comment : Bool} (h : skipBlank comment p x = ⟨q, []⟩) (y : List Char) :
    skipBlank comment p (x ++ '\n' :: y) = skipBlank false (p.advance (x ++ ['\n'])) y := by
  induction x generalizing comment p with
  | nil => cases comment <;> rfl
  | cons d rest ih =>
    rcases skipBlank_cons comment d with ⟨comment', hskip⟩ | hstop
    · rw [hskip] at h
      rw [List.cons_append, hskip]
      exact ih h
    · rw [hstop] at h
      cases h

/-- A closed quote is read the same whatever comes behind it. -/
theorem readQuoted_append {quote : Char} {text : List Char}
    (h : readQuoted quote p x = some (text, ⟨q, z⟩)) :
    (∃ taken, x = taken ++ z ∧ q = p.advance taken) ∧
      ∀ y, readQuoted quote p (x ++ y) = some (text, ⟨q, z ++ y⟩) := by
  fun_induction readQuoted quote p x generalizing text with
  | case1 => cases h
  | case2 => cases h
  | case3 p c rest ih =>
    obtain ⟨⟨more, after⟩, hread, heq⟩ := Option.map_eq_some_iff.mp h
    cases heq
    obtain ⟨⟨taken, htaken, hq⟩, hmore⟩ := ih hread
    refine ⟨⟨'\\' :: c :: taken, by rw [htaken]; rfl, hq⟩, ?_⟩
    intro y
    simp [readQuoted, hmore]
  | case4 p rest hne =>
    cases h
    refine ⟨⟨[quote], rfl, rfl⟩, ?_⟩
    intro y
    simp [readQuoted]
  | case5 p c rest hescape hquote ih =>
    obtain ⟨⟨more, after⟩, hread, heq⟩ := Option.map_eq_some_iff.mp h
    cases heq
    obtain ⟨⟨taken, htaken, hq⟩, hmore⟩ := ih hread
    refine ⟨⟨c :: taken, by rw [htaken]; rfl, hq⟩, ?_⟩
    intro y
    simp [readQuoted, hquote, hmore]

theorem numeral_ne_nil (h : c.isDigit = true) (x : List Char) : (spanNumeral (c :: x)).1 ≠ [] := by
  simp [spanNumeral, List.span_eq_takeWhile_dropWhile, h]

variable {lexeme : Lexeme}

theorem readAt_numeral (h : c.isDigit = true) (x : List Char) (p : Position) :
    readAt c x p = (numeral (spanNumeral (c :: x)).1,
      ⟨p.advance (spanNumeral (c :: x)).1, (spanNumeral (c :: x)).2⟩) := by
  rw [readAt, if_pos h]

theorem readAt_quoted {text : List Char} {after : Cursor} (hdigit : c.isDigit = false)
    (hquote : isQuote c = true) (h : readQuoted c (p.next c) x = some (text, after)) :
    readAt c x p = (quoted text, after) := by
  simp [readAt, hdigit, hquote, h]

theorem readAt_unclosed (hdigit : c.isDigit = false) (hquote : isQuote c = true)
    (h : readQuoted c (p.next c) x = none) : readAt c x p = (unclosed, ⟨p.next c, x⟩) := by
  simp [readAt, hdigit, hquote, h]

theorem readAt_word (hdigit : c.isDigit = false) (h : isQuote c = false) (x : List Char)
    (p : Position) :
    readAt c x p = (word (c :: (x.span isWordChar).1),
      ⟨p.advance (c :: (x.span isWordChar).1), (x.span isWordChar).2⟩) := by
  rw [readAt, if_neg (by simp [hdigit]), if_neg (by simp [h])]

/-- What is read at a character, and which cursor is left after it. -/
inductive Reads (c : Char) (x : List Char) (p : Position) : Lexeme → Cursor → Prop
  | numeral (hdigit : c.isDigit = true) :
      Reads c x p (numeral (spanNumeral (c :: x)).1)
        ⟨p.advance (spanNumeral (c :: x)).1, (spanNumeral (c :: x)).2⟩
  | quoted {text : List Char} {after : Cursor} (hdigit : c.isDigit = false)
      (hquote : isQuote c = true) (h : readQuoted c (p.next c) x = some (text, after)) :
      Reads c x p (quoted text) after
  | unclosed (hdigit : c.isDigit = false) (hquote : isQuote c = true)
      (h : readQuoted c (p.next c) x = none) : Reads c x p unclosed ⟨p.next c, x⟩
  | word (hdigit : c.isDigit = false) (hquote : isQuote c = false) :
      Reads c x p (word (c :: (x.span isWordChar).1))
        ⟨p.advance (c :: (x.span isWordChar).1), (x.span isWordChar).2⟩

theorem reads_of_readAt {after : Cursor} (h : readAt c x p = (lexeme, after)) :
    Reads c x p lexeme after := by
  cases hdigit : c.isDigit with
  | true =>
    rw [readAt_numeral hdigit] at h
    cases h
    exact .numeral hdigit
  | false =>
    cases hquote : isQuote c with
    | true =>
      rcases hread : readQuoted c (p.next c) x with _ | ⟨text, after⟩
      · rw [readAt_unclosed hdigit hquote hread] at h
        cases h
        exact .unclosed hdigit hquote hread
      · rw [readAt_quoted hdigit hquote hread] at h
        cases h
        exact .quoted hdigit hquote hread
    | false =>
      rw [readAt_word hdigit hquote] at h
      cases h
      exact .word hdigit hquote

/-- The tokens of a lexeme at `here` fit into the text that it takes up. -/
structure Takes (here : Position) (lexeme : Lexeme) (taken : List Char) : Prop where
  nonempty : 0 < taken.length
  fits : (Scanner.tokens here lexeme).length ≤ taken.length
  tokens : lexeme ≠ unclosed → Scanner.tokens here lexeme ≠ []

theorem readAt_eq (h : readAt c x p = (lexeme, ⟨q, z⟩)) :
    ∃ taken, Takes p lexeme taken ∧ c :: x = taken ++ z ∧ q = p.advance taken := by
  cases reads_of_readAt h with
  | numeral hdigit =>
    have hpos := List.length_pos_iff.mpr (numeral_ne_nil hdigit x)
    exact ⟨_, ⟨hpos, hpos, nofun⟩, (cuts_numeral.append _).symm, rfl⟩
  | quoted hdigit hquote hread =>
    obtain ⟨taken, rfl, rfl⟩ := (readQuoted_append hread).1
    exact ⟨c :: taken, ⟨by simp, by simp [Scanner.tokens], nofun⟩, rfl, rfl⟩
  | unclosed =>
    exact ⟨[c], ⟨by simp, by simp [Scanner.tokens], fun hne => absurd rfl hne⟩, rfl, rfl⟩
  | word =>
    have hword : Takes p (word (c :: (x.span isWordChar).1)) (c :: (x.span isWordChar).1) :=
      ⟨by simp, Word.length_split_le p _, fun _ => Word.split_ne_nil p c _⟩
    exact ⟨_, hword, congrArg _ (cuts_word.append x).symm, rfl⟩

/-- A character that is in no word ends every lexeme but an unclosed quote. -/
theorem readAt_stop {s : Char} (hstop : isWordChar s = false)
    (h : readAt c x p = (lexeme, ⟨q, z⟩)) (hlexeme : lexeme ≠ unclosed) (y : List Char) :
    readAt c (x ++ s :: y) p = (lexeme, ⟨q, z ++ s :: y⟩) := by
  cases reads_of_readAt h with
  | numeral hdigit => rw [readAt_numeral hdigit, ← List.cons_append, cuts_numeral.stop hstop]
  | quoted hdigit hquote hread =>
    exact readAt_quoted hdigit hquote ((readQuoted_append hread).2 _)
  | unclosed => exact absurd rfl hlexeme
  | word hdigit hquote => rw [readAt_word hdigit hquote, cuts_word.stop hstop]

theorem next?_eq_some_iff {after : Cursor} :
    next? ⟨p, x⟩ = some (here, lexeme, after) ↔
      ∃ c rest, skipBlank false p x = ⟨here, c :: rest⟩ ∧ readAt c rest here = (lexeme, after) := by
  unfold next?
  constructor
  · intro h
    split at h
    · cases h
    next p' c rest hskip =>
      obtain ⟨rfl, hread⟩ := Prod.mk.inj (Option.some.inj h)
      exact ⟨c, rest, hskip, hread⟩
  · rintro ⟨c, rest, hskip, hread⟩
    simp only [hskip, hread]

theorem next?_eq_none_iff : next? ⟨p, x⟩ = none ↔ ∃ q, skipBlank false p x = ⟨q, []⟩ := by
  unfold next?
  constructor
  · intro h
    split at h
    next q hskip => exact ⟨q, hskip⟩
    · cases h
  · rintro ⟨q, hskip⟩
    simp only [hskip]

/-- A lexeme takes up the text between the cursors before and after it. -/
theorem next?_eq (h : next? ⟨p, x⟩ = some (here, lexeme, ⟨q, z⟩)) :
    ∃ taken, Takes here lexeme taken ∧ x = taken ++ z ∧ q = p.advance taken := by
  obtain ⟨c, rest, hskip, hread⟩ := next?_eq_some_iff.mp h
  obtain ⟨blank, rfl, rfl⟩ := skipBlank_eq hskip
  obtain ⟨taken, htakes, htaken, rfl⟩ := readAt_eq hread
  have hlength : taken.length ≤ (blank ++ taken).length := by simp
  refine ⟨blank ++ taken, ⟨?_, ?_, htakes.tokens⟩, ?_, ?_⟩
  · exact Nat.lt_of_lt_of_le htakes.nonempty hlength
  · exact Nat.le_trans htakes.fits hlength
  · rw [htaken, List.append_assoc]
  · rw [Position.advance_append]

theorem next?_stop {s : Char} (hstop : isWordChar s = false)
    (h : next? ⟨p, x⟩ = some (here, lexeme, ⟨q, z⟩)) (hlexeme : lexeme ≠ unclosed)
    (y : List Char) :
    next? ⟨p, x ++ s :: y⟩ = some (here, lexeme, ⟨q, z ++ s :: y⟩) := by
  obtain ⟨c, rest, hskip, hread⟩ := next?_eq_some_iff.mp h
  exact next?_eq_some_iff.mpr
    ⟨c, _, skipBlank_append hskip _, readAt_stop hstop hread hlexeme y⟩

theorem next?_of_none (h : next? ⟨p, x⟩ = none) (y : List Char) :
    next? ⟨p, x ++ '\n' :: y⟩ = next? ⟨p.advance (x ++ ['\n']), y⟩ := by
  obtain ⟨q, hskip⟩ := next?_eq_none_iff.mp h
  simp only [next?, skipBlank_line hskip y]

/-! Elsewhere, everything is read the same. -/

theorem skipBlank_move (hf : p.Follows f) (comment : Bool) (x : List Char) :
    skipBlank comment (f p) x = (skipBlank comment p x).move f := by
  induction x generalizing comment p with
  | nil => rfl
  | cons c rest ih =>
    rcases skipBlank_cons comment c with ⟨comment', hskip⟩ | hstop
    · rw [hskip, hskip, hf.next, ih (hf.step c)]
    · rw [hstop, hstop]
      rfl

theorem readQuoted_move (hf : p.Follows f) (quote : Char) (x : List Char) :
    readQuoted quote (f p) x = (readQuoted quote p x).map (Prod.map id (Cursor.move f)) := by
  fun_induction readQuoted quote p x with
  | case1 => rfl
  | case2 => rfl
  | case3 p c rest ih =>
    simp only [readQuoted, hf.next, (hf.step '\\').next, ih ((hf.step '\\').step c),
      Option.map_map]
    rfl
  | case4 p rest hescape => simp [readQuoted, Cursor.move, hf.next]
  | case5 p c rest hescape hquote ih =>
    simp only [readQuoted, if_neg hquote, hf.next, ih (hf.step c), Option.map_map]
    rfl

theorem readAt_move (hf : p.Follows f) (c : Char) (x : List Char) :
    readAt c x (f p) = Prod.map id (Cursor.move f) (readAt c x p) := by
  cases hdigit : c.isDigit with
  | true =>
    rw [readAt_numeral hdigit, readAt_numeral hdigit, hf]
    rfl
  | false =>
    cases hquote : isQuote c with
    | true =>
      have hmove := readQuoted_move (hf.step c) c x
      rw [← hf.next] at hmove
      rcases hread : readQuoted c (p.next c) x with _ | ⟨text, after⟩
      · rw [hread] at hmove
        rw [readAt_unclosed hdigit hquote hread, readAt_unclosed hdigit hquote hmove, hf.next]
        rfl
      · rw [hread] at hmove
        rw [readAt_quoted hdigit hquote hread, readAt_quoted hdigit hquote hmove]
        rfl
    | false =>
      rw [readAt_word hdigit hquote, readAt_word hdigit hquote, hf]
      rfl

theorem next?_move {cursor : Cursor} (hf : cursor.position.Follows f) :
    next? (cursor.move f) =
      (next? cursor).map (Prod.map f (Prod.map id (Cursor.move f))) := by
  unfold next?
  rw [Cursor.move, skipBlank_move hf]
  rcases hskip : skipBlank false cursor.position cursor.rest with ⟨here, _ | ⟨c, rest⟩⟩
  · rfl
  · obtain ⟨blank, -, rfl⟩ := skipBlank_eq hskip
    simp only [Cursor.move, readAt_move (hf.advance blank)]
    rfl

end Lexeme

end ChainScript
