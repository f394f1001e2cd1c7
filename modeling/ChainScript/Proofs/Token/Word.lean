import ChainScript.Proofs.Token.Layout
import ChainScript.Proofs.Token.Numeral

/-!
Words in parts. From the left on, a word is cut into symbols and the pieces between them, and where
several symbols stand, the longest is cut out.
-/
namespace ChainScript.Word

open Position Lexeme Numeral

/-- What a word consists of. -/
inductive Part where
  | symbol (k : Keyword)
  | piece (text : List Char)

namespace Part

def text : Part → List Char
  | symbol k => k.text.toList
  | piece text => text

/-- What the part says. -/
def value : Part → Lexical
  | symbol k => .keyword k
  | piece text => classify text

end Part

/-- The text of parts that stand one behind the other. -/
def spelling (parts : List Part) : List Char := parts.flatMap Part.text

/-- The tokens of parts that stand one behind the other from `here` on. -/
def place (here : Position) : List Part → List Token
  | [] => []
  | part :: parts => ⟨here, part.value⟩ :: place (here.advance part.text) parts

variable {before text rest w x y : List Char} {k : Keyword} {c : Char} {here : Position}

/-! What stands at the head of a text. -/

theorem text_ne_nil (k : Keyword) : k.text.toList ≠ [] := (Spells.symbol .start k).ne_nil

/--
The symbol is the longest that stands at the head of the text. Only in front of two bars, an opening
parenthesis stands for itself.
-/
structure IsCut (k : Keyword) (text : List Char) : Prop where
  symbol : k ∈ Keyword.symbols
  stands : k.text.toList <+: text
  longest : ∀ k' ∈ Keyword.symbols, k'.text.toList <+: text →
    k'.text.length ≤ k.text.length ∨ k = .openParen ∧ k' = .openCollect
  paren : k = .openParen ∧ Keyword.openCollect.text.toList <+: text ↔ "(||".toList <+: text

theorem symbol?_bars (h : "(||".toList <+: text) : symbol? text = some .openParen := by
  obtain ⟨rest, rfl⟩ := h
  rfl

/-- The longer symbols come first, so that the first one found is the longest. -/
theorem symbols_pairwise :
    Keyword.symbols.Pairwise fun k k' => k'.text.length ≤ k.text.length := by
  decide

/-- Of the symbols that stand at the head of a text, the one found is first and so the longest. -/
theorem symbol?_longest (h : symbol? text = some k) {k' : Keyword} (hk' : k' ∈ Keyword.symbols)
    (hstands : k'.text.toList <+: text) :
    k'.text.length ≤ k.text.length ∨ k' = .openCollect ∧ "(||".toList <+: text := by
  obtain ⟨-, earlier, later, hsymbols, hearlier⟩ := List.find?_eq_some_iff_append.mp h
  have hpairwise := symbols_pairwise
  rw [hsymbols] at hk' hpairwise
  rcases List.mem_append.mp hk' with hk' | hk'
  · have hpassed := hearlier k' hk'
    simp only [List.isPrefixOf_iff_prefix.mpr hstands, Bool.true_and, Bool.not_not,
      Bool.and_eq_true, decide_eq_true_eq, List.isPrefixOf_iff_prefix] at hpassed
    exact .inr hpassed
  · rcases List.mem_cons.mp hk' with rfl | hk'
    · exact .inl le_rfl
    · have hlater := (List.pairwise_append.mp hpairwise).2.1
      exact .inl ((List.pairwise_cons.mp hlater).1 k' hk')

theorem isCut_of_symbol? (h : symbol? text = some k) : IsCut k text where
  symbol := List.mem_of_find?_eq_some h
  stands := by
    have hfound := List.find?_some h
    rw [Bool.and_eq_true] at hfound
    exact List.isPrefixOf_iff_prefix.mp hfound.1
  longest k' hk' hstands := by
    refine (symbol?_longest h hk' hstands).imp_right ?_
    rintro ⟨rfl, hbars⟩
    exact ⟨Option.some.inj (h.symm.trans (symbol?_bars hbars)), rfl⟩
  paren := by
    constructor
    · rintro ⟨rfl, hstands⟩
      rcases symbol?_longest h (by decide) hstands with hlength | ⟨-, hbars⟩
      · exact absurd hlength (by decide)
      · exact hbars
    · intro hbars
      refine ⟨Option.some.inj (h.symm.trans (symbol?_bars hbars)), ?_⟩
      exact List.IsPrefix.trans ⟨['|'], rfl⟩ hbars

theorem symbol?_ne_none (hk : k ∈ Keyword.symbols) (h : k.text.toList <+: text) :
    symbol? text ≠ none := by
  by_cases hbars : "(||".toList <+: text
  · rw [symbol?_bars hbars]
    nofun
  · intro hnone
    have hpassed := List.find?_eq_none.mp hnone k hk
    simp only [List.isPrefixOf_iff_prefix.mpr h, Bool.true_and, Bool.not_eq_true',
      Bool.not_eq_false, Bool.and_eq_true, List.isPrefixOf_iff_prefix] at hpassed
    exact hbars hpassed.2

/-- No symbol stands at the head of a text that starts in no way a symbol does. -/
theorem symbol?_eq_none (h : ∀ k ∈ Keyword.symbols, ¬k.text.toList <+: text) :
    symbol? text = none := by
  cases hsymbol : symbol? text with
  | none => rfl
  | some k => exact absurd (isCut_of_symbol? hsymbol).stands (h k (isCut_of_symbol? hsymbol).symbol)

/-- The text so far is a whole number, and a point and a digit follow: the point belongs to it. -/
def Glued (before rest : List Char) : Prop :=
  Matches integer before ∧ ∃ d tail, rest = '.' :: d :: tail ∧ d.isDigit = true

theorem startsFraction_iff :
    startsFraction rest = true ↔ ∃ d tail, rest = '.' :: d :: tail ∧ d.isDigit = true := by
  constructor
  · intro h
    unfold startsFraction at h
    split at h
    next d tail => exact ⟨d, tail, rfl, h⟩
    next => cases h
  · rintro ⟨d, tail, rfl, hd⟩
    exact hd

theorem glued_iff : (isInteger before && startsFraction rest) = true ↔ Glued before rest := by
  rw [Bool.and_eq_true, isInteger_iff, startsFraction_iff]
  rfl

theorem not_glued_nil (rest : List Char) : ¬Glued [] rest := by
  rintro ⟨h, -⟩
  cases isInteger_iff.mpr h

/-- Nothing is cut out in front of the rest while a piece with the text before it is open. -/
def Uncut (before rest : List Char) : Prop := Glued before rest ∨ symbol? rest = none

/-- All characters of a text stay in the open piece. -/
def Stays (before text rest : List Char) : Prop :=
  ∀ x c y, text = x ++ c :: y → Uncut (before ++ x) (c :: (y ++ rest))

theorem stays_nil (before rest : List Char) : Stays before [] rest := by
  intro x c y h
  simp at h

theorem stays_cons :
    Stays before (c :: text) rest ↔
      Uncut before (c :: (text ++ rest)) ∧ Stays (before ++ [c]) text rest := by
  constructor
  · intro h
    refine ⟨by simpa using h [] c text rfl, ?_⟩
    intro x d y hxy
    simpa using h (c :: x) d y (by rw [hxy]; rfl)
  · rintro ⟨hc, htext⟩ x d y hxy
    cases x with
    | nil =>
      obtain ⟨rfl, rfl⟩ := List.cons.inj hxy
      simpa using hc
    | cons e x =>
      obtain ⟨rfl, rfl⟩ := List.cons.inj hxy
      simpa using htext x d y rfl

theorem stays_append :
    Stays before (x ++ y) rest ↔ Stays before x (y ++ rest) ∧ Stays (before ++ x) y rest := by
  induction x generalizing before with
  | nil => simp [stays_nil]
  | cons c x ih =>
    rw [List.cons_append, stays_cons, stays_cons, ih]
    simp [and_assoc]

/-! Cutting a word into parts. -/

/-- A piece up to the next symbol, or to the end of the word. -/
structure Whole (text rest : List Char) : Prop where
  nonempty : text ≠ []
  stays : Stays [] text rest
  ends : rest ≠ [] → ¬Uncut text rest

/-- The word has these parts. -/
inductive Splits : List Char → List Part → Prop
  | nil : Splits [] []
  | symbol {k : Keyword} {rest : List Char} {parts : List Part}
      (h : symbol? (k.text.toList ++ rest) = some k) (hrest : Splits rest parts) :
      Splits (k.text.toList ++ rest) (.symbol k :: parts)
  | piece {text rest : List Char} {parts : List Part} (h : Whole text rest)
      (hrest : Splits rest parts) : Splits (text ++ rest) (.piece text :: parts)

variable {parts ps qs : List Part}

@[simp] theorem spelling_cons (part : Part) (parts : List Part) :
    spelling (part :: parts) = part.text ++ spelling parts := List.flatMap_cons

@[simp] theorem spelling_append (ps qs : List Part) :
    spelling (ps ++ qs) = spelling ps ++ spelling qs := List.flatMap_append

theorem Splits.spelling (h : Splits w parts) : spelling parts = w := by
  induction h with
  | nil => rfl
  | symbol _ _ ih => rw [spelling_cons, ih]; rfl
  | piece _ _ ih => rw [spelling_cons, ih]; rfl

theorem Splits.drop (h : Splits w (ps ++ qs)) : Splits (Word.spelling qs) qs := by
  induction ps generalizing w with
  | nil =>
    have hw : Word.spelling qs = w := h.spelling
    rwa [hw]
  | cons part ps ih =>
    cases h with
    | symbol _ hrest => exact ih hrest
    | piece _ hrest => exact ih hrest

theorem place_append (here : Position) (ps qs : List Part) :
    place here (ps ++ qs) = place here ps ++ place (here.advance (spelling ps)) qs := by
  induction ps generalizing here with
  | nil => rfl
  | cons part ps ih =>
    rw [List.cons_append, place, ih, spelling_cons, advance_append]
    rfl

theorem length_place (here : Position) (parts : List Part) :
    (place here parts).length = parts.length := by
  induction parts generalizing here with
  | nil => rfl
  | cons part parts ih => rw [place, List.length_cons, List.length_cons, ih]

/-- The characters of a symbol that was cut out are skipped. -/
theorem splitFrom_skip (here : Position) (x y : List Char) :
    splitFrom here x.length none (x ++ y) = split (here.advance x) y := by
  induction x generalizing here with
  | nil => rfl
  | cons c x ih => exact ih (here.next c)

/-- A symbol is cut out unless its point belongs to the open piece, which ends there. -/
theorem splitFrom_symbol {piece : Option Piece}
    (hpiece : ∀ p ∈ piece, ¬Glued p.text (k.text.toList ++ rest))
    (h : symbol? (k.text.toList ++ rest) = some k) (here : Position) :
    splitFrom here 0 piece (k.text.toList ++ rest) =
      Piece.close piece ++ ⟨here, .keyword k⟩ :: split (here.advance k.text.toList) rest := by
  have hcut : ¬((piece.any fun p => isInteger p.text) &&
      startsFraction (k.text.toList ++ rest)) = true := by
    cases piece with
    | none => simp
    | some p => exact fun hglued => hpiece p rfl (glued_iff.mp hglued)
  obtain ⟨c, more, hmore⟩ := List.exists_cons_of_ne_nil (text_ne_nil k)
  have hlength : k.text.length - 1 = more.length := by
    rw [← String.length_toList, hmore, List.length_cons, Nat.add_sub_cancel]
  rw [hmore, List.cons_append] at h hcut ⊢
  rw [splitFrom, if_neg hcut]
  simp only [h]
  rw [hlength, splitFrom_skip]
  rfl

theorem split_symbol (h : symbol? (k.text.toList ++ rest) = some k) (here : Position) :
    split here (k.text.toList ++ rest) =
      ⟨here, .keyword k⟩ :: split (here.advance k.text.toList) rest := by
  have hnone : ∀ p ∈ (none : Option Piece), ¬Glued p.text (k.text.toList ++ rest) := nofun
  exact splitFrom_symbol hnone h here

theorem splitFrom_uncut {piece : Option Piece}
    (h : (∃ p ∈ piece, Glued p.text (c :: rest)) ∨ symbol? (c :: rest) = none) (here : Position) :
    splitFrom here 0 piece (c :: rest) =
      splitFrom (here.next c) 0 (some (Piece.extend piece here c)) rest := by
  rw [splitFrom]
  split
  next => rfl
  next hcut =>
    rcases h with ⟨p, hp, hglued⟩ | hnone
    · obtain rfl := Option.mem_def.mp hp
      exact absurd (glued_iff.mpr hglued) hcut
    · rw [hnone]

/-- An open piece goes on to the next symbol. -/
theorem splitFrom_piece (piece : Piece) (here : Position) (hstays : Stays piece.text text rest)
    (hends : rest ≠ [] → ¬Uncut (piece.text ++ text) rest) :
    splitFrom here 0 (some piece) (text ++ rest) =
      ⟨piece.start, classify (piece.text ++ text)⟩ :: split (here.advance text) rest := by
  induction text generalizing piece here with
  | nil =>
    rw [List.append_nil] at hends ⊢
    by_cases hrest : rest = []
    · subst hrest
      rfl
    · obtain ⟨hglued, hsymbol⟩ := not_or.mp (hends hrest)
      obtain ⟨k, hk⟩ := Option.ne_none_iff_exists'.mp hsymbol
      obtain ⟨more, rfl⟩ := (isCut_of_symbol? hk).stands
      have hpiece : ∀ p ∈ some piece, ¬Glued p.text (k.text.toList ++ more) := by
        intro p hp
        obtain rfl := Option.mem_some_iff.mp hp
        exact hglued
      rw [List.nil_append, splitFrom_symbol hpiece hk]
      exact congrArg _ (split_symbol hk here).symm
  | cons c text ih =>
    obtain ⟨hc, htext⟩ := stays_cons.mp hstays
    have hextend : (Piece.extend (some piece) here c).text = piece.text ++ [c] := by
      simp [Piece.extend, Piece.text]
    have hc : (∃ p ∈ some piece, Glued p.text (c :: (text ++ rest))) ∨
        symbol? (c :: (text ++ rest)) = none :=
      hc.imp_left fun h => ⟨piece, rfl, h⟩
    rw [List.cons_append, splitFrom_uncut hc, ih]
    · rw [hextend, List.append_assoc]
      rfl
    · rwa [hextend]
    · rwa [hextend, List.append_assoc]

theorem split_piece (h : Whole text rest) (here : Position) :
    split here (text ++ rest) = ⟨here, classify text⟩ :: split (here.advance text) rest := by
  obtain ⟨c, more, rfl⟩ := List.exists_cons_of_ne_nil h.nonempty
  obtain ⟨hc, hmore⟩ := stays_cons.mp h.stays
  have hnone := hc.resolve_left (not_glued_nil _)
  rw [split, List.cons_append, splitFrom_uncut (.inr hnone)]
  exact splitFrom_piece ⟨here, [c]⟩ (here.next c) hmore h.ends

/-- The tokens of a word are those of its parts, one behind the other. -/
theorem split_of_splits (h : Splits w parts) (here : Position) :
    split here w = place here parts := by
  induction h generalizing here with
  | nil => rfl
  | symbol h _ ih =>
    rw [split_symbol h, ih]
    rfl
  | piece h _ ih =>
    rw [split_piece h, ih]
    rfl

/-- An open piece can be followed to its end. -/
theorem exists_stays (before x : List Char) :
    ∃ text rest, x = text ++ rest ∧ Stays before text rest ∧
      (rest ≠ [] → ¬Uncut (before ++ text) rest) := by
  induction x generalizing before with
  | nil => exact ⟨[], [], rfl, stays_nil _ _, fun h => absurd rfl h⟩
  | cons c x ih =>
    by_cases hc : Uncut before (c :: x)
    · obtain ⟨text, rest, rfl, hstays, hends⟩ := ih (before ++ [c])
      refine ⟨c :: text, rest, rfl, stays_cons.mpr ⟨hc, hstays⟩, ?_⟩
      simpa using hends
    · exact ⟨[], c :: x, rfl, stays_nil _ _, fun _ => by simpa using hc⟩

theorem exists_splits (w : List Char) : ∃ parts, Splits w parts := by
  induction hlength : w.length using Nat.strong_induction_on generalizing w with
  | _ n ih =>
    subst hlength
    cases w with
    | nil => exact ⟨[], .nil⟩
    | cons c x =>
      cases hsymbol : symbol? (c :: x) with
      | some k =>
        obtain ⟨rest, hrest⟩ := (isCut_of_symbol? hsymbol).stands
        have hshorter : rest.length < (c :: x).length := by
          have hpos := List.length_pos_iff.mpr (text_ne_nil k)
          rw [← hrest, List.length_append]
          omega
        obtain ⟨parts, hparts⟩ := ih _ hshorter rest rfl
        rw [← hrest] at hsymbol ⊢
        exact ⟨.symbol k :: parts, .symbol hsymbol hparts⟩
      | none =>
        obtain ⟨text, rest, rfl, hstays, hends⟩ := exists_stays [c] x
        have hshorter : rest.length < (c :: (text ++ rest)).length := by
          rw [List.length_cons, List.length_append]
          omega
        obtain ⟨parts, hparts⟩ := ih _ hshorter rest rfl
        have hwhole : Whole (c :: text) rest :=
          ⟨by simp, stays_cons.mpr ⟨.inr hsymbol, hstays⟩, hends⟩
        exact ⟨.piece (c :: text) :: parts, .piece hwhole hparts⟩

/-! The tokens of a word. -/

theorem advance_of_isWordChar (here : Position) (h : ∀ c ∈ x, isWordChar c = true) :
    here.advance x = ⟨here.line, here.column + x.length⟩ := by
  induction x generalizing here with
  | nil => rfl
  | cons c x ih =>
    rw [List.forall_mem_cons] at h
    have hc : c ≠ '\n' := by
      rintro rfl
      cases h.1
    have hcons : here.advance (c :: x) = (here.next c).advance x := rfl
    rw [hcons, ih _ h.2, next, if_neg hc, List.length_cons]
    simp only [mk.injEq, true_and]
    omega

theorem getElem?_place (here : Position) (ps : List Part) (part : Part) (qs : List Part) :
    (place here (ps ++ part :: qs))[ps.length]? =
      some ⟨here.advance (spelling ps), part.value⟩ := by
  have hlength : (place here ps).length = ps.length := length_place here ps
  rw [place_append, ← hlength, List.getElem?_append_right le_rfl, Nat.sub_self]
  rfl

/--
The parts are those that a reader finds who goes through the text from the left and takes the
longest symbol wherever one stands.
-/
structure LeftmostLongest (parts : List Part) : Prop where
  /-- Pieces are not empty, and between two of them there is a symbol. -/
  nonempty : ∀ t, .piece t ∈ parts → t ≠ []
  apart : ∀ ps t u qs, parts ≠ ps ++ .piece t :: .piece u :: qs
  /-- No symbol stands in a piece but the point of a decimal number. -/
  uncut : ∀ ps t qs, parts = ps ++ .piece t :: qs → ∀ x y, t = x ++ y → y ≠ [] →
    ∀ k ∈ Keyword.symbols, k.text.toList <+: y ++ spelling qs →
      k = .dot ∧ Glued x (y ++ spelling qs)
  /-- The point of a decimal number is not cut out. -/
  point : ∀ ps t qs, parts = ps ++ .piece t :: .symbol .dot :: qs →
    ¬Glued t (spelling (.symbol .dot :: qs))
  /-- Where a symbol is cut out, no longer one stands. -/
  longest : ∀ ps k qs, parts = ps ++ .symbol k :: qs → IsCut k (spelling (.symbol k :: qs))

theorem Splits.whole {t : List Char} (h : Splits w (ps ++ .piece t :: qs)) :
    Whole t (Word.spelling qs) := by
  obtain ⟨suffix, hsuffix⟩ : ∃ z, Splits z (.piece t :: qs) := ⟨_, h.drop⟩
  cases hsuffix with
  | piece hwhole hrest => rwa [hrest.spelling]

theorem Splits.cut (h : Splits w (ps ++ .symbol k :: qs)) :
    symbol? (Word.spelling (.symbol k :: qs)) = some k := by
  obtain ⟨suffix, hsuffix⟩ : ∃ z, Splits z (.symbol k :: qs) := ⟨_, h.drop⟩
  cases hsuffix with
  | symbol hsymbol hrest =>
    rw [spelling_cons, hrest.spelling]
    exact hsymbol

/-- Only a point starts like a point. -/
theorem eq_dot_of_stands (hk : k ∈ Keyword.symbols) (h : k.text.toList <+: '.' :: rest) :
    k = .dot := by
  have hdot : ∀ k ∈ Keyword.symbols, k.text.toList.head? = some '.' → k = .dot := by decide
  obtain ⟨more, hmore⟩ := h
  obtain ⟨c, tail, htail⟩ := List.exists_cons_of_ne_nil (text_ne_nil k)
  rw [htail, List.cons_append, List.cons.injEq] at hmore
  exact hdot k hk (by rw [htail, hmore.1]; rfl)

theorem leftmostLongest_of_splits (h : Splits w parts) : LeftmostLongest parts where
  nonempty t ht := by
    obtain ⟨ps, qs, rfl⟩ := List.append_of_mem ht
    exact h.whole.nonempty
  apart ps t u qs hparts := by
    subst hparts
    -- The first character of the second piece would have stayed in the first.
    have hfirst := h.whole
    have hsecond : Whole u (spelling qs) := by
      rw [← List.singleton_append, ← List.append_assoc] at h
      exact h.whole
    obtain ⟨c, more, rfl⟩ := List.exists_cons_of_ne_nil hsecond.nonempty
    have hnone := (hsecond.stays [] c more rfl).resolve_left (not_glued_nil _)
    exact hfirst.ends (by simp [Part.text]) (.inr hnone)
  uncut ps t qs hparts x y ht hy k hk hstands := by
    subst hparts
    obtain ⟨c, more, rfl⟩ := List.exists_cons_of_ne_nil hy
    rcases h.whole.stays x c more ht with hglued | hnone
    · obtain ⟨hinteger, d, tail, htail, hd⟩ := hglued
      rw [List.cons_append, htail] at hstands ⊢
      exact ⟨eq_dot_of_stands hk hstands, hinteger, d, tail, rfl, hd⟩
    · exact absurd hnone (symbol?_ne_none hk hstands)
  point ps t qs hparts := by
    subst hparts
    have hrest : spelling (.symbol .dot :: qs) ≠ [] := by
      rw [spelling_cons]
      exact List.append_ne_nil_of_left_ne_nil (text_ne_nil .dot) _
    exact (not_or.mp (h.whole.ends hrest)).1
  longest ps k qs hparts := by
    subst hparts
    exact isCut_of_symbol? h.cut

/--
Splitting loses nothing of a word and goes from the left, taking the longest symbol wherever one
stands. The texts of the parts make up the word, there is one token for each part, and its column
tells how many characters of the word come before it.
-/
theorem split_leftmost_longest (here : Position) {w : List Char}
    (hw : ∀ c ∈ w, isWordChar c = true) :
    ∃ parts, spelling parts = w ∧ LeftmostLongest parts ∧
      (split here w).length = parts.length ∧
      ∀ ps part qs, parts = ps ++ part :: qs →
        (split here w)[ps.length]? =
          some ⟨⟨here.line, here.column + (spelling ps).length⟩, part.value⟩ := by
  obtain ⟨parts, hparts⟩ := exists_splits w
  have htokens := split_of_splits hparts here
  refine ⟨parts, hparts.spelling, leftmostLongest_of_splits hparts, ?_, ?_⟩
  · rw [htokens, length_place]
  · rintro ps part qs rfl
    have hps : ∀ c ∈ spelling ps, isWordChar c = true := by
      intro c hc
      apply hw
      rw [← hparts.spelling, spelling_append]
      exact List.mem_append_left _ hc
    rw [htokens, getElem?_place, advance_of_isWordChar here hps]

/-- Arrows, bars and points in one word, where some points are cut out and one is not. -/
theorem split_leftmost_longest_glued :
    (∀ c ∈ "x1.5==>(||(@-1.5.2".toList, isWordChar c = true) ∧
      ∃ parts, spelling parts = "x1.5==>(||(@-1.5.2".toList ∧ LeftmostLongest parts ∧
        parts.length = 10 ∧ ∀ ps part qs, parts = ps ++ part :: qs →
          (split ⟨3, 4⟩ "x1.5==>(||(@-1.5.2".toList)[ps.length]? =
            some ⟨⟨3, 4 + (spelling ps).length⟩, part.value⟩ := by
  have hw : ∀ c ∈ "x1.5==>(||(@-1.5.2".toList, isWordChar c = true :=
    List.all_eq_true.mp (by decide)
  obtain ⟨parts, hspelling, hparts, hlength, htokens⟩ := split_leftmost_longest ⟨3, 4⟩ hw
  refine ⟨hw, parts, hspelling, hparts, ?_, htokens⟩
  rw [← hlength]
  decide +kernel

end ChainScript.Word
