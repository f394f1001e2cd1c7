import ChainScript.Proofs.Token.Resume

/-!
Numbers in their context. Where a token starts, and behind every symbol, a text of the form of a
number is one token with its value; and a piece of a word is a number only if it has that form.
-/
namespace ChainScript

open Position Lexeme Numeral

variable {before after text rest d sign more x y : List Char} {p : Position} {c : Char}
  {k : Keyword} {v : Float}

namespace Word

/-! A numeral in a word is one piece. -/

theorem symbol?_cons (h : ∀ k ∈ Keyword.symbols, k.text.toList.head? ≠ some c) (x : List Char) :
    symbol? (c :: x) = none := by
  apply symbol?_eq_none
  rintro k hk ⟨tail, htail⟩
  obtain ⟨e, more, hmore⟩ := List.exists_cons_of_ne_nil (text_ne_nil k)
  rw [hmore, List.cons_append, List.cons.injEq] at htail
  apply h k hk
  rw [hmore, htail.1]
  rfl

theorem isDigit_head_symbol (hk : k ∈ Keyword.symbols) :
    ∀ c ∈ k.text.toList.head?, c.isDigit = false := by
  have hall : ∀ k ∈ Keyword.symbols, k.text.toList.head?.any Char.isDigit = false := by decide
  intro c hc
  simpa [Option.mem_def.mp hc] using hall k hk

theorem isWordChar_symbol (hk : k ∈ Keyword.symbols) :
    ∀ c ∈ k.text.toList, isWordChar c = true := by
  have hall : ∀ k ∈ Keyword.symbols, k.text.toList.all isWordChar = true := by decide
  exact List.all_eq_true.mp (hall k hk)

theorem symbol?_digit (hc : c.isDigit = true) (x : List Char) : symbol? (c :: x) = none := by
  apply symbol?_cons
  intro k hk hhead
  rw [isDigit_head_symbol hk c hhead] at hc
  cases hc

/-- A minus sign in front of a digit is not the first of a symbol. -/
theorem symbol?_minus (hc : c.isDigit = true) (x : List Char) :
    symbol? ('-' :: c :: x) = none := by
  have hne {e : Char} (he : e.isDigit = false) : e ≠ c := (ne_of_isDigit hc he).symm
  simp [symbol?, Keyword.symbols, Keyword.text, hne]

/-- Only two characters can make a longer symbol out of one. -/
theorem symbol?_append (hk : k ∈ Keyword.symbols) (hlambda : c ≠ '@') (hcollect : c ≠ '|')
    (x : List Char) : symbol? (k.text.toList ++ c :: x) = some k := by
  cases k with
  | openParen => simp [symbol?, Keyword.symbols, Keyword.text, hlambda.symm, hcollect.symm]
  | openCollect =>
    simp [symbol?, Keyword.symbols, Keyword.text, List.isPrefixOf, hcollect.symm]
  | memo => exact absurd hk (by decide)
  | bind => exact absurd hk (by decide)
  | _ => rfl

theorem stays_digits (hd : Matches digits d) (before rest : List Char) : Stays before d rest := by
  rintro x c y rfl
  exact .inr (symbol?_digit ((matches_digits.mp hd).2 c (by simp)) _)

theorem stays_sign (hsign : sign = [] ∨ sign = ['+'] ∨ sign = ['-']) (hc : c.isDigit = true)
    (before rest : List Char) : Stays before sign (c :: rest) := by
  rcases hsign with rfl | rfl | rfl
  · exact stays_nil _ _
  · exact stays_cons.mpr ⟨.inr (symbol?_cons (by decide) _), stays_nil _ _⟩
  · exact stays_cons.mpr ⟨.inr (symbol?_minus hc rest), stays_nil _ _⟩

theorem stays_fraction (hbefore : Matches integer before) (hd : Matches (optional fraction) d)
    (rest : List Char) : Stays before d rest := by
  rcases hd with rfl | hd
  · exact stays_nil _ _
  · obtain ⟨ds, hds, rfl⟩ := matches_fraction.mp hd
    refine stays_cons.mpr ⟨.inl ⟨hbefore, ?_⟩, stays_digits hds _ _⟩
    obtain ⟨c, tail, hc, rfl⟩ := exists_digit_cons hds
    exact ⟨c, tail ++ rest, rfl, hc⟩

theorem stays_exponent (hd : Matches (optional exponent) d) (before rest : List Char) :
    Stays before d rest := by
  rcases hd with rfl | hd
  · exact stays_nil _ _
  · obtain ⟨e, sign, ds, hletter, hsign, hds, rfl⟩ := matches_exponent.mp hd
    have he : Uncut before (e :: (sign ++ ds ++ rest)) := by
      refine .inr (symbol?_cons ?_ _)
      rcases hletter with rfl | rfl <;> decide
    refine stays_cons.mpr ⟨he, stays_append.mpr ⟨?_, stays_digits hds _ _⟩⟩
    obtain ⟨c, tail, hc, rfl⟩ := exists_digit_cons hds
    exact stays_sign hsign hc _ _

/-- A number is a whole piece up to the end of its word or a symbol that is no point. -/
theorem whole_number (hsign : sign = [] ∨ sign = ['-']) (hd : Matches magnitude d)
    (hy : y = [] ∨ ∃ k ∈ Keyword.symbols, k ≠ .dot ∧ k.text.toList <+: y) :
    Whole (sign ++ d) y where
  nonempty := by
    obtain ⟨c, tail, -, rfl⟩ := exists_cons_of_magnitude hd
    simp
  stays := by
    -- Sign, digits, fraction and exponent in turn; only the point needs to know what comes before.
    obtain ⟨whole, f, e, hwhole, hf, he, rfl⟩ := matches_magnitude.mp hd
    have hinteger : Matches integer (sign ++ whole) :=
      matches_mul.mpr ⟨sign, whole, hsign, hwhole, rfl⟩
    have hfirst : Stays [] sign (whole ++ (f ++ e) ++ y) := by
      obtain ⟨c, tail, hc, rfl⟩ := exists_digit_cons hwhole
      exact stays_sign (hsign.imp_right .inr) hc _ _
    refine stays_append.mpr ⟨hfirst, stays_append.mpr ⟨stays_digits hwhole _ _, ?_⟩⟩
    exact stays_append.mpr ⟨stays_fraction hinteger hf _, stays_exponent he _ _⟩
  ends hne := by
    obtain ⟨k, hk, hdot, hstands⟩ := hy.resolve_left hne
    rintro (⟨-, c, tail, rfl, -⟩ | hnone)
    · exact hdot (eq_dot_of_stands hk hstands)
    · exact symbol?_ne_none hk hstands hnone

/-- A point in a piece is that of a decimal number. -/
theorem Whole.point (h : Whole text rest) (htext : text = x ++ '.' :: y) :
    ∃ c ∈ y.head?, c.isDigit = true := by
  have hdot : symbol? ('.' :: (y ++ rest)) ≠ none :=
    symbol?_ne_none (k := .dot) (by decide) ⟨_, rfl⟩
  obtain ⟨-, c, tail, htail, hc⟩ := (h.stays x '.' y htext).resolve_right hdot
  cases y with
  | nil =>
    -- The piece would end at the point, in front of a digit, and no symbol starts with a digit.
    obtain rfl : rest = c :: tail := (List.cons.inj htail).2
    exact absurd (.inr (symbol?_digit hc tail)) (h.ends (by simp))
  | cons e more =>
    obtain ⟨rfl, -⟩ := List.cons.inj (List.cons.inj htail).2
    exact ⟨e, rfl, hc⟩

theorem isWordChar_of_isNumeralChar (h : isNumeralChar c = true) : isWordChar c = true := by
  by_contra hword
  have hstop : isWordChar c = false := Bool.eq_false_iff.mpr hword
  have hdigit := isDigit_of_isWordChar hstop
  simp only [isNumeralChar, hdigit, Bool.false_or, Bool.or_eq_true, decide_eq_true_eq] at h
  rcases h with (((rfl | rfl) | rfl) | rfl) | rfl <;> exact hword rfl

theorem isWordChar_number (hsign : sign = [] ∨ sign = ['-']) (hd : Matches magnitude d) :
    ∀ c ∈ sign ++ d, isWordChar c = true := by
  intro c hc
  rcases List.mem_append.mp hc with hc | hc
  · rcases hsign with rfl | rfl
    · cases hc
    · rw [List.mem_singleton.mp hc]
      rfl
  · exact isWordChar_of_isNumeralChar (isNumeralChar_of_mem hd c hc)

/--
A number ends in front of this text, which is at its end, or starts with a character that is in no
word, or with a symbol that is no point.
-/
inductive Ends : List Char → Prop
  | nil : Ends []
  | stop {c : Char} {y : List Char} (h : isWordChar c = false) : Ends (c :: y)
  | symbol {k : Keyword} {y : List Char} (hk : k ∈ Keyword.symbols) (hdot : k ≠ .dot) :
      Ends (k.text.toList ++ y)

theorem Ends.stops (h : Ends y) : Stops y := by
  cases h with
  | nil => exact stops_nil
  | @stop c y hc =>
    intro e he
    obtain rfl : c = e := by simpa using he
    refine ⟨isDigit_of_isWordChar hc, ?_, ?_, ?_⟩ <;> rintro rfl <;> cases hc
  | @symbol k y hk hdot =>
    have hall : ∀ k ∈ Keyword.symbols, k ≠ .dot → (k.text.toList.head?.all fun c =>
        !c.isDigit && c ≠ '.' && c ≠ 'e' && c ≠ 'E') = true := by decide
    obtain ⟨c, tail, htail⟩ := List.exists_cons_of_ne_nil (text_ne_nil k)
    have hhead := hall k hk hdot
    rw [htail] at hhead ⊢
    intro e he
    obtain rfl : c = e := by simpa using he
    simpa [and_assoc] using hhead

/-- What is left of a word behind a number is nothing, or starts with a symbol. -/
theorem Ends.symbol_of_word (h : Ends (y ++ more)) (hy : ∀ c ∈ y, isWordChar c = true)
    (hmore : EndsWord more) : y = [] ∨ ∃ k ∈ Keyword.symbols, k ≠ .dot ∧ k.text.toList <+: y := by
  generalize htext : y ++ more = text at h
  cases h with
  | nil => exact .inl (List.append_eq_nil_iff.mp htext).1
  | stop hc =>
    cases y with
    | nil => exact .inl rfl
    | cons e y =>
      obtain ⟨rfl, -⟩ := List.cons.inj htext
      rw [hy e (by simp)] at hc
      cases hc
  | @symbol k z hk hdot =>
    obtain ⟨tail, rfl, -⟩ := exists_of_endsWord htext (isWordChar_symbol hk) hmore
    exact .inr ⟨k, hk, hdot, tail, rfl⟩

end Word

namespace Scanner

open Word

variable {ts : List Token} {fault : Option Position}

theorem next?_number (hd : Matches magnitude d) (hy : Stops y) (p : Position) :
    next? ⟨p, d ++ y⟩ = some (p, .numeral d, ⟨p.advance d, y⟩) := by
  have hspan := spanNumeral_append hd hy
  have hword := Word.isWordChar_number (.inl rfl) hd
  obtain ⟨c, tail, hc, rfl⟩ := exists_cons_of_magnitude hd
  have hfirst := isWordChar_iff.mp (hword c (by simp))
  refine next?_eq_some_iff.mpr ⟨c, tail ++ y, skipBlank_of_head hfirst.1 _ _, ?_⟩
  rw [readAt_numeral hc, ← List.cons_append, hspan]

/-- A number in a word is one token, and the rest of the word is scanned like a word. -/
theorem InWord.number (h : InWord ⟨p, sign ++ d ++ after⟩ ts fault)
    (hsign : sign = [] ∨ sign = ['-']) (hd : Matches magnitude d)
    (hv : Number.read? (sign ++ d) = some v) (hafter : Ends after) :
    ∃ us, ts = ⟨p, .number v⟩ :: us ∧ Scans ⟨p.advance (sign ++ d), after⟩ us fault := by
  generalize hcursor : (⟨p, sign ++ d ++ after⟩ : Cursor) = cursor at h
  cases h with
  | @mk _ w more ts _ hw hmore h =>
    obtain ⟨rfl, htext⟩ := Cursor.mk.inj hcursor
    obtain ⟨y, rfl, rfl⟩ := exists_of_endsWord htext.symm (isWordChar_number hsign hd) hmore
    have hy : ∀ c ∈ y, isWordChar c = true := fun c hc => hw c (List.mem_append_right _ hc)
    have hwhole := whole_number hsign hd (hafter.symbol_of_word hy hmore)
    have hhead : ∀ c ∈ y.head?, c.isDigit = false := by
      intro c hc
      refine (hafter.stops c ?_).1
      rw [List.head?_append, Option.mem_def.mp hc]
      rfl
    rw [split_piece hwhole, classify_append hsign hd hv]
    refine ⟨_, rfl, scans_word hy hhead hmore ?_⟩
    rwa [← advance_append]

theorem Continues.number (h : Continues ⟨p, sign ++ d ++ after⟩ ts fault)
    (hsign : sign = [] ∨ sign = ['-']) (hd : Matches magnitude d)
    (hv : Number.read? (sign ++ d) = some v) (hafter : Ends after) :
    ∃ us, ts = ⟨p, .number v⟩ :: us ∧ Scans ⟨p.advance (sign ++ d), after⟩ us fault := by
  -- A lexeme that starts with a digit is a numeral, with a minus sign it is a word.
  rcases h with h | h
  · rcases hsign with rfl | rfl
    · obtain ⟨us, rfl, hrest⟩ := h.exists_of_next? (next?_number hd hafter.stops p) nofun
      refine ⟨us, ?_, hrest⟩
      rw [List.nil_append] at hv
      simp [tokens, hv]
    · exact InWord.number (inWord_of_scans rfl rfl h) (.inr rfl) hd hv hafter
  · exact h.number hsign hd hv hafter

/-- A symbol in front of a number is cut out, and a number may follow it. -/
theorem Continues.symbol (h : Continues ⟨p, k.text.toList ++ (sign ++ d ++ after)⟩ ts fault)
    (hk : k ∈ Keyword.symbols) (hsign : sign = [] ∨ sign = ['-']) (hd : Matches magnitude d) :
    ∃ us, ts = ⟨p, .keyword k⟩ :: us ∧
      Continues ⟨p.advance k.text.toList, sign ++ d ++ after⟩ us fault := by
  have hword : InWord ⟨p, k.text.toList ++ (sign ++ d ++ after)⟩ ts fault := by
    rcases h with h | h
    · obtain ⟨c, tail, htail⟩ := List.exists_cons_of_ne_nil (text_ne_nil k)
      have hc := isWordChar_symbol hk c (by simp [htail])
      have hdigit := isDigit_head_symbol hk c (by simp [htail])
      rw [htail] at h ⊢
      exact inWord_of_scans hc hdigit h
    · exact h
  generalize hcursor : (⟨p, k.text.toList ++ (sign ++ d ++ after)⟩ : Cursor) = cursor at hword
  cases hword with
  | @mk _ w more ts _ hw hmore h =>
    obtain ⟨rfl, htext⟩ := Cursor.mk.inj hcursor
    have hchars : ∀ c ∈ k.text.toList ++ (sign ++ d), isWordChar c = true :=
      List.forall_mem_append.mpr ⟨isWordChar_symbol hk, isWordChar_number hsign hd⟩
    rw [← List.append_assoc] at htext
    obtain ⟨y, rfl, rfl⟩ := exists_of_endsWord htext.symm hchars hmore
    have hsymbol : symbol? (k.text.toList ++ (sign ++ d ++ y)) = some k := by
      obtain ⟨c, tail, hc, rfl⟩ := exists_cons_of_magnitude hd
      rcases hsign with rfl | rfl
      · exact symbol?_append hk (ne_of_isDigit hc rfl) (ne_of_isDigit hc rfl) _
      · exact symbol?_append hk (by decide) (by decide) _
    rw [List.append_assoc, split_symbol hsymbol]
    refine ⟨_, rfl, .inr ?_⟩
    rw [← List.append_assoc (sign ++ d)]
    refine .mk (fun c hc => hw c ?_) hmore ?_
    · rw [List.append_assoc]
      exact List.mem_append_right _ hc
    · rwa [← advance_append, ← List.append_assoc]

end Scanner

namespace TokenStream

open Scanner Word

/--
A token starts behind the text, as the first one of a word does where the word starts; or the text
is empty, and the source starts there.
-/
inductive Starts (source : String) : List Char → Prop
  | first : Starts source []
  | token {t : Token} {before : List Char} (ht : t ∈ (ofSource source).toList)
      (h : t.position = behind before) : Starts source before

/-- A number may stand behind the text: where a token starts, or behind a symbol there. -/
inductive Opens (source : String) : List Char → Prop
  | start {before : List Char} (h : Starts source before) : Opens source before
  | symbol {before : List Char} {k : Keyword} (hk : k ∈ Keyword.symbols)
      (h : Starts source before) : Opens source (before ++ k.text.toList)

/--
Between the texts before and after it, the text is one token of the source, with the given value.
The tokens before it are laid out over the text before, up to a gap, and those after it are the
tokens of the text after, which is scanned as on its own.
-/
def StandsFor (source : String) (before text after : List Char) (value : Lexical) : Prop :=
  ∃ earlier x gap, before = x ++ gap ∧ Layout [] x (earlier.map .token) ∧ Blanks false gap false ∧
    (ofSource source).toList = earlier ++ ⟨behind before, value⟩ ::
      (ofSource (String.ofList after)).toList.map
        (Token.move (relocate (behind (before ++ text)))) ∧
    (ofSource source).fault =
      (ofSource (String.ofList after)).fault.map (relocate (behind (before ++ text)))

variable {source : String} {earlier later : List Token} {t : Token}

theorem continues_of_starts (h : Starts source before) (hsource : source.toList = before ++ rest) :
    ∃ earlier later, (ofSource source).toList = earlier ++ later ∧
      Continues ⟨behind before, rest⟩ later (ofSource source).fault := by
  have hscans := scans_ofSource source
  rw [hsource] at hscans
  cases h with
  | first => exact ⟨[], _, rfl, .inl hscans⟩
  | @token t _ ht hposition =>
    obtain ⟨a, b, earlier, later, hab, ha, htokens, hcontinues⟩ := hscans.exists_continues ht
    rw [← behind_eq_advance] at ha
    obtain rfl := eq_of_behind_eq hab (hposition.symm.trans ha)
    rw [List.append_cancel_left_eq] at hab
    rw [hposition, ← hab] at hcontinues
    exact ⟨earlier, t :: later, htokens, hcontinues⟩

theorem continues_of_opens (h : Opens source before)
    (hsource : source.toList = before ++ (sign ++ d ++ after))
    (hsign : sign = [] ∨ sign = ['-']) (hd : Matches magnitude d) :
    ∃ earlier later, (ofSource source).toList = earlier ++ later ∧
      Continues ⟨behind before, sign ++ d ++ after⟩ later (ofSource source).fault := by
  cases h with
  | start h => exact continues_of_starts h hsource
  | @symbol before k hk h =>
    rw [List.append_assoc] at hsource
    obtain ⟨earlier, later, htokens, hcontinues⟩ := continues_of_starts h hsource
    obtain ⟨later, rfl, hnumber⟩ := hcontinues.symbol hk hsign hd
    rw [← behind_append] at hnumber
    exact ⟨earlier ++ [⟨behind before, .keyword k⟩], later, by simp [htokens], hnumber⟩

/-- The tokens before a token are laid out over the text before it, up to a gap. -/
theorem layout_of_append (htokens : (ofSource source).toList = earlier ++ t :: later)
    (ht : t.position = behind before) (hsource : source.toList = before ++ rest) :
    ∃ x gap, before = x ++ gap ∧ Layout [] x (earlier.map .token) ∧ Blanks false gap false := by
  have hscans : Scans ⟨behind [], source.toList⟩ _ _ := scans_ofSource source
  obtain ⟨text, more, htext, hlayout⟩ := hscans.layout
  rw [htokens, List.map_append] at hlayout
  obtain ⟨x, y, rfl, hearlier, hlater⟩ := hlayout.exists_of_append
  rw [List.nil_append, List.map_cons] at hlater
  cases hlater with
  | @cons _ gap text' rest' _ _ hgap _ hposition _ =>
    refine ⟨x, gap, ?_, hearlier, hgap⟩
    have hbehind : behind before = behind (x ++ gap) := ht.symm.trans hposition
    have hboth : before ++ rest = x ++ gap ++ (text' ++ rest' ++ more) := by
      rw [← hsource, htext]
      simp only [List.append_assoc]
    exact eq_of_behind_eq hboth hbehind

/-- A number is one token where a number may stand. -/
theorem standsFor_number (sign : List Char) (hsign : sign = [] ∨ sign = ['-'])
    (hd : Matches magnitude d) (hv : Number.read? (sign ++ d) = some v)
    (h : Opens source before) (hafter : Ends after)
    (hsource : source.toList = before ++ (sign ++ d) ++ after) :
    StandsFor source before (sign ++ d) after (.number v) := by
  rw [List.append_assoc] at hsource
  obtain ⟨earlier, later, htokens, hcontinues⟩ := continues_of_opens h hsource hsign hd
  obtain ⟨later, rfl, hlater⟩ := hcontinues.number hsign hd hv hafter
  obtain ⟨x, gap, hbefore, hlayout, hgap⟩ := layout_of_append htokens rfl hsource
  have hown := scans_relocate (String.ofList after) (behind (before ++ (sign ++ d)))
  rw [String.toList_ofList] at hown
  rw [← behind_append] at hlater
  obtain ⟨rfl, hfault⟩ := hlater.unique hown
  exact ⟨earlier, x, gap, hbefore, hlayout, hgap, htokens, hfault⟩

/--
Numbers mean the same in every context, and nothing else is a number. Wherever a token starts and
behind every symbol, a numeral up to the end, to a character that is in no word or to a symbol that
is no point is one token with the value of the numeral, and with a minus sign in front it is one
token with the opposite value. And of the pieces of a word, exactly those that have the form of a
number are numbers.
-/
theorem ofSource_number :
    (∀ d, Matches magnitude d →
      ∃ v, Number.read? d = some v ∧ Number.read? ('-' :: d) = some (-v) ∧
        ∀ source before after, Opens source before → Ends after →
          (source.toList = before ++ d ++ after →
            StandsFor source before d after (.number v)) ∧
          (source.toList = before ++ '-' :: d ++ after →
            StandsFor source before ('-' :: d) after (.number (-v)))) ∧
    ∀ here w, ∃ parts, spelling parts = w ∧ split here w = place here parts ∧
      ∀ t, .piece t ∈ parts → ((classify t).kind = .number ↔ Matches signed t) := by
  refine ⟨?_, ?_⟩
  · intro d hd
    obtain ⟨v, hv, hneg⟩ := exists_read? hd
    refine ⟨v, hv, hneg, ?_⟩
    intro source before after hbefore hafter
    exact ⟨standsFor_number [] (.inl rfl) hd hv hbefore hafter,
      standsFor_number ['-'] (.inr rfl) hd hneg hbefore hafter⟩
  · intro here w
    obtain ⟨parts, hparts⟩ := exists_splits w
    refine ⟨parts, hparts.spelling, split_of_splits hparts here, ?_⟩
    intro t ht
    obtain ⟨ps, qs, rfl⟩ := List.append_of_mem ht
    exact kind_classify_iff fun a b hab => hparts.whole.point hab

/-- A negative number behind a parenthesis and in front of an arrow, and one as a word. -/
theorem ofSource_number_glued :
    Matches magnitude "1.5e3".toList ∧ Opens "f(-1.5e3->g" "f(".toList ∧ Ends "->g".toList ∧
      (∃ v, Number.read? "1.5e3".toList = some v ∧
        StandsFor "f(-1.5e3->g" "f(".toList "-1.5e3".toList "->g".toList (.number (-v))) ∧
      ∃ parts, split .start "-1.5".toList = place .start parts ∧ .piece "-1.5".toList ∈ parts ∧
        ((classify "-1.5".toList).kind = .number ↔ Matches signed "-1.5".toList) := by
  have hd : Matches magnitude "1.5e3".toList := by
    unfold Matches
    decide +kernel
  have hbefore : Opens "f(-1.5e3->g" "f(".toList := by
    obtain ⟨t, ht, hposition⟩ : ∃ t ∈ (ofSource "f(-1.5e3->g").toList,
        t.position = behind "f".toList := by decide +kernel
    have hparen : Keyword.openParen ∈ Keyword.symbols := by decide
    exact .symbol hparen (.token ht hposition)
  have hchain : Keyword.chain ∈ Keyword.symbols := by decide
  have hafter : Ends "->g".toList := .symbol hchain (by decide)
  refine ⟨hd, hbefore, hafter, ?_, ?_⟩
  · obtain ⟨v, hv, -, hnumber⟩ := ofSource_number.1 _ hd
    exact ⟨v, hv, (hnumber _ _ _ hbefore hafter).2 rfl⟩
  · obtain ⟨parts, hspelling, hsplit, hpieces⟩ := ofSource_number.2 .start "-1.5".toList
    have hlength : parts.length = 1 := by
      rw [← length_place .start parts, ← hsplit]
      decide +kernel
    obtain ⟨part, rfl⟩ := List.length_eq_one_iff.mp hlength
    rw [spelling_cons, spelling, List.flatMap_nil, List.append_nil] at hspelling
    cases part with
    | symbol k => cases k <;> cases hspelling
    | piece t =>
      obtain rfl : t = "-1.5".toList := hspelling
      have ht : Part.piece "-1.5".toList ∈ [Part.piece "-1.5".toList] := List.mem_singleton.mpr rfl
      exact ⟨_, hsplit, ht, hpieces _ ht⟩

end TokenStream

end ChainScript
