import ChainScript.Proofs.Token.Join

/-!
String literals. Every string can be written between quotes of either kind, such a literal ends at
its closing quote, and a quote is never closed exactly if each further one belongs to a backslash.
-/
namespace ChainScript

open Position

namespace Lexeme

variable {quote c : Char} {p : Position} {x u : List Char}

/-- A text as it is written between quotes: backslashes and quotes have a backslash in front. -/
def escape (quote : Char) (text : List Char) : List Char :=
  text.flatMap fun c => if c = '\\' ∨ c = quote then ['\\', c] else [c]

/-- The string literal that stands for a text. -/
def literal (quote : Char) (text : List Char) : List Char :=
  quote :: (escape quote text ++ [quote])

/--
Read from the left in backslashes with the character after each, and in single other characters, the
text comes out even: what follows it does not belong to a backslash.
-/
inductive Paired : List Char → Prop
  | nil : Paired []
  | pair (c : Char) {x : List Char} (h : Paired x) : Paired ('\\' :: c :: x)
  | single {c : Char} {x : List Char} (hc : c ≠ '\\') (h : Paired x) : Paired (c :: x)

theorem isQuote_iff : isQuote c = true ↔ c = '\x27' ∨ c = '"' := by
  simp [isQuote]

theorem ne_backslash_of_isQuote (h : isQuote quote = true) : quote ≠ '\\' := by
  rcases isQuote_iff.mp h with rfl | rfl <;> decide

/-- Behind a backslash, a backslash and a quote stand for themselves. -/
theorem escaped_eq_self (hquote : isQuote quote = true) (hc : c = '\\' ∨ c = quote) :
    escaped c = [c] := by
  rcases hc with rfl | rfl
  · rfl
  · rcases isQuote_iff.mp hquote with rfl | rfl <;> rfl

theorem readQuoted_pair (quote : Char) (p : Position) (c : Char) (rest : List Char) :
    readQuoted quote p ('\\' :: c :: rest) =
      (readQuoted quote ((p.next '\\').next c) rest).map fun (text, after) =>
        (escaped c ++ text, after) := by
  rw [readQuoted]

theorem readQuoted_quote (hquote : isQuote quote = true) (p : Position) (rest : List Char) :
    readQuoted quote p (quote :: rest) = some ([], ⟨p.next quote, rest⟩) := by
  have hne := ne_backslash_of_isQuote hquote
  simp [readQuoted]

theorem readQuoted_other (hc : c ≠ '\\') (hne : c ≠ quote) (p : Position) (rest : List Char) :
    readQuoted quote p (c :: rest) =
      (readQuoted quote (p.next c) rest).map fun (text, after) => (c :: text, after) := by
  simp [readQuoted, hne]

/-- An escaped text is read back up to the first quote behind it. -/
theorem readQuoted_escape (hquote : isQuote quote = true) (p : Position) (s t : List Char) :
    readQuoted quote p (escape quote s ++ quote :: t) =
      some (s, ⟨p.advance (escape quote s ++ [quote]), t⟩) := by
  induction s generalizing p with
  | nil => exact readQuoted_quote hquote p t
  | cons c s ih =>
    by_cases hc : c = '\\' ∨ c = quote
    · have hescape : escape quote (c :: s) = '\\' :: c :: escape quote s := by simp [escape, hc]
      rw [hescape, List.cons_append, List.cons_append, readQuoted_pair, ih,
        escaped_eq_self hquote hc]
      rfl
    · have hescape : escape quote (c :: s) = c :: escape quote s := by simp [escape, hc]
      obtain ⟨hbackslash, hne⟩ := not_or.mp hc
      rw [hescape, List.cons_append, readQuoted_other hbackslash hne, ih]
      rfl

/-- A quote is closed exactly by a quote that does not belong to a backslash. -/
theorem readQuoted_ne_none_iff (hquote : isQuote quote = true) :
    readQuoted quote p u ≠ none ↔ ∃ before after, u = before ++ quote :: after ∧ Paired before := by
  constructor
  · intro h
    fun_induction readQuoted quote p u with
    | case1 => exact absurd rfl h
    | case2 => exact absurd rfl h
    | case3 p c rest ih =>
      obtain ⟨before, after, rfl, hpaired⟩ := ih (by simpa using h)
      exact ⟨'\\' :: c :: before, after, rfl, .pair c hpaired⟩
    | case4 p rest hescape => exact ⟨[], rest, rfl, .nil⟩
    | case5 p c rest hescape hne ih =>
      obtain ⟨before, after, rfl, hpaired⟩ := ih (by simpa using h)
      exact ⟨c :: before, after, rfl, .single hescape hpaired⟩
  · rintro ⟨before, after, rfl, hpaired⟩
    induction hpaired generalizing p with
    | nil =>
      rw [List.nil_append, readQuoted_quote hquote]
      simp
    | pair c _ ih =>
      rw [List.cons_append, List.cons_append, readQuoted_pair]
      simpa using ih
    | @single c x hc _ ih =>
      by_cases hne : c = quote
      · rw [List.cons_append, hne, readQuoted_quote hquote]
        simp
      · rw [List.cons_append, readQuoted_other hc hne]
        simpa using ih

theorem next?_quote (hquote : isQuote quote = true) (p : Position) (x : List Char) :
    next? ⟨p, quote :: x⟩ = some (p, readAt quote x p) := by
  rcases isQuote_iff.mp hquote with rfl | rfl <;> rfl

theorem isDigit_of_isQuote (h : isQuote c = true) : c.isDigit = false :=
  isDigit_of_isWordChar (not_isWordChar_of_isQuote h)

end Lexeme

namespace Scanner

open Lexeme

variable {quote : Char} {p : Position} {ts : List Token} {fault : Option Position}

/-- Behind a literal, the text is scanned from there on. -/
theorem scans_literal (hquote : isQuote quote = true) (s : List Char) {t : List Char}
    (h : Scans ⟨p.advance (literal quote s), t⟩ ts fault) :
    Scans ⟨p, literal quote s ++ t⟩ (⟨p, .string (String.ofList s)⟩ :: ts) fault := by
  have hread := readQuoted_escape hquote (p.next quote) s t
  have hnext := next?_quote hquote p (escape quote s ++ quote :: t)
  rw [readAt_quoted (isDigit_of_isQuote hquote) hquote hread] at hnext
  have htext : literal quote s ++ t = quote :: (escape quote s ++ quote :: t) := by
    simp [literal]
  rw [htext]
  exact .lexeme hnext nofun h

/-- A fault behind a first lexeme does not stand where that lexeme does. -/
theorem fault_ne_of_lexeme {x : List Char} {here : Position} {lexeme : Lexeme} {after : Cursor}
    (h : next? ⟨p, x⟩ = some (here, lexeme, after)) (hrest : Scans after ts fault) :
    fault ≠ some p := by
  rintro rfl
  obtain ⟨taken, htakes, -, hafter⟩ := next?_eq h
  obtain ⟨before, -, -, -, -, hposition, -⟩ := scans_before_fault hrest
  obtain ⟨c, taken, rfl⟩ := List.exists_cons_of_length_pos htakes.nonempty
  rw [hafter, ← advance_append] at hposition
  exact advance_cons_ne p c (taken ++ before) hposition.symm

/-- The first quote is the fault exactly if it is never closed. -/
theorem fault_eq_iff_unclosed (hquote : isQuote quote = true) {u : List Char}
    (h : Scans ⟨p, quote :: u⟩ ts fault) :
    fault = some p ↔ readQuoted quote (p.next quote) u = none := by
  have hdigit := isDigit_of_isQuote hquote
  have hnext := next?_quote hquote p u
  rcases hread : readQuoted quote (p.next quote) u with _ | ⟨text, after⟩
  · rw [readAt_unclosed hdigit hquote hread] at hnext
    obtain ⟨-, rfl⟩ := h.unique (.unclosed hnext)
    simp
  · rw [readAt_quoted hdigit hquote hread] at hnext
    obtain ⟨us, -, hrest⟩ := h.exists_of_next? hnext nofun
    simpa using fault_ne_of_lexeme hnext hrest

end Scanner

namespace TokenStream

open Scanner Lexeme

/--
Literals can hold every string and end at their closing quote. The literal of a string is one token
with that string as its value, and what follows it is scanned as a text of its own that starts
behind the closing quote. A quote at the start is never closed exactly if no further quote of its
kind is free of a backslash.
-/
theorem ofSource_literal {quote : Char} (hquote : isQuote quote = true) :
    (∀ s t : String,
      (ofSource (String.ofList (literal quote s.toList) ++ t)).toList =
        ⟨.start, .string s⟩ ::
          (ofSource t).toList.map (Token.move (relocate (behind (literal quote s.toList)))) ∧
      (ofSource (String.ofList (literal quote s.toList) ++ t)).fault =
        (ofSource t).fault.map (relocate (behind (literal quote s.toList)))) ∧
    ∀ u : String, (ofSource (String.singleton quote ++ u)).fault = some .start ↔
      ¬∃ before after, u.toList = before ++ quote :: after ∧ Paired before := by
  refine ⟨?_, ?_⟩
  · intro s t
    have hrest := scans_relocate t (behind (literal quote s.toList))
    rw [behind_eq_advance] at hrest ⊢
    have hscans := scans_literal hquote s.toList hrest
    rw [String.ofList_toList] at hscans
    apply ofSource_of_scans
    simpa [Cursor.ofText] using hscans
  · intro u
    have hscans := scans_ofSource (String.singleton quote ++ u)
    have htext : (String.singleton quote ++ u).toList = quote :: u.toList := by simp
    rw [htext] at hscans
    rw [fault_eq_iff_unclosed hquote hscans, ← readQuoted_ne_none_iff hquote, not_not]

/-- A string with quotes of both kinds, a backslash and a line break, and two that stay open. -/
theorem ofSource_literal_lines :
    isQuote '"' = true ∧
      (ofSource (String.ofList (literal '"' "a\"\\\n'".toList) ++ " x 'y")).toList =
        ⟨.start, .string "a\"\\\n'"⟩ ::
          (ofSource " x 'y").toList.map
            (Token.move (relocate (behind (literal '"' "a\"\\\n'".toList)))) ∧
      (ofSource (String.ofList (literal '"' "a\"\\\n'".toList) ++ " x 'y")).fault = some ⟨2, 6⟩ ∧
      ¬∃ before after, "x\\\" 'y\\".toList = before ++ '"' :: after ∧ Paired before := by
  have hquote : isQuote '"' = true := rfl
  obtain ⟨htokens, hfault⟩ := (ofSource_literal hquote).1 "a\"\\\n'" " x 'y"
  refine ⟨hquote, htokens, hfault.trans (by decide +kernel), ?_⟩
  exact ((ofSource_literal hquote).2 "x\\\" 'y\\").mp (by decide +kernel)

end TokenStream

end ChainScript
