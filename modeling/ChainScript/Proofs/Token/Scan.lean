import ChainScript.Proofs.Token.Lexeme

/-!
The tokens of a source, lexeme by lexeme. Scanning a text up to its end is the same as scanning its
lines one after the other, so the tokens of two texts on lines of their own follow each other.
-/
namespace ChainScript

variable {p here : Position} {x y : List Char}

namespace Scanner

open Lexeme

variable {cursor after : Cursor} {lexeme : Lexeme} {ts us : List Token} {fault : Option Position}
  {f : Position → Position}

theorem tokens_move (hf : here.Follows f) (lexeme : Lexeme) :
    tokens (f here) lexeme = (tokens here lexeme).map (Token.move f) := by
  cases lexeme with
  | word text => exact Word.split_move hf text
  | _ => rfl

/-- The text from the cursor on has these tokens, and then ends, or has an unclosed quote. -/
inductive Scans : Cursor → List Token → Option Position → Prop
  | done {cursor : Cursor} (h : next? cursor = none) : Scans cursor [] none
  | unclosed {cursor after : Cursor} {here : Position}
      (h : next? cursor = some (here, .unclosed, after)) : Scans cursor [] (some here)
  | lexeme {cursor after : Cursor} {here : Position} {lexeme : Lexeme} {ts : List Token}
      {fault : Option Position} (h : next? cursor = some (here, lexeme, after))
      (hlexeme : lexeme ≠ .unclosed) (hrest : Scans after ts fault) :
      Scans cursor (tokens here lexeme ++ ts) fault

theorem exists_scans (cursor : Cursor) : ∃ ts fault, Scans cursor ts fault := by
  rcases hnext : next? cursor with _ | ⟨here, lexeme, after⟩
  · exact ⟨[], none, .done hnext⟩
  · by_cases hlexeme : lexeme = .unclosed
    · subst hlexeme
      exact ⟨[], some here, .unclosed hnext⟩
    · obtain ⟨ts, fault, hrest⟩ := exists_scans after
      exact ⟨_, fault, .lexeme hnext hlexeme hrest⟩
termination_by cursor.rest.length
decreasing_by
  obtain ⟨taken, htakes, htaken, -⟩ := next?_eq hnext
  have hpos := htakes.nonempty
  rw [htaken, List.length_append]
  omega

theorem Scans.exists_of_next? (h : Scans cursor ts fault)
    (hnext : next? cursor = some (here, lexeme, after)) (hlexeme : lexeme ≠ .unclosed) :
    ∃ us, ts = tokens here lexeme ++ us ∧ Scans after us fault := by
  cases h with
  | done h => cases h.symm.trans hnext
  | unclosed h =>
    cases h.symm.trans hnext
    exact absurd rfl hlexeme
  | lexeme h _ hrest =>
    cases h.symm.trans hnext
    exact ⟨_, rfl, hrest⟩

/-- A text has its tokens and its end in one way only. -/
theorem Scans.unique {fault' : Option Position} (h : Scans cursor ts fault)
    (h' : Scans cursor us fault') : ts = us ∧ fault = fault' := by
  induction h generalizing us with
  | done h =>
    cases h' with
    | done => exact ⟨rfl, rfl⟩
    | unclosed h' => cases h.symm.trans h'
    | lexeme h' => cases h.symm.trans h'
  | unclosed h =>
    cases h' with
    | done h' => cases h.symm.trans h'
    | unclosed h' =>
      cases h.symm.trans h'
      exact ⟨rfl, rfl⟩
    | lexeme h' hlexeme =>
      cases h.symm.trans h'
      exact absurd rfl hlexeme
  | lexeme h hlexeme _ ih =>
    obtain ⟨us, rfl, hrest⟩ := h'.exists_of_next? h hlexeme
    obtain ⟨rfl, rfl⟩ := ih hrest
    exact ⟨rfl, rfl⟩

theorem scans_of_next?_eq {cursor' : Cursor} (hnext : next? cursor = next? cursor')
    (h : Scans cursor' ts fault) : Scans cursor ts fault := by
  cases h with
  | done h => exact .done (hnext.trans h)
  | unclosed h => exact .unclosed (hnext.trans h)
  | lexeme h hlexeme hrest => exact .lexeme (hnext.trans h) hlexeme hrest

/-- The tokens of a text are followed by those of the text on the next line. -/
theorem scans_line (h : Scans ⟨p, x⟩ ts none) (h' : Scans ⟨p.advance (x ++ ['\n']), y⟩ us fault) :
    Scans ⟨p, x ++ '\n' :: y⟩ (ts ++ us) fault := by
  generalize hcursor : (⟨p, x⟩ : Cursor) = cursor at h
  generalize hfault : (none : Option Position) = ended at h
  induction h generalizing p x with
  | done h =>
    subst hcursor
    exact scans_of_next?_eq (next?_of_none h y) h'
  | unclosed => cases hfault
  | @lexeme _ after here lexeme ts _ h hlexeme hrest ih =>
    subst hcursor
    obtain ⟨taken, -, rfl, hposition⟩ := next?_eq h
    rw [List.append_assoc (tokens here lexeme)]
    refine .lexeme (next?_stop rfl h hlexeme y) hlexeme (ih ?_ rfl hfault)
    rwa [hposition, ← Position.advance_append, ← List.append_assoc]

/-- A text that stands elsewhere has the same tokens, only there. -/
theorem scans_move (hf : cursor.position.Follows f) (h : Scans cursor ts fault) :
    Scans (cursor.move f) (ts.map (Token.move f)) (fault.map f) := by
  induction h with
  | done h => exact .done (by rw [next?_move hf, h]; rfl)
  | unclosed h => exact .unclosed (by rw [next?_move hf, h]; rfl)
  | lexeme h hlexeme _ ih =>
    obtain ⟨c, rest, hskip, -⟩ := next?_eq_some_iff.mp h
    obtain ⟨gap, -, rfl⟩ := skipBlank_eq hskip
    obtain ⟨taken, -, -, hafter⟩ := next?_eq h
    rw [List.map_append, ← tokens_move (hf.advance gap)]
    exact .lexeme (by rw [next?_move hf, h]; rfl) hlexeme (ih (hafter ▸ hf.advance taken))

theorem scan_lexeme {s : Scanner} (h : next? s.cursor = some (here, lexeme, after))
    (hlexeme : lexeme ≠ .unclosed) :
    s.scan = { s with
      cursor := after, reached := after.position, pending := tokens here lexeme } := by
  unfold scan
  split
  next hnone =>
    rw [hnone] at h
    cases h
  next hunclosed =>
    rw [hunclosed] at h
    cases h
    exact absurd rfl hlexeme
  next hsome =>
    rw [hsome] at h
    cases h
    rfl

/-- A scanner hands out the tokens of its text, if the limit allows it. -/
theorem collect_of_scans {s : Scanner} {limit : Nat} (h : Scans s.cursor ts fault)
    (hs : s.fault = none) (hlimit : s.pending.length + s.cursor.rest.length < limit) :
    (collect limit s).toList = s.pending ++ ts ∧ (collect limit s).fault = fault := by
  -- Each step hands out one token, and a lexeme has at most as many tokens as characters, so the
  -- limit stays above what is pending and what is left to read.
  induction limit generalizing s ts with
  | zero => omega
  | succ limit ih =>
    have htoken {t : Token} {s' : Scanner} {us : List Token} (hnext : s.next = (some t, s'))
        (hrest : (collect limit s').toList = us ∧ (collect limit s').fault = fault) :
        (collect (limit + 1) s).toList = t :: us ∧ (collect (limit + 1) s).fault = fault := by
      simpa only [collect, hnext, TokenStream.toList, TokenStream.fault, List.cons.injEq,
        true_and] using hrest
    cases hpending : s.pending with
    | cons t rest =>
      rw [hpending, List.length_cons] at hlimit
      have hnext : s.next = (some t, { s with pending := rest }) := by simp [next, hpending]
      refine htoken hnext (ih h hs ?_)
      show rest.length + s.cursor.rest.length < limit
      omega
    | nil =>
      cases h with
      | done h =>
        have hnext : s.next = (none, s) := by simp [next, hpending, hs, scan, h]
        simp [collect, hnext, hs, TokenStream.toList, TokenStream.fault]
      | @unclosed _ after here h =>
        simp [collect, next, hpending, hs, scan, h, TokenStream.toList, TokenStream.fault]
      | @lexeme _ after here lexeme ts _ h hlexeme hrest =>
        obtain ⟨taken, htakes, htaken, -⟩ := next?_eq h
        obtain ⟨t, rest, htokens⟩ := List.exists_cons_of_ne_nil (htakes.tokens hlexeme)
        have hnext : s.next = (some t,
            { s with cursor := after, reached := after.position, pending := rest }) := by
          simp [next, hpending, hs, scan_lexeme h hlexeme, htokens]
        have hfits := htakes.fits
        rw [htokens] at hfits ⊢
        rw [htaken, List.length_append] at hlimit
        refine htoken hnext (ih hrest hs ?_)
        simp only [List.length_cons] at hfits
        show rest.length + after.rest.length < limit
        omega

end Scanner

namespace TokenStream

open Scanner

theorem ofSource_of_scans {source : String} {ts : List Token} {fault : Option Position}
    (h : Scans (.ofText source.toList) ts fault) :
    (ofSource source).toList = ts ∧ (ofSource source).fault = fault :=
  collect_of_scans (s := .ofSource source) h rfl (by simp [Scanner.ofSource, Cursor.ofText])

theorem scans_ofSource (source : String) :
    Scans (.ofText source.toList) (ofSource source).toList (ofSource source).fault := by
  obtain ⟨ts, fault, h⟩ := exists_scans (.ofText source.toList)
  obtain ⟨htokens, hfault⟩ := ofSource_of_scans h
  rwa [htokens, hfault]

/-- A text on lines of its own has the same tokens as anywhere else, only further down. -/
theorem ofSource_line {a : String} (h : (ofSource a).fault = none) (b : String) :
    (ofSource (a ++ "\n" ++ b)).toList = (ofSource a).toList ++
      (ofSource b).toList.map (Token.down (Position.start.advance a.toList).line) ∧
    (ofSource (a ++ "\n" ++ b)).fault =
      (ofSource b).fault.map (Position.down (Position.start.advance a.toList).line) := by
  apply ofSource_of_scans
  have ha := scans_ofSource a
  rw [h] at ha
  have hb := scans_move (Position.follows_down (Position.start.advance a.toList).line _)
    (scans_ofSource b)
  have htext : (a ++ "\n" ++ b).toList = a.toList ++ '\n' :: b.toList := by simp
  rw [htext]
  refine scans_line ha ?_
  rw [Position.advance_line]
  exact hb

end TokenStream

end ChainScript
