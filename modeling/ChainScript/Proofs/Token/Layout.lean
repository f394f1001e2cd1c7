import Mathlib.Data.List.Induction
import ChainScript.Proofs.Token.Scan

/-!
Where tokens stand. Whatever is asked of a scanner, the tokens and faults that it has handed out are
laid out in the source one behind the other, with nothing but blanks and comments between them, and
each has the position of its first character.
-/
namespace ChainScript

namespace Position

/-- The position behind a text: its line breaks are counted, and then what follows the last one. -/
def behind (text : List Char) : Position :=
  ⟨1 + text.count '\n', 1 + (text.reverse.takeWhile (· ≠ '\n')).length⟩

/-- Earlier in the source. -/
def Before (p q : Position) : Prop := p.line < q.line ∨ p.line = q.line ∧ p.column < q.column

theorem behind_append_singleton (text : List Char) (c : Char) :
    behind (text ++ [c]) = (behind text).next c := by
  unfold next behind
  split
  next hc => simp [hc, List.count_append, Nat.add_assoc]
  next hc => simp [hc, List.count_append, Nat.add_assoc]

theorem behind_append (text more : List Char) :
    behind (text ++ more) = (behind text).advance more := by
  induction more using List.reverseRecOn with
  | nil => rw [List.append_nil]; rfl
  | append_singleton more c ih =>
    rw [← List.append_assoc, behind_append_singleton, ih, advance_append]
    rfl

theorem before_next (p : Position) (c : Char) : p.Before (p.next c) := by
  unfold next Before
  split
  · exact .inl (Nat.lt_succ_self _)
  · exact .inr ⟨rfl, Nat.lt_succ_self _⟩

theorem Before.trans {p q r : Position} (h : p.Before q) (h' : q.Before r) : p.Before r := by
  unfold Before at *
  omega

theorem before_advance (p : Position) (c : Char) (text : List Char) :
    p.Before (p.advance (c :: text)) := by
  induction text generalizing p c with
  | nil => exact before_next p c
  | cons d text ih => exact (before_next p c).trans (ih (p.next c) d)

end Position

/-- What a scanner hands out: a token, or the place of a quote that is never closed. -/
inductive Event where
  | token (token : Token)
  | fault (quote : Position)

namespace Event

def position : Event → Position
  | token t => t.position
  | fault quote => quote

end Event

open Position Lexeme

/-- The text is all that stands for the event in the source. -/
inductive Spells : List Char → Event → Prop
  | numeral {c : Char} {text : List Char} (p : Position) (h : c.isDigit = true) :
      Spells (c :: text) (.token ⟨p, .number ((Number.read? (c :: text)).getD (0 / 0))⟩)
  | quoted {quote : Char} {text meant : List Char} {inside after : Position} (p : Position)
      (hquote : isQuote quote = true)
      (h : readQuoted quote inside text = some (meant, ⟨after, []⟩)) :
      Spells (quote :: text) (.token ⟨p, .string (String.ofList meant)⟩)
  | symbol (p : Position) (k : Keyword) :
      Spells k.text.toList (.token ⟨p, .keyword k⟩)
  | piece {text : List Char} (p : Position) (h : text ≠ []) :
      Spells text (.token ⟨p, Word.classify text⟩)
  | unclosed {quote : Char} (p : Position) (h : isQuote quote = true) :
      Spells [quote] (.fault p)

/--
The text is blanks and comments. The flags say whether it starts and whether it ends inside of a
comment.
-/
inductive Blanks : Bool → List Char → Bool → Prop
  | nil (comment : Bool) : Blanks comment [] comment
  | blank {c : Char} {rest : List Char} {ended : Bool} (hc : isBlank c = true)
      (h : Blanks false rest ended) : Blanks false (c :: rest) ended
  | mark {rest : List Char} {ended : Bool} (h : Blanks true rest ended) :
      Blanks false ('#' :: rest) ended
  | inside {c : Char} {rest : List Char} {ended : Bool} (hc : c ≠ '\n')
      (h : Blanks true rest ended) : Blanks true (c :: rest) ended
  | lineBreak {rest : List Char} {ended : Bool} (h : Blanks false rest ended) :
      Blanks true ('\n' :: rest) ended

/--
The events are laid out over the text that follows `before`. Each has the position of its first
character, and the text ends where the last event does.
-/
inductive Layout : List Char → List Char → List Event → Prop
  | nil (before : List Char) : Layout before [] []
  | cons {before gap text rest : List Char} {e : Event} {es : List Event}
      (hgap : Blanks false gap false) (hspells : Spells text e)
      (hposition : e.position = behind (before ++ gap))
      (h : Layout (before ++ gap ++ text) rest es) : Layout before (gap ++ text ++ rest) (e :: es)

variable {before gap text rest x y z : List Char} {here q : Position} {e : Event}
  {es fs : List Event}

theorem Blanks.append {a b c : Bool} (h : Blanks a x b) (h' : Blanks b y c) :
    Blanks a (x ++ y) c := by
  induction h with
  | nil => exact h'
  | blank hc _ ih => exact .blank hc (ih h')
  | mark _ ih => exact .mark (ih h')
  | inside hc _ ih => exact .inside hc (ih h')
  | lineBreak _ ih => exact .lineBreak (ih h')

theorem Spells.ne_nil (h : Spells text e) : text ≠ [] := by
  cases h with
  | symbol p k => cases k <;> simp [Keyword.text]
  | piece p hne => exact hne
  | _ => simp

namespace Layout

theorem ne_nil (h : Layout before text es) (hne : text ≠ []) : es ≠ [] := by
  rintro rfl
  cases h
  exact hne rfl

/-- An event right behind the text before it. -/
theorem single (hspells : Spells text e) (hposition : e.position = behind before) :
    Layout before text [e] := by
  have hone : Layout before ([] ++ text ++ []) [e] :=
    .cons (.nil false) hspells (by simpa using hposition) (.nil _)
  simpa using hone

theorem append (h : Layout before x es) (h' : Layout (before ++ x) y fs) :
    Layout before (x ++ y) (es ++ fs) := by
  induction h with
  | nil => simpa using h'
  | @cons before gap text rest e es hgap hspells hposition _ ih =>
    have hboth : Layout before (gap ++ text ++ (rest ++ y)) (e :: (es ++ fs)) :=
      .cons hgap hspells hposition (ih (by simpa using h'))
    simpa using hboth

/-- A gap may come before the first event. -/
theorem gap_append (hgap : Blanks false gap false) (h : Layout (before ++ gap) x (e :: es)) :
    Layout before (gap ++ x) (e :: es) := by
  cases h with
  | @cons _ gap' text rest _ _ hgap' hspells hposition h =>
    have hboth : Layout before (gap ++ gap' ++ text ++ rest) (e :: es) :=
      .cons (hgap.append hgap') hspells (by simpa using hposition) (by simpa using h)
    simpa using hboth

/-- The first events have the first part of the text. -/
theorem exists_of_append (h : Layout before text (es ++ fs)) :
    ∃ x y, text = x ++ y ∧ Layout before x es ∧ Layout (before ++ x) y fs := by
  induction es generalizing before text with
  | nil => exact ⟨[], text, rfl, .nil before, by simpa using h⟩
  | cons e es ih =>
    cases h with
    | @cons _ gap text rest _ _ hgap hspells hposition h =>
      obtain ⟨x, y, rfl, hx, hy⟩ := ih h
      exact ⟨gap ++ text ++ x, y, by simp, .cons hgap hspells hposition hx, by simpa using hy⟩

theorem exists_position (h : Layout before text es) (he : e ∈ es) :
    ∃ more, e.position = behind (before ++ more) := by
  induction h with
  | nil => cases he
  | @cons before gap text rest e' es _ _ hposition _ ih =>
    rcases List.mem_cons.mp he with rfl | he
    · exact ⟨gap, hposition⟩
    · obtain ⟨more, hmore⟩ := ih he
      exact ⟨gap ++ text ++ more, by simpa using hmore⟩

/-- Each event stands before all that follow it. -/
theorem pairwise (h : Layout before text es) : (es.map Event.position).Pairwise Before := by
  induction h with
  | nil => exact .nil
  | @cons before gap text rest e es _ hspells hposition h ih =>
    rw [List.map_cons]
    refine .cons ?_ ih
    intro q hq
    obtain ⟨e', he', rfl⟩ := List.mem_map.mp hq
    obtain ⟨more, hmore⟩ := h.exists_position he'
    obtain ⟨c, cs, rfl⟩ := List.exists_cons_of_ne_nil hspells.ne_nil
    rw [hposition, hmore, List.append_assoc, behind_append (before ++ gap)]
    exact before_advance _ c (cs ++ more)

end Layout

namespace Word

/-- The characters of the piece that is still open. -/
def Piece.openText (piece : Option Piece) : List Char := piece.toList.flatMap Piece.text

theorem Piece.openText_extend (piece : Option Piece) (here : Position) (c : Char) :
    openText (some (extend piece here c)) = openText piece ++ [c] := by
  cases piece <;> simp [openText, extend, text]

/-- The open piece began where its text does. -/
def Piece.StartsAt (base : List Char) (piece : Option Piece) : Prop :=
  ∀ p ∈ piece, p.start = behind base ∧ p.text ≠ []

theorem Piece.startsAt_none (base : List Char) : StartsAt base none := by
  intro p hp
  cases hp

theorem Piece.startsAt_extend {base : List Char} {piece : Option Piece} {here : Position}
    (h : StartsAt base piece) (hhere : here = behind (base ++ openText piece)) (c : Char) :
    StartsAt base (some (extend piece here c)) := by
  intro p hp
  obtain rfl := Option.mem_some_iff.mp hp
  cases piece with
  | none => exact ⟨by simpa [openText, extend] using hhere, by simp [extend, text]⟩
  | some piece => exact ⟨(h piece rfl).1, by simp [extend, text]⟩

theorem Piece.layout_close {base : List Char} {piece : Option Piece} (h : StartsAt base piece) :
    Layout base (openText piece) ((close piece).map .token) := by
  cases piece with
  | none => exact .nil base
  | some piece =>
    obtain ⟨hstart, hne⟩ := h piece rfl
    have hpiece : Layout base piece.text [.token piece.token] :=
      .single (.piece piece.start hne) hstart
    simpa [openText, close] using hpiece

/-- A symbol is cut out with all its characters. -/
theorem symbol?_eq_some {c : Char} {k : Keyword} (h : symbol? (c :: x) = some k) :
    ∃ more after, k.text.toList = c :: more ∧ x = more ++ after := by
  have hfound := List.find?_some h
  simp only [Bool.and_eq_true] at hfound
  obtain ⟨after, hafter⟩ := List.isPrefixOf_iff_prefix.mp hfound.1
  obtain ⟨d, more, hmore⟩ := List.exists_cons_of_ne_nil (Spells.symbol .start k).ne_nil
  rw [hmore, List.cons_append, List.cons.injEq] at hafter
  obtain ⟨rfl, rfl⟩ := hafter
  exact ⟨more, after, hmore, rfl⟩

/-- The tokens of a word take up all of it. -/
theorem layout_splitFrom {here : Position} {skip : Nat} {piece : Option Piece} {base : List Char}
    (hhere : here = behind (base ++ Piece.openText piece)) (hpiece : Piece.StartsAt base piece)
    (hskip : skip ≤ x.length) (hnone : skip ≠ 0 → piece = none) :
    Layout (base ++ x.take skip) (Piece.openText piece ++ x.drop skip)
      ((splitFrom here skip piece x).map .token) := by
  fun_induction splitFrom here skip piece x generalizing base with
  | case1 here skip piece =>
    simpa using Piece.layout_close hpiece
  | case2 here piece c rest skip ih =>
    obtain rfl := hnone (Nat.succ_ne_zero skip)
    have hnext : here.next c = behind (base ++ [c] ++ Piece.openText none) := by
      rw [hhere]
      simp [Piece.openText, behind_append_singleton]
    have hrest := ih hnext (Piece.startsAt_none _) (by simpa using hskip) fun _ => rfl
    simpa using hrest
  | case3 here piece c rest hfraction ih =>
    have hnext : here.next c =
        behind (base ++ Piece.openText (some (Piece.extend piece here c))) := by
      rw [hhere, Piece.openText_extend, ← List.append_assoc, behind_append_singleton]
    have hrest := ih hnext (Piece.startsAt_extend hpiece hhere c) (Nat.zero_le _) (by simp)
    simpa [Piece.openText_extend] using hrest
  | case4 here piece c rest hfraction hsymbol ih =>
    have hnext : here.next c =
        behind (base ++ Piece.openText (some (Piece.extend piece here c))) := by
      rw [hhere, Piece.openText_extend, ← List.append_assoc, behind_append_singleton]
    have hrest := ih hnext (Piece.startsAt_extend hpiece hhere c) (Nat.zero_le _) (by simp)
    simpa [Piece.openText_extend] using hrest
  | case5 here piece c rest hfraction k hsymbol ih =>
    obtain ⟨more, after, hmore, rfl⟩ := symbol?_eq_some hsymbol
    have hlength : k.text.length - 1 = more.length := by
      rw [← String.length_toList, hmore, List.length_cons, Nat.add_sub_cancel]
    rw [hlength] at ih ⊢
    have hnext : here.next c =
        behind (base ++ Piece.openText piece ++ [c] ++ Piece.openText none) := by
      rw [hhere, ← behind_append_singleton]
      simp [Piece.openText]
    have hrest := ih hnext (Piece.startsAt_none _) (by simp) fun _ => rfl
    have hsymbol :
        Layout (base ++ Piece.openText piece) k.text.toList [.token ⟨here, .keyword k⟩] :=
      .single (.symbol here k) hhere
    have hall := ((Piece.layout_close hpiece).append hsymbol).append
      (by simpa [hmore, Piece.openText] using hrest)
    simpa [hmore] using hall

theorem layout_split (h : here = behind before) :
    Layout before x ((split here x).map .token) := by
  have hhere : here = behind (before ++ Piece.openText none) := by simpa [Piece.openText] using h
  have hword := layout_splitFrom hhere (Piece.startsAt_none before) (Nat.zero_le x.length)
    fun _ => rfl
  simpa [Piece.openText, split] using hword

end Word

namespace Lexeme

/-- Blanks and comments are skipped, and a comment is not left before its line ends. -/
theorem blanks_of_skipBlank {comment : Bool} (h : skipBlank comment here x = ⟨q, z⟩) :
    ∃ skipped ended, x = skipped ++ z ∧ q = here.advance skipped ∧ Blanks comment skipped ended ∧
      (z ≠ [] → ended = false) := by
  induction x generalizing comment here with
  | nil =>
    cases h
    exact ⟨[], comment, rfl, rfl, .nil comment, fun hne => absurd rfl hne⟩
  | cons c rest ih =>
    cases comment with
    | true =>
      rw [skipBlank, if_pos rfl] at h
      obtain ⟨skipped, ended, rfl, hq, hblanks, hended⟩ := ih h
      refine ⟨c :: skipped, ended, rfl, hq, ?_, hended⟩
      by_cases hc : c = '\n'
      · subst hc
        exact .lineBreak (by simpa using hblanks)
      · exact .inside hc (by simpa [hc] using hblanks)
    | false =>
      rw [skipBlank, if_neg Bool.false_ne_true] at h
      split at h
      next hc =>
        obtain ⟨skipped, ended, rfl, hq, hblanks, hended⟩ := ih h
        exact ⟨c :: skipped, ended, rfl, hq, .blank hc hblanks, hended⟩
      next =>
        split at h
        next hc =>
          subst hc
          obtain ⟨skipped, ended, rfl, hq, hblanks, hended⟩ := ih h
          exact ⟨'#' :: skipped, ended, rfl, hq, .mark hblanks, hended⟩
        next =>
          cases h
          exact ⟨[], false, rfl, rfl, .nil false, fun _ => rfl⟩

/-- A closed quote is read the same without what comes behind it. -/
theorem readQuoted_taken {quote : Char} {meant : List Char}
    (h : readQuoted quote here x = some (meant, ⟨q, z⟩)) :
    ∃ taken, x = taken ++ z ∧ q = here.advance taken ∧
      readQuoted quote here taken = some (meant, ⟨q, []⟩) := by
  fun_induction readQuoted quote here x generalizing meant with
  | case1 => cases h
  | case2 => cases h
  | case3 here c rest ih =>
    obtain ⟨⟨more, after⟩, hread, heq⟩ := Option.map_eq_some_iff.mp h
    cases heq
    obtain ⟨taken, rfl, hq, htaken⟩ := ih hread
    exact ⟨'\\' :: c :: taken, rfl, hq, by simp [readQuoted, htaken]⟩
  | case4 here rest hne =>
    cases h
    exact ⟨[quote], rfl, rfl, by simp [readQuoted]⟩
  | case5 here c rest hescape hquote ih =>
    obtain ⟨⟨more, after⟩, hread, heq⟩ := Option.map_eq_some_iff.mp h
    cases heq
    obtain ⟨taken, rfl, hq, htaken⟩ := ih hread
    exact ⟨c :: taken, rfl, hq, by simp [readQuoted, hquote, htaken]⟩

/-- What a scanner makes of a lexeme. -/
def events (here : Position) : Lexeme → List Event
  | unclosed => [.fault here]
  | lexeme => (Scanner.tokens here lexeme).map .token

theorem events_eq_tokens {lexeme : Lexeme} (h : lexeme ≠ unclosed) (here : Position) :
    events here lexeme = (Scanner.tokens here lexeme).map .token := by
  cases lexeme with
  | unclosed => exact absurd rfl h
  | _ => rfl

theorem layout_readAt {c : Char} {lexeme : Lexeme} (hhere : here = behind before)
    (h : readAt c x here = (lexeme, ⟨q, z⟩)) :
    ∃ taken, c :: x = taken ++ z ∧ q = here.advance taken ∧ taken ≠ [] ∧
      Layout before taken (events here lexeme) := by
  cases reads_of_readAt h with
  | numeral hdigit =>
    have hcut := cuts_numeral.append (c :: x)
    obtain ⟨d, text, htext⟩ := List.exists_cons_of_ne_nil (numeral_ne_nil hdigit x)
    rw [htext] at hcut ⊢
    obtain ⟨rfl, -⟩ := List.cons.inj hcut
    exact ⟨_, hcut.symm, rfl, by simp, .single (.numeral here hdigit) hhere⟩
  | quoted hdigit hquote hread =>
    obtain ⟨taken, rfl, rfl, htaken⟩ := readQuoted_taken hread
    exact ⟨c :: taken, rfl, rfl, by simp, .single (.quoted here hquote htaken) hhere⟩
  | unclosed hdigit hquote =>
    exact ⟨[c], rfl, rfl, by simp, .single (.unclosed here hquote) hhere⟩
  | word =>
    exact ⟨_, congrArg _ (cuts_word.append x).symm, rfl, by simp, Word.layout_split hhere⟩

/-- The events of a lexeme take up the text between the cursors before and after it. -/
theorem layout_next? {p : Position} {lexeme : Lexeme} (hp : p = behind before)
    (h : next? ⟨p, x⟩ = some (here, lexeme, ⟨q, z⟩)) :
    ∃ taken, x = taken ++ z ∧ q = behind (before ++ taken) ∧
      Layout before taken (events here lexeme) := by
  obtain ⟨c, rest, hskip, hread⟩ := next?_eq_some_iff.mp h
  obtain ⟨gap, ended, rfl, rfl, hgap, hended⟩ := blanks_of_skipBlank hskip
  obtain rfl := hended (List.cons_ne_nil c rest)
  rw [hp, ← behind_append] at hread ⊢
  obtain ⟨taken, htaken, hq, hne, hlayout⟩ := layout_readAt rfl hread
  refine ⟨gap ++ taken, by rw [htaken, List.append_assoc], ?_, ?_⟩
  · rw [hq, ← behind_append, List.append_assoc]
  · obtain ⟨e, es, hevents⟩ := List.exists_cons_of_ne_nil (hlayout.ne_nil hne)
    rw [hevents] at hlayout ⊢
    exact hlayout.gap_append hgap

theorem blanks_of_next?_none {p : Position} (h : next? ⟨p, x⟩ = none) :
    ∃ ended, Blanks false x ended := by
  obtain ⟨q, hskip⟩ := next?_eq_none_iff.mp h
  obtain ⟨skipped, ended, rfl, -, hblanks, -⟩ := blanks_of_skipBlank hskip
  exact ⟨ended, by simpa using hblanks⟩

end Lexeme

namespace Scanner

/-- What can be asked of a scanner. -/
inductive Operation where
  | next
  | takeFault
  deriving Repr, DecidableEq

def perform : Operation → Scanner → Option Event × Scanner
  | .next, s => (s.next.1.map .token, s.next.2)
  | .takeFault, s => (s.takeFault.1.map .fault, s.takeFault.2)

/-- All that a scanner hands out while the operations are performed. -/
def run : List Operation → Scanner → List Event × Scanner
  | [], s => ([], s)
  | op :: ops, s =>
    let (e, s) := perform op s
    let (es, s) := run ops s
    (e.toList ++ es, s)

/-- What the scanner has read already and not handed out yet. -/
def waiting (s : Scanner) : List Event := s.pending.map .token ++ s.fault.toList.map .fault

/--
A scanner that has handed out `es` has read the source up to its cursor. What it has read is laid
out as what was handed out and what is waiting.
-/
structure HasRead (source : List Char) (es : List Event) (s : Scanner) (read : List Char) :
    Prop where
  source : source = read ++ s.cursor.rest
  cursor : s.cursor.position = behind read
  layout : Layout [] read (es ++ s.waiting)
  faulty : s.fault ≠ none → s.pending = []
  reached : s.fault = none → (∀ p, .fault p ∉ es) → s.reached = behind read

variable {source read : List Char} {s : Scanner}

theorem hasRead_ofSource (source : String) : HasRead source.toList [] (ofSource source) [] :=
  ⟨rfl, rfl, .nil [], fun _ => rfl, fun _ _ => rfl⟩

/-- Reading one lexeme. -/
theorem hasRead_scan (h : HasRead source es s read) (hpending : s.pending = [])
    (hfault : s.fault = none) : ∃ read, HasRead source es s.scan read := by
  have hlayout : Layout [] read es := by
    simpa [waiting, hpending, hfault] using h.layout
  rcases hnext : next? s.cursor with _ | ⟨here, lexeme, ⟨q, z⟩⟩
  · have hscan : s.scan = s := by simp [scan, hnext]
    rw [hscan]
    exact ⟨read, h⟩
  · obtain ⟨taken, htaken, hq, hevents⟩ := layout_next? h.cursor hnext
    refine ⟨read ++ taken, ?_⟩
    have hsource : source = read ++ taken ++ z := by rw [h.source, htaken, List.append_assoc]
    by_cases hlexeme : lexeme = .unclosed
    · subst hlexeme
      have hscan : s.scan =
          { s with cursor := ⟨q, z⟩, reached := here, fault := some here } := by
        simp [scan, hnext]
      rw [hscan]
      refine ⟨hsource, hq, ?_, fun _ => hpending, fun hnone => ?_⟩
      · simpa [waiting, hpending, events] using hlayout.append hevents
      · cases hnone
    · rw [scan_lexeme hnext hlexeme]
      refine ⟨hsource, hq, ?_, fun hne => absurd hfault hne, fun _ _ => hq⟩
      simpa [waiting, hfault, events_eq_tokens hlexeme] using hlayout.append hevents

/-- The scanner that is about to hand out a token: one that has nothing waiting reads on. -/
def filled (s : Scanner) : Scanner := if s.pending.isEmpty && s.fault.isNone then s.scan else s

theorem next_eq (s : Scanner) :
    s.next = (s.filled.pending.head?, { s.filled with pending := s.filled.pending.tail }) := by
  unfold next filled
  generalize (if s.pending.isEmpty && s.fault.isNone then s.scan else s) = t
  obtain ⟨source, cursor, _ | ⟨t, rest⟩, reached, fault⟩ := t <;> rfl

theorem hasRead_filled (h : HasRead source es s read) :
    ∃ read, HasRead source es s.filled read := by
  unfold filled
  split
  next hempty =>
    simp only [Bool.and_eq_true, List.isEmpty_iff, Option.isNone_iff_eq_none] at hempty
    exact hasRead_scan h hempty.1 hempty.2
  next => exact ⟨read, h⟩

/-- Handing out a token that is waiting. -/
theorem hasRead_tail (h : HasRead source es s read) :
    HasRead source (es ++ (s.pending.head?.map Event.token).toList)
      { s with pending := s.pending.tail } read := by
  cases hpending : s.pending with
  | nil =>
    refine ⟨h.source, h.cursor, ?_, fun _ => rfl, ?_⟩
    · simpa [waiting, hpending] using h.layout
    · simpa using h.reached
  | cons t rest =>
    have hfault : s.fault = none := by
      by_contra hne
      rw [h.faulty hne] at hpending
      cases hpending
    refine ⟨h.source, h.cursor, ?_, fun hne => absurd hfault hne, ?_⟩
    · simpa [waiting, hpending] using h.layout
    · simpa using h.reached

/-- Handing out a fault. -/
theorem hasRead_takeFault (h : HasRead source es s read) :
    HasRead source (es ++ (s.takeFault.1.map Event.fault).toList) s.takeFault.2 read := by
  unfold takeFault
  cases hfault : s.fault with
  | none =>
    refine ⟨h.source, h.cursor, ?_, fun hne => absurd rfl hne, ?_⟩
    · simpa [waiting, hfault] using h.layout
    · simpa using h.reached hfault
  | some quote =>
    have hpending : s.pending = [] := h.faulty (by simp [hfault])
    refine ⟨h.source, h.cursor, ?_, fun hne => absurd rfl hne, ?_⟩
    · simpa [waiting, hfault, hpending] using h.layout
    · intro _ hnone
      exact absurd (by simp) (hnone quote)

theorem hasRead_perform (op : Operation) (h : HasRead source es s read) :
    ∃ read, HasRead source (es ++ (perform op s).1.toList) (perform op s).2 read := by
  cases op with
  | next =>
    obtain ⟨read, hfilled⟩ := hasRead_filled h
    rw [perform, next_eq]
    exact ⟨read, hasRead_tail hfilled⟩
  | takeFault => exact ⟨read, hasRead_takeFault h⟩

theorem hasRead_run (ops : List Operation) (h : HasRead source es s read) :
    ∃ read, HasRead source (es ++ (run ops s).1) (run ops s).2 read := by
  induction ops generalizing es s read with
  | nil => exact ⟨read, by simpa [run] using h⟩
  | cons op ops ih =>
    obtain ⟨read, hstep⟩ := hasRead_perform op h
    obtain ⟨read, hrest⟩ := ih hstep
    exact ⟨read, by simpa [run] using hrest⟩

/-- A scanner that has read on and has nothing to hand out is at the end of the source. -/
theorem next?_of_filled (hpending : s.filled.pending = []) (hfault : s.filled.fault = none) :
    next? s.filled.cursor = none := by
  by_cases hempty : (s.pending.isEmpty && s.fault.isNone) = true
  · have hfilled : s.filled = s.scan := if_pos hempty
    rw [hfilled] at hpending hfault ⊢
    rcases hnext : next? s.cursor with _ | ⟨here, lexeme, after⟩
    · have hscan : s.scan = s := by simp [scan, hnext]
      rw [hscan, hnext]
    · by_cases hlexeme : lexeme = .unclosed
      · subst hlexeme
        simp [scan, hnext] at hfault
      · obtain ⟨taken, htakes, -, -⟩ := next?_eq hnext
        rw [scan_lexeme hnext hlexeme] at hpending
        exact absurd hpending (htakes.tokens hlexeme)
  · have hfilled : s.filled = s := if_neg hempty
    rw [hfilled] at hpending hfault
    simp [hpending, hfault] at hempty

/--
Positions are exact, whatever is asked of a scanner in whatever order. All that it hands out is
laid out over a first part of the source, where each token and each unclosed quote has the line and
column of its first character, and they come in the order of their positions. Once the source is at
its end without a fault, the position reached is the one just behind the last token.
-/
theorem run_positions_exact (source : String) (ops : List Operation) :
    ∃ text rest, source.toList = text ++ rest ∧
      Layout [] text (run ops (ofSource source)).1 ∧
      ((run ops (ofSource source)).1.map Event.position).Pairwise Before ∧
      ∀ s, (run ops (ofSource source)).2.next = (none, s) → s.fault = none →
        (∀ quote, .fault quote ∉ (run ops (ofSource source)).1) →
        (∃ ended, Blanks false rest ended) ∧ s.reached = behind text := by
  obtain ⟨_, hrun⟩ := hasRead_run ops (hasRead_ofSource source)
  rw [List.nil_append] at hrun
  obtain ⟨read, hread⟩ := hasRead_filled hrun
  obtain ⟨text, ahead, rfl, htext, hahead⟩ := hread.layout.exists_of_append
  refine ⟨text, _, hread.source.trans (List.append_assoc _ _ _), htext, htext.pairwise, ?_⟩
  intro s hnext hfault hnone
  rw [next_eq, Prod.mk.injEq, List.head?_eq_none_iff] at hnext
  obtain ⟨hpending, rfl⟩ := hnext
  have hwaiting : (run ops (ofSource source)).2.filled.waiting = [] := by
    simp only [waiting, hpending]
    simpa using hfault
  rw [hwaiting] at hahead
  cases hahead
  refine ⟨blanks_of_next?_none (next?_of_filled hpending hfault), ?_⟩
  rw [List.append_nil] at hread
  exact hread.reached hfault hnone

namespace Lines

/-- A string over two lines, letters of several bytes, and a comment at the end. -/
def closed : String := "é 'a\nü' (@f;\n  # ö"

/-- The same with a quote that is never closed in front of the last word. -/
def broken : String := "é 'a\nü' \"(@f;"

def isToken : Event → Bool
  | .token _ => true
  | .fault _ => false

theorem not_mem_of_all_isToken {es : List Event} (h : es.all isToken = true) (quote : Position) :
    .fault quote ∉ es := by
  intro hmem
  exact Bool.false_ne_true (List.all_eq_true.mp h _ hmem)

def reads (count : Nat) : List Operation := List.replicate count .next

theorem run_positions_exact_lines :
    (∃ text rest s, closed.toList = text ++ rest ∧
      Layout [] text (run (reads 5) (ofSource closed)).1 ∧
      (run (reads 5) (ofSource closed)).2.next = (none, s) ∧ s.reached = behind text ∧
      s.reached = ⟨2, 8⟩) ∧
    (run (reads 3 ++ [.takeFault] ++ reads 3) (ofSource broken)).1.map Event.position =
      [⟨1, 1⟩, ⟨1, 3⟩, ⟨2, 4⟩, ⟨2, 5⟩, ⟨2, 7⟩, ⟨2, 8⟩] ∧
    ∃ text rest, broken.toList = text ++ rest ∧
      Layout [] text (run (reads 3 ++ [.takeFault] ++ reads 3) (ofSource broken)).1 := by
  refine ⟨?_, by decide +kernel, ?_⟩
  · obtain ⟨text, rest, htext, hlayout, -, hend⟩ := run_positions_exact closed (reads 5)
    have hnone : (run (reads 5) (ofSource closed)).2.next.1.isNone = true := by decide +kernel
    have hfault : (run (reads 5) (ofSource closed)).2.next.2.fault = none := by decide +kernel
    have htokens : (run (reads 5) (ofSource closed)).1.all isToken = true := by decide +kernel
    have hnext : (run (reads 5) (ofSource closed)).2.next = (none, _) :=
      Prod.ext (Option.isNone_iff_eq_none.mp hnone) rfl
    refine ⟨text, rest, _, htext, hlayout, hnext, ?_, by decide +kernel⟩
    exact (hend _ hnext hfault (not_mem_of_all_isToken htokens)).2
  · obtain ⟨text, rest, htext, hlayout, -⟩ :=
      run_positions_exact broken (reads 3 ++ [.takeFault] ++ reads 3)
    exact ⟨text, rest, htext, hlayout⟩

end Lines

end Scanner

end ChainScript
