import ChainScript.Token.Lexeme
import ChainScript.Token.Word

/-!
Scanning. A scanner hands out the tokens of a source one at a time and stops at the end or at an
unclosed quote; once the fault is taken away, it goes on behind that quote.
-/
namespace ChainScript

/--
A scanner: the text it has still to read, the tokens of the last word not yet handed out, the
position just past the last lexeme, and the unclosed quote that stopped it.
-/
structure Scanner where
  source : String
  cursor : Cursor
  pending : List Token
  reached : Position
  fault : Option Position

/-- All tokens of a source in order, and how it ends: properly, or at an unclosed quote. -/
inductive TokenStream where
  | token (token : Token) (rest : TokenStream)
  | finished (reached : Position)
  | unclosed (quote : Position)

namespace Scanner

def ofSource (source : String) : Scanner :=
  ⟨source, .ofText source.toList, [], .start, none⟩

def restart (s : Scanner) : Scanner := ofSource s.source

/-- The tokens of a lexeme at the given position. -/
def tokens (here : Position) : Lexeme → List Token
  | .numeral text => [⟨here, .number ((Number.read? text).getD (0 / 0))⟩]
  | .quoted text => [⟨here, .string (String.ofList text)⟩]
  | .word text => Word.split here text
  | .unclosed => []

/-- Reads one lexeme. At the end of the source nothing changes. -/
def scan (s : Scanner) : Scanner :=
  match Lexeme.next? s.cursor with
  | none => s
  | some (here, .unclosed, after) =>
    { s with cursor := after, reached := here, fault := some here }
  | some (here, lexeme, after) =>
    { s with cursor := after, reached := after.position, pending := tokens here lexeme }

/-- Hands out the next token. -/
def next (s : Scanner) : Option Token × Scanner :=
  let s := if s.pending.isEmpty && s.fault.isNone then s.scan else s
  match s.pending with
  | [] => (none, s)
  | t :: rest => (some t, { s with pending := rest })

/-- Removes the fault. -/
def takeFault (s : Scanner) : Option Position × Scanner :=
  (s.fault, { s with fault := none })

/-- Collects at most `limit` tokens. -/
def collect : Nat → Scanner → TokenStream
  | 0, s => .finished s.reached
  | limit + 1, s =>
    match s.next with
    | (some t, s) => .token t (collect limit s)
    | (none, s) =>
      match s.fault with
      | some quote => .unclosed quote
      | none => .finished s.reached

end Scanner

namespace TokenStream

/-- The tokens of a source. Each of them takes at least one character. -/
def ofSource (source : String) : TokenStream :=
  Scanner.collect (source.toList.length + 1) (.ofSource source)

def toList : TokenStream → List Token
  | token t rest => t :: rest.toList
  | finished _ => []
  | unclosed _ => []

/-- The position just past the last lexeme read. -/
def reached : TokenStream → Position
  | token _ rest => rest.reached
  | finished p => p
  | unclosed p => p

/-- The quote that is never closed, if that is how the source ends. -/
def fault : TokenStream → Option Position
  | token _ rest => rest.fault
  | finished _ => none
  | unclosed p => some p

end TokenStream

end ChainScript
