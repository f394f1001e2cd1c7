import ChainScript.Grammar.Table
import ChainScript.Token.Scanner
import ChainScript.Tree

/-!
Parsing. The table decides each expansion from one token of lookahead, so a source has at most one
parse, and the first token that cannot go on is the one an error points at.
-/
namespace ChainScript

open Grammar

inductive ParseError where
  | unclosedString (quote : Position)
  | unexpectedToken (expected : Terminal) (found : Token)
  | noRule (expanding : Nonterminal) (found : Token)
  | unexpectedEnd (expected : Symbol) (reached : Position)
  | expectedEnd (found : Token)

namespace ParseError

/-- Where the fault lies. -/
def position : ParseError → Position
  | unclosedString quote => quote
  | unexpectedToken _ found => found.position
  | noRule _ found => found.position
  | unexpectedEnd _ reached => reached
  | expectedEnd found => found.position

/-- What is wrong, without the position. -/
def reason : ParseError → String
  | unclosedString _ => "unterminated string"
  | unexpectedToken expected found => "expected " ++ expected.text ++ ", but found " ++ found.text
  | noRule expanding found => "no rule for (" ++ found.text ++ ", <" ++ expanding.name ++ ">)"
  | unexpectedEnd expected _ => "expected " ++ expected.text ++ ", but found EOF"
  | expectedEnd found => "expected end of input, but found " ++ found.text

def message (e : ParseError) : String :=
  toString e.position.line ++ ":" ++ toString e.position.column ++ ": " ++ e.reason

end ParseError

namespace Grammar.Lookahead

/-- What stands at the head of a stream that goes on or ends properly. -/
def ofStream : TokenStream → Lookahead
  | .token t _ => term (.ofToken t)
  | _ => eof

end Grammar.Lookahead

namespace Tree

/--
What became of the part of a stream that was to be parsed: the result and the rest of the stream,
an error, or `none` if the bound on nested expansions was too small.
-/
abbrev Outcome (α : Type) := Option (Except ParseError (α × TokenStream))

/-- The error for a nonterminal that no rule expands in front of the stream. -/
def refuse (n : Nonterminal) : TokenStream → ParseError
  | .token t _ => .noRule n t
  | .finished reached => .unexpectedEnd (.nonterm n) reached
  | .unclosed quote => .unclosedString quote

/-- Parses one symbol after the other. -/
def parseAll (parseOne : Symbol → TokenStream → Outcome Tree) :
    List Symbol → TokenStream → Outcome (List Tree)
  | [], s => some (.ok ([], s))
  | x :: xs, s =>
    match parseOne x s with
    | none => none
    | some (.error e) => some (.error e)
    | some (.ok (t, s)) =>
      match parseAll parseOne xs s with
      | none => none
      | some (.error e) => some (.error e)
      | some (.ok (ts, s)) => some (.ok (t :: ts, s))

/-- Parses one symbol with at most `bound` expansions inside each other. -/
def parseSymbol : Nat → Symbol → TokenStream → Outcome Tree
  | _, _, .unclosed quote => some (.error (.unclosedString quote))
  | _, .epsilon, s => some (.ok (epsilon, s))
  | _, .term a, .token t rest =>
    if a.accepts t then some (.ok (leaf t, rest)) else some (.error (.unexpectedToken a t))
  | _, .term a, .finished reached => some (.error (.unexpectedEnd (.term a) reached))
  | 0, .nonterm _, _ => none
  | bound + 1, .nonterm n, s =>
    match expand? n (.ofStream s) with
    | none => some (.error (refuse n s))
    | some xs =>
      match parseAll (parseSymbol bound) xs s with
      | none => none
      | some (.error e) => some (.error e)
      | some (.ok (children, s)) => some (.ok (node n children, s))

/-- No tree over `s` has more expansions inside each other. -/
def depthBound (s : TokenStream) : Nat :=
  Nonterminal.all.length * (s.toList.length + 1)

/-- Parses a whole stream as the given nonterminal. -/
def parse (start : Nonterminal) (s : TokenStream) : Except ParseError Tree :=
  match parseSymbol (depthBound s) (.nonterm start) s with
  | some (.ok (t, .finished _)) => .ok t
  | some (.ok (_, .token t _)) => .error (.expectedEnd t)
  | some (.ok (_, .unclosed quote)) => .error (.unclosedString quote)
  | some (.error e) => .error e
  | none => .error (refuse start s)

/-- A script: import and function declarations. -/
def parseScript (source : String) : Except ParseError Tree :=
  parse .script (.ofSource source)

/-- A fragment: expressions separated by semicolons. -/
def parseFragment (source : String) : Except ParseError Tree :=
  parse .fragment (.ofSource source)

end Tree

end ChainScript
