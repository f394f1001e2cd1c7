import ChainScript.Number.Decimal
import ChainScript.Text.Quoted

/-! Tokens and where they stand in the source. -/
namespace ChainScript

/-- A place in the source. Lines and columns count from one, columns in characters. -/
structure Position where
  line : Nat
  column : Nat
  deriving Repr, DecidableEq, Inhabited

namespace Position

def start : Position := ⟨1, 1⟩

/-- The position after one more character. -/
def next (p : Position) (c : Char) : Position :=
  if c = '\n' then ⟨p.line + 1, 1⟩ else ⟨p.line, p.column + 1⟩

/-- The position after a stretch of text. -/
def advance (p : Position) (text : List Char) : Position :=
  text.foldl next p

theorem advance_append (p : Position) (s t : List Char) :
    p.advance (s ++ t) = (p.advance s).advance t :=
  List.foldl_append

end Position

/-- The words and symbols with a fixed meaning. -/
inductive Keyword where
  | arrow
  | chain
  | ignoredChain
  | errorChain
  | openLambda
  | openCollect
  | openParen
  | closeParen
  | openBracket
  | closeBracket
  | openBrace
  | closeBrace
  | semicolon
  | colon
  | dot
  | memo
  | bind
  deriving Repr, DecidableEq, Inhabited

namespace Keyword

def text : Keyword → String
  | arrow => "=>"
  | chain => "->"
  | ignoredChain => "--"
  | errorChain => "-|"
  | openLambda => "(@"
  | openCollect => "(|"
  | openParen => "("
  | closeParen => ")"
  | openBracket => "["
  | closeBracket => "]"
  | openBrace => "\x7b"
  | closeBrace => "\x7d"
  | semicolon => ";"
  | colon => ":"
  | dot => "."
  | memo => "memo"
  | bind => "let"

/-- The keywords that end a word they are glued to, longer ones before their beginnings. -/
def symbols : List Keyword :=
  [arrow, chain, ignoredChain, errorChain, openLambda, openCollect, openParen, closeParen,
    openBracket, closeBracket, openBrace, closeBrace, semicolon, colon, dot]

/-- The keywords that are whole pieces of a word. -/
def words : List Keyword := [memo, bind]

end Keyword

/-- What a token says, wherever it stands. -/
inductive Lexical where
  | number (value : Float)
  | string (value : String)
  | identifier (name : String)
  | keyword (word : Keyword)

/-- The class of a token. -/
inductive TokenKind where
  | number
  | string
  | identifier
  | keyword
  deriving Repr, DecidableEq

namespace Lexical

def kind : Lexical → TokenKind
  | number _ => .number
  | string _ => .string
  | identifier _ => .identifier
  | keyword _ => .keyword

/-- Numbers in their shortest form, strings in quotes. -/
def text : Lexical → String
  | number x => Number.write x
  | string s => Text.quote s
  | identifier name => name
  | keyword k => k.text

end Lexical

structure Token where
  position : Position
  value : Lexical

namespace Token

def kind (t : Token) : TokenKind := t.value.kind

def text (t : Token) : String := t.value.text

end Token

end ChainScript
