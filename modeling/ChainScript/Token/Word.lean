import ChainScript.Token

/-!
Splitting words. A word is a run of characters without blanks, quotes and comment marks; symbols
are cut out of it wherever they stand, and what lies between two symbols is one piece.
-/
namespace ChainScript.Word

/-- The symbol at the head of a text. An opening parenthesis before two bars stands alone. -/
def symbol? (text : List Char) : Option Keyword :=
  Keyword.symbols.find? fun k =>
    k.text.toList.isPrefixOf text && !(k = .openCollect && "(||".toList.isPrefixOf text)

/-- Leaves out one leading minus sign. -/
def unsigned : List Char → List Char
  | '-' :: rest => rest
  | text => text

/-- Digits, with an optional minus sign in front. -/
def isInteger (text : List Char) : Bool :=
  !(unsigned text).isEmpty && (unsigned text).all Char.isDigit

/-- A point in front of a digit. -/
def startsFraction : List Char → Bool
  | '.' :: c :: _ => c.isDigit
  | _ => false

def isNumeralChar (c : Char) : Bool :=
  c.isDigit || c = '.' || c = 'e' || c = 'E' || c = '+' || c = '-'

/-- The number a piece stands for: it starts with a digit or with a minus sign and a digit. -/
def number? (text : List Char) : Option Float :=
  if ((unsigned text).head?.any Char.isDigit) && (unsigned text).all isNumeralChar then
    Number.read? text
  else none

/-- What a piece means: a keyword, a number, or else an identifier. -/
def classify (text : List Char) : Lexical :=
  match Keyword.words.find? fun k => k.text.toList = text with
  | some k => .keyword k
  | none =>
    match number? text with
    | some x => .number x
    | none => .identifier (String.ofList text)

/-- The characters of a piece read so far, last first, and where the piece began. -/
structure Piece where
  start : Position
  reversed : List Char

namespace Piece

def text (piece : Piece) : List Char := piece.reversed.reverse

def token (piece : Piece) : Token := ⟨piece.start, classify piece.text⟩

/-- Adds a character that stands at `here` to the open piece, or opens one with it. -/
def extend (piece : Option Piece) (here : Position) (c : Char) : Piece :=
  match piece with
  | some p => ⟨p.start, c :: p.reversed⟩
  | none => ⟨here, [c]⟩

/-- The token of the open piece, if there is one. -/
def close (piece : Option Piece) : List Token :=
  piece.toList.map token

end Piece

/--
Splits the rest of a word that stands at `here`. The first `skip` characters belong to a symbol
already cut out, and `piece` is the piece still open.
-/
def splitFrom (here : Position) (skip : Nat) (piece : Option Piece) : List Char → List Token
  | [] => Piece.close piece
  | c :: rest =>
    match skip with
    | skip + 1 => splitFrom (here.next c) skip piece rest
    | 0 =>
      if (piece.any fun p => isInteger p.text) && startsFraction (c :: rest) then
        splitFrom (here.next c) 0 (some (Piece.extend piece here c)) rest
      else
        match symbol? (c :: rest) with
        | none => splitFrom (here.next c) 0 (some (Piece.extend piece here c)) rest
        | some k =>
          Piece.close piece ++ ⟨here, .keyword k⟩ ::
            splitFrom (here.next c) (k.text.length - 1) none rest

/-- The tokens of a word that stands at `here`. -/
def split (here : Position) (word : List Char) : List Token :=
  splitFrom here 0 none word

end ChainScript.Word
