import ChainScript.Token

/-!
Lexemes: the source cut into numerals, quoted strings and words, with blanks and comments between
them. Each reader takes the text from a given position and says what is left and where that stands.
-/
namespace ChainScript

/-- A place in the source together with the text from there on. -/
structure Cursor where
  position : Position
  rest : List Char

namespace Cursor

def ofText (text : List Char) : Cursor := ⟨.start, text⟩

end Cursor

namespace Lexeme

def isBlank (c : Char) : Bool :=
  c = ' ' || c = '\t' || c = '\r' || c = '\n' || c = '\x0c'

def isQuote (c : Char) : Bool :=
  c = '\x27' || c = '"'

/-- The characters a word consists of; its first one is no digit. -/
def isWordChar (c : Char) : Bool :=
  !(isBlank c || isQuote c || c = '#')

/-- Skips blanks and comments. A comment runs to the end of its line. -/
def skipBlank (comment : Bool) (here : Position) : List Char → Cursor
  | [] => ⟨here, []⟩
  | c :: rest =>
    if comment then skipBlank (c ≠ '\n') (here.next c) rest
    else if isBlank c then skipBlank false (here.next c) rest
    else if c = '#' then skipBlank true (here.next c) rest
    else ⟨here, c :: rest⟩

/-- A point with digits after it, or nothing. -/
def spanFraction : List Char → List Char × List Char
  | '.' :: rest =>
    match rest.span Char.isDigit with
    | ([], _) => ([], '.' :: rest)
    | (digits, rest) => ('.' :: digits, rest)
  | text => ([], text)

/-- A letter `e`, an optional sign and digits, or nothing. -/
def spanExponent : List Char → List Char × List Char
  | [] => ([], [])
  | c :: rest =>
    if c = 'e' ∨ c = 'E' then
      let (sign, tail) :=
        match rest with
        | '+' :: more => (['+'], more)
        | '-' :: more => (['-'], more)
        | more => ([], more)
      match tail.span Char.isDigit with
      | ([], _) => ([], c :: rest)
      | (digits, more) => (c :: sign ++ digits, more)
    else ([], c :: rest)

/-- The longest numeral at the head of a text, and what follows it. -/
def spanNumeral (text : List Char) : List Char × List Char :=
  let (whole, rest) := text.span Char.isDigit
  let (fraction, rest) := spanFraction rest
  let (exponent, rest) := spanExponent rest
  (whole ++ fraction ++ exponent, rest)

/-- What a backslash makes of the character after it. -/
def escaped : Char → List Char
  | 'n' => ['\n']
  | 't' => ['\t']
  | '\n' => []
  | c => [c]

/-- Reads to the closing quote: the text meant, and the cursor after the quote. -/
def readQuoted (quote : Char) (here : Position) : List Char → Option (List Char × Cursor)
  | [] => none
  | '\\' :: rest =>
    match rest with
    | [] => none
    | c :: rest =>
      (readQuoted quote ((here.next '\\').next c) rest).map fun (text, after) =>
        (escaped c ++ text, after)
  | c :: rest =>
    if c = quote then some ([], ⟨here.next c, rest⟩)
    else (readQuoted quote (here.next c) rest).map fun (text, after) => (c :: text, after)

end Lexeme

/-- The text of a lexeme, or the news that a quote is never closed. -/
inductive Lexeme where
  | numeral (text : List Char)
  | quoted (text : List Char)
  | word (text : List Char)
  | unclosed

namespace Lexeme

/-- The lexeme at a character that starts one, and the cursor after it. -/
def readAt (c : Char) (rest : List Char) (here : Position) : Lexeme × Cursor :=
  if c.isDigit then
    let (text, after) := spanNumeral (c :: rest)
    (numeral text, ⟨here.advance text, after⟩)
  else if isQuote c then
    match readQuoted c (here.next c) rest with
    | some (text, after) => (quoted text, after)
    | none => (unclosed, ⟨here.next c, rest⟩)
  else
    let (text, after) := rest.span isWordChar
    (word (c :: text), ⟨here.advance (c :: text), after⟩)

/-- The next lexeme: where it starts, what it is, and the cursor after it. -/
def next? (cursor : Cursor) : Option (Position × Lexeme × Cursor) :=
  match skipBlank false cursor.position cursor.rest with
  | ⟨_, []⟩ => none
  | ⟨here, c :: rest⟩ => some (here, readAt c rest here)

end Lexeme

end ChainScript
