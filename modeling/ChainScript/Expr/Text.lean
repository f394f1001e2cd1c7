import ChainScript.Expr

/-! The texts of expressions: a short one for messages, and one that spells out the structure. -/
namespace ChainScript

def Pattern.detail : Pattern → String
  | name x => "Name(" ++ Text.quote x ++ ")"
  | array xs => "Array(" ++ Text.bracketed (xs.map Text.quote) ++ ")"

def Link.detail : Link → String
  | plain => "Plain"
  | ignored => "Ignored"
  | recover => "Recover"

/-- A slot, which may be missing. -/
def Pattern.slotDetail : Option Pattern → String
  | none => "None"
  | some p => "Some(" ++ p.detail ++ ")"

namespace Expr

variable {κ : Type}

/-- The kind of value an expression counts as before it is evaluated. -/
def typeName : Expr κ → String
  | number _ => "number"
  | string _ => "string"
  | empty => "array"
  | _ => "expression"

/-- The short text. -/
def text : Expr κ → String
  | number x => Number.write x
  | string s => s
  | empty => "[]"
  | var x => x
  | lambda name _ _ => "<lambda " ++ name ++ ">"
  | _ => "<expression>"

mutual
/-- The text that spells out the structure. -/
def detail : Expr κ → String
  | number x => Number.write x
  | string s => Text.quote s
  | empty => "[]"
  | var x => x
  | lambda name _ _ => "<lambda " ++ name ++ ">"
  | array items => Text.bracketed (detailAll items)
  | apply func args =>
    "Application(" ++ detail func ++ ", " ++ Text.bracketed (detailAll args) ++ ")"
  | switch subject cases =>
    "Switch(" ++ detail subject ++ ", " ++ Text.bracketed (detailCases cases) ++ ")"
  | chain segments => "Chain(" ++ Text.bracketed (detailSegments segments) ++ ")"
  | compound items => "Compound(" ++ Text.bracketed (detailAll items) ++ ")"
  | collector items => "Collector(" ++ Text.bracketed (detailAll items) ++ ")"
  | bind pattern value => "Let(" ++ pattern.detail ++ ", " ++ detail value ++ ")"
  | member base name => detail base ++ "." ++ name
  | within base body => detail base ++ ".(" ++ detail body ++ ")"
  | memo _ params body =>
    "Memo(Memo \x7b params: " ++ Text.bracketed (params.map Text.quote) ++ ", body: " ++
      detail body ++ ", .. \x7d)"
def detailAll : List (Expr κ) → List String
  | [] => []
  | e :: rest => detail e :: detailAll rest
def detailCases : List (Expr κ × Expr κ) → List String
  | [] => []
  | (lhs, rhs) :: rest => ("(" ++ detail lhs ++ ", " ++ detail rhs ++ ")") :: detailCases rest
def detailSegments : List (Segment (Expr κ)) → List String
  | [] => []
  | ⟨e, link, slot⟩ :: rest =>
    ("ChainPiece \x7b expr: " ++ detail e ++ ", link: " ++ link.detail ++ ", slot: " ++
      Pattern.slotDetail slot ++ " \x7d") :: detailSegments rest
end

end Expr

end ChainScript
