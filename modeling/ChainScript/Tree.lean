import ChainScript.Grammar.Symbol

/-! Parse trees: tokens at the leaves, nonterminals with the parts of one rule as inner nodes. -/
namespace ChainScript

open Grammar

inductive Tree where
  | leaf (token : Token)
  | epsilon
  | node (name : Nonterminal) (children : List Tree)

namespace Tree

mutual
/-- The number of nodes, leaves and empty expansions included. -/
def size : Tree → Nat
  | leaf _ => 1
  | epsilon => 1
  | node _ children => 1 + sizeAll children
def sizeAll : List Tree → Nat
  | [] => 0
  | t :: rest => size t + sizeAll rest
end

mutual
/-- The tokens at the leaves, from left to right. -/
def leaves : Tree → List Token
  | leaf t => [t]
  | epsilon => []
  | node _ children => leavesAll children
def leavesAll : List Tree → List Token
  | [] => []
  | t :: rest => leaves t ++ leavesAll rest
end

mutual
/-- Angle brackets around a nonterminal and the texts of its children. -/
def text : Tree → String
  | leaf t => t.text
  | epsilon => Symbol.epsilon.text
  | node n children => "<" ++ n.name ++ textAll children ++ ">"
def textAll : List Tree → String
  | [] => ""
  | t :: rest => " " ++ text t ++ textAll rest
end

end Tree

end ChainScript
