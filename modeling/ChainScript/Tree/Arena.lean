import ChainScript.Tree

/-!
Parse trees laid out in an arena. Nodes are numbered in the order in which they are made; each holds
the number of its parent, and a node of a nonterminal also the numbers of its children.
-/
namespace ChainScript

open Grammar

namespace Arena

inductive Content where
  | leaf (token : Token)
  | epsilon
  | node (name : Nonterminal) (children : List Nat)

structure Node where
  parent : Option Nat
  content : Content

namespace Node

def token? (x : Node) : Option Token :=
  match x.content with
  | .leaf t => some t
  | _ => none

def children (x : Node) : List Nat :=
  match x.content with
  | .node _ children => children
  | _ => []

/-- Adds a child. Leaves and empty expansions have none. -/
def adopt (child : Nat) (x : Node) : Node :=
  match x.content with
  | .node n children => { x with content := .node n (children ++ [child]) }
  | _ => x

end Node

end Arena

structure Arena where
  nodes : Array Arena.Node := #[]

namespace Arena

def size (a : Arena) : Nat := a.nodes.size

def node? (a : Arena) (i : Nat) : Option Node := a.nodes[i]?

def parent? (a : Arena) (i : Nat) : Option Nat := (a.node? i).bind (·.parent)

def children (a : Arena) (i : Nat) : List Nat := ((a.node? i).map (·.children)).getD []

def token? (a : Arena) (i : Nat) : Option Token := (a.node? i).bind (·.token?)

/-- Makes a node and enters it with its parent. -/
def push (a : Arena) (parent : Option Nat) (content : Content) : Arena :=
  let nodes := a.nodes.push ⟨parent, content⟩
  match parent with
  | none => ⟨nodes⟩
  | some p => ⟨nodes.modify p (·.adopt a.size)⟩

/-- The first node is the root. -/
def root (a : Arena) : List Nat := if a.size = 0 then [] else [0]

/--
The nodes met by going down from those on a stack, each before its children and these from left to
right, for at most `limit` nodes.
-/
def walk (a : Arena) : (limit : Nat) → (stack : List Nat) → List Nat
  | 0, _ => []
  | _ + 1, [] => []
  | limit + 1, i :: stack => i :: a.walk limit (a.children i ++ stack)

/-- The tokens below the root, from left to right. -/
def leaves (a : Arena) : List Token := (a.walk a.size a.root).filterMap a.token?

end Arena

end ChainScript
