import ChainScript.Tree.Arena
import ChainScript.Tree.Parse

/-!
The parser as a machine. It keeps the symbols that are still to come on a stack and grows the tree
in an arena, under the node at a cursor. Each expansion leaves a mark on the stack behind its right
side, on which the cursor goes back to the parent.
-/
namespace ChainScript

open Grammar

namespace Machine

inductive Entry where
  | symbol (x : Symbol)
  | close

end Machine

structure Machine where
  arena : Arena := {}
  stack : List Machine.Entry
  cursor : Option Nat := none
  stream : TokenStream

namespace Machine

def start (n : Nonterminal) (s : TokenStream) : Machine where
  stack := [.symbol (.nonterm n)]
  stream := s

/-- A complete tree is accepted at the end of the stream. -/
def finish (a : Arena) : TokenStream → Except ParseError Arena
  | .finished _ => .ok a
  | .token t _ => .error (.expectedEnd t)
  | .unclosed quote => .error (.unclosedString quote)

/-- Takes the top off the stack. The machine goes on, or it stops with a tree or an error. -/
def step (m : Machine) : Machine ⊕ Except ParseError Arena :=
  match m.stack, m.stream with
  | [], s => .inr (finish m.arena s)
  | .close :: stack, _ => .inl { m with stack, cursor := m.cursor.bind m.arena.parent? }
  | .symbol _ :: _, .unclosed quote => .inr (.error (.unclosedString quote))
  | .symbol .epsilon :: stack, _ =>
    .inl { m with stack, arena := m.arena.push m.cursor .epsilon }
  | .symbol (.term a) :: stack, .token t rest =>
    if a.accepts t then
      .inl { m with stack, arena := m.arena.push m.cursor (.leaf t), stream := rest }
    else .inr (.error (.unexpectedToken a t))
  | .symbol (.term a) :: _, .finished reached =>
    .inr (.error (.unexpectedEnd (.term a) reached))
  | .symbol (.nonterm n) :: stack, s =>
    match expand? n (.ofStream s) with
    | none => .inr (.error (Tree.refuse n s))
    | some xs =>
      .inl { m with
        stack := xs.map .symbol ++ .close :: stack
        arena := m.arena.push m.cursor (.node n [])
        cursor := some m.arena.size }

end Machine

end ChainScript
