import ChainScript.Scope

/-! Frames: the context in which a call is evaluated. -/
namespace ChainScript

/-- What can stop an evaluation from outside: a flag that can be raised, and a deadline. -/
structure Signal where
  flag : Nat
  deadline : Option Nat
  deriving Repr, DecidableEq

/-- The scope, the calls that are active, and the limits. Only script functions add to the depth. -/
structure Frame where
  scope : Scope
  path : CallPath
  signal : Signal
  depth : Nat
  maxDepth : Nat

namespace Frame

def defaultMaxDepth : Nat := 512

def ofScope (scope : Scope) (signal : Signal) : Frame :=
  ⟨scope, .root, signal, 0, defaultMaxDepth⟩

def withScope (frame : Frame) (scope : Scope) : Frame :=
  { frame with scope := scope }

/-- The frame inside a native function. -/
def enter (frame : Frame) (name : String) : Frame :=
  { frame with path := frame.path.push name }

/-- The frame inside a script function. -/
def descend (frame : Frame) (name : String) : Frame :=
  { frame with path := frame.path.push name, depth := frame.depth + 1 }

end Frame

end ChainScript
