import ChainScript.Frame
import ChainScript.Memo.Key
import ChainScript.Memo.Trie

/-! The state that evaluations share and change. -/
namespace ChainScript

/--
The state of a run: the next number for telling values apart, the results remembered by each memo,
the text printed, the signals cancelled so far, the time on the clock, and the state of the host.
-/
structure World (σ : Type) where
  next : Nat
  caches : Table Nat (Memo.Trie Memo.Key Value)
  printed : String
  cancelled : List Nat
  now : Nat
  host : σ

namespace World

variable {σ : Type}

def initial (now : Nat) (host : σ) : World σ :=
  ⟨0, [], "", [], now, host⟩

/-- The results remembered by a memo. -/
def cache (w : World σ) (mark : Nat) : Memo.Trie Memo.Key Value :=
  (Table.get? mark w.caches).getD .empty

/-- The result a memo remembers for the given keys. -/
def stored? (w : World σ) (mark : Nat) (keys : List Memo.Key) : Option Value :=
  (w.cache mark).get? keys

/-- Has a memo remember a result for the given keys. -/
def store (w : World σ) (mark : Nat) (keys : List Memo.Key) (result : Value) : World σ :=
  { w with caches := Table.insert mark ((w.cache mark).insert result keys) w.caches }

def printLine (w : World σ) (line : String) : World σ :=
  { w with printed := w.printed ++ line ++ "\n" }

def cancel (w : World σ) (signal : Signal) : World σ :=
  { w with cancelled := signal.flag :: w.cancelled }

def isCancelled (w : World σ) (signal : Signal) : Bool :=
  w.cancelled.contains signal.flag

/-- Why a frame may not go on, if it may not: too deep, cancelled, or past its deadline. -/
def stop? (w : World σ) (frame : Frame) : Option Cause :=
  if frame.maxDepth < frame.depth then some (.recursionLimit frame.maxDepth)
  else if w.isCancelled frame.signal then some .cancelled
  else if frame.signal.deadline.any (· ≤ w.now) then some .deadlineExceeded
  else none

end World

end ChainScript
