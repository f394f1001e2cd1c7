import ChainScript.Number.Decimal
import ChainScript.Text.Quoted

/-!
Expressions. `Expr κ` has a mark of type `κ` on every memo: none in source code, the number of its
cache in code that is ready to run.
-/
namespace ChainScript

/-- What a `let` or a slot binds: the whole value, or the leading elements of an array. -/
inductive Pattern where
  | name (name : String)
  | array (names : List String)
  deriving Repr, DecidableEq

/-- How a segment of a chain is joined to those before it. -/
inductive Link where
  | plain
  | ignored
  | recover
  deriving Repr, DecidableEq

/-- One segment of a chain. -/
structure Segment (ε : Type) where
  expr : ε
  link : Link
  slot : Option Pattern

/-- A function definition. The body sees the function under its own name. -/
structure Lambda (ε : Type) where
  name : String
  params : List String
  body : ε

inductive Expr (κ : Type) where
  | number (value : Float)
  | string (value : String)
  | empty
  | var (name : String)
  | array (items : List (Expr κ))
  | lambda (name : String) (params : List String) (body : Expr κ)
  | apply (func : Expr κ) (args : List (Expr κ))
  | switch (subject : Expr κ) (cases : List (Expr κ × Expr κ))
  | chain (segments : List (Segment (Expr κ)))
  | compound (items : List (Expr κ))
  | collector (items : List (Expr κ))
  | bind (pattern : Pattern) (value : Expr κ)
  | member (base : Expr κ) (name : String)
  | within (base : Expr κ) (body : Expr κ)
  | memo (mark : κ) (params : List String) (body : Expr κ)

/-- Code as written: memos have no cache yet. -/
abbrev Source := Expr Unit

/-- Code that can run: each memo knows the number of its cache. -/
abbrev Code := Expr Nat

namespace Expr

variable {κ : Type}

mutual
/-- Gives the memos the cache numbers from `next` on, and says which number is free after that. -/
def allot : Expr κ → Nat → Code × Nat
  | number x, next => (number x, next)
  | string s, next => (string s, next)
  | empty, next => (empty, next)
  | var x, next => (var x, next)
  | array items, next =>
    let (items, next) := allotAll items next
    (array items, next)
  | lambda name params body, next =>
    let (body, next) := allot body next
    (lambda name params body, next)
  | apply func args, next =>
    let (func, next) := allot func next
    let (args, next) := allotAll args next
    (apply func args, next)
  | switch subject cases, next =>
    let (subject, next) := allot subject next
    let (cases, next) := allotCases cases next
    (switch subject cases, next)
  | chain segments, next =>
    let (segments, next) := allotSegments segments next
    (chain segments, next)
  | compound items, next =>
    let (items, next) := allotAll items next
    (compound items, next)
  | collector items, next =>
    let (items, next) := allotAll items next
    (collector items, next)
  | bind pattern value, next =>
    let (value, next) := allot value next
    (bind pattern value, next)
  | member base name, next =>
    let (base, next) := allot base next
    (member base name, next)
  | within base body, next =>
    let (base, next) := allot base next
    let (body, next) := allot body next
    (within base body, next)
  | memo _ params body, next =>
    let (body, after) := allot body (next + 1)
    (memo next params body, after)
def allotAll : List (Expr κ) → Nat → List Code × Nat
  | [], next => ([], next)
  | e :: rest, next =>
    let (e, next) := allot e next
    let (rest, next) := allotAll rest next
    (e :: rest, next)
def allotCases : List (Expr κ × Expr κ) → Nat → List (Code × Code) × Nat
  | [], next => ([], next)
  | (lhs, rhs) :: rest, next =>
    let (lhs, next) := allot lhs next
    let (rhs, next) := allot rhs next
    let (rest, next) := allotCases rest next
    ((lhs, rhs) :: rest, next)
def allotSegments : List (Segment (Expr κ)) → Nat → List (Segment Code) × Nat
  | [], next => ([], next)
  | ⟨e, link, slot⟩ :: rest, next =>
    let (e, next) := allot e next
    let (rest, next) := allotSegments rest next
    (⟨e, link, slot⟩ :: rest, next)
end

end Expr

end ChainScript
