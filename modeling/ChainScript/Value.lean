import ChainScript.Expr.Text
import ChainScript.Failure

/-!
Values. Every value can be called; plain values answer with themselves. Values that are compared by
identity carry a number that tells them apart.
-/
namespace ChainScript

/-- How many arguments a native function takes. -/
inductive Arity where
  | exact (count : Nat)
  | atLeast (count : Nat)
  deriving Repr, DecidableEq

/-- The number of arguments needed before the function runs. -/
def Arity.required : Arity → Nat
  | exact n => n
  | atLeast n => n

/-- Whether arguments saved so far come before or after those that follow. -/
inductive Order where
  | savedFirst
  | savedLast
  deriving Repr, DecidableEq

/-- The functions of the prelude. -/
inductive Builtin where
  | add
  | sub
  | mul
  | div
  | rem
  | equal
  | less
  | greater
  | lessEqual
  | greaterEqual
  | not
  | and
  | or
  | element
  | length
  | error
  | print
  deriving Repr, DecidableEq

/-- Where the body of a native function is found: in the prelude, or with the host. -/
inductive Operation where
  | builtin (op : Builtin)
  | host (key : Nat)
  deriving Repr, DecidableEq

structure Native where
  id : Nat
  name : String
  arity : Arity
  order : Order
  operation : Operation
  deriving Repr, DecidableEq

mutual
inductive Value where
  | number (value : Float)
  | string (value : String)
  | boolean (value : Bool)
  | array (items : List Value)
  | error (id : Nat) (failure : Failure)
  | module (space : Namespace)
  | native (native : Native)
  /-- A function definition with the scope it was made in. -/
  | closure (id : Nat) (lambda : Lambda Code) (scope : Scope)
  /-- A function waiting for the rest of its arguments. -/
  | curried (id : Nat) (func : Value) (saved : List Value) (arity : Nat) (order : Order)
  /-- An unevaluated expression with the scope it was written in. -/
  | thunk (id : Option Nat) (code : Code) (scope : Scope)
  /-- An unevaluated expression without a scope, which runs in the scope of its caller. -/
  | code (id : Nat) (code : Code)
/-- A module as a value: its members are resolved in `scope`, whose innermost level it is. -/
structure Namespace where
  module : Module
  scope : Scope
/-- The names an expression sees, innermost level first. -/
inductive Scope where
  | root
  | bound (names : List (String × Value)) (outer : Scope)
  | module (module : Module) (outer : Scope)
  | members (space : Namespace) (outer : Scope)
/-- Declarations and imported modules, each under its name in order of declaration. -/
structure Module where
  id : Nat
  imports : List (String × Module)
  decls : List (String × Decl)
/-- What a module declares: a function yet to be closed over a scope, or a value. -/
inductive Decl where
  | lambda (lambda : Lambda Code)
  | value (value : Value)
end

/--
What a module declares under a name that stands for `value`. A function definition without a scope
gets that of the module.
-/
def Decl.ofValue : Value → Decl
  | .code _ (.lambda name params body) => lambda ⟨name, params, body⟩
  | v => value v

namespace Value

def isError : Value → Bool
  | error .. => true
  | _ => false

/-- Plain values are those that answer every call with themselves. -/
def isPlain : Value → Bool
  | number _ => true
  | string _ => true
  | boolean _ => true
  | array _ => true
  | error .. => true
  | module _ => true
  | _ => false

def typeName : Value → String
  | number _ => "number"
  | string _ => "string"
  | boolean _ => "boolean"
  | array _ => "array"
  | error .. => "error"
  | module _ => "module"
  | native _ => "function"
  | closure .. => "function"
  | curried .. => "function"
  | thunk .. => "expression"
  | code .. => "expression"

/-- The value of an expression that needs no evaluation. -/
def ofLiteral? : Code → Option Value
  | .number x => some (number x)
  | .string s => some (string s)
  | .empty => some (array [])
  | _ => none

/-- Code as a value, not tied to a scope. -/
def ofCode (id : Nat) (code : Code) : Value :=
  (ofLiteral? code).getD (.code id code)

/-- An argument expression, tied to the scope it is written in. -/
def pin (scope : Scope) (code : Code) : Value :=
  (ofLiteral? code).getD (thunk none code scope)

/-- Whether later arguments are put in front of those given first. -/
def isReversedNative : Value → Bool
  | native n => n.order = .savedLast
  | _ => false

/-- The number by which a value is told apart from others; values compared by content have none. -/
def identity? : Value → Option Nat
  | error id _ => some id
  | module space => some space.module.id
  | native n => some n.id
  | closure id _ _ => some id
  | curried id .. => some id
  | thunk id _ _ => id
  | code _ (.var _) => none
  | code id _ => some id
  | _ => none

mutual
/-- Numbers, strings, booleans and arrays are equal by content, all else by identity. -/
def equals : Value → Value → Bool
  | number x, number y => x == y
  | string s, string t => s = t
  | boolean b, boolean c => b = c
  | array xs, array ys => equalsAll xs ys
  | code _ (.var x), code _ (.var y) => x = y
  | v, w => v.identity?.isSome && v.identity? = w.identity?
def equalsAll : List Value → List Value → Bool
  | [], [] => true
  | x :: xs, y :: ys => equals x y && equalsAll xs ys
  | _, _ => false
end

end Value

end ChainScript
