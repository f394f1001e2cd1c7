import ChainScript.Value

/-! The texts of values: the one that programs print, and one that spells out the structure. -/
namespace ChainScript

def Arity.detail : Arity → String
  | exact n => "Exact(" ++ toString n ++ ")"
  | atLeast n => "AtLeast(" ++ toString n ++ ")"

def Order.detail : Order → String
  | savedFirst => "Prefix"
  | savedLast => "Suffix"

def Native.detail (n : Native) : String :=
  "Native \x7b name: " ++ Text.quote n.name ++ ", arity: " ++ n.arity.detail ++ ", order: " ++
    n.order.detail ++ ", .. \x7d"

def Module.detail (m : Module) : String :=
  "Module \x7b imports: " ++ Text.bracketed (m.imports.map (Text.quote ·.1)) ++ ", funcs: " ++
    Text.bracketed (m.decls.map (Text.quote ·.1)) ++ " \x7d"

def Namespace.detail (space : Namespace) : String :=
  "Namespace \x7b module: " ++ space.module.detail ++ ", .. \x7d"

namespace Value

mutual
/-- The text that programs print. -/
def text : Value → String
  | number x => Number.write x
  | string s => s
  | boolean b => if b then "true" else "false"
  | array items => "[" ++ "; ".intercalate (textAll items) ++ "]"
  | error _ failure => "error: " ++ failure.text
  | module _ => "<module>"
  | native n => "<builtin " ++ n.name ++ ">"
  | closure _ lambda _ => "<function " ++ lambda.name ++ ">"
  | curried _ func _ _ _ => "<partial " ++ text func ++ ">"
  | thunk .. => "<expression>"
  | code _ e => e.text
def textAll : List Value → List String
  | [] => []
  | v :: rest => text v :: textAll rest
end

mutual
/-- The text that spells out the structure. -/
def detail : Value → String
  | string s => Text.quote s
  | array items => Text.bracketed (detailAll items)
  | thunk _ e _ => "Scoped(" ++ e.detail ++ ")"
  | code _ e => e.detail
  | v => v.text
def detailAll : List Value → List String
  | [] => []
  | v :: rest => detail v :: detailAll rest
end

end Value

end ChainScript
