import ChainScript.Expr.OfTree

/-! Scripts: import and function declarations in the order in which they are written. -/
namespace ChainScript

/-- An import under a name, or a function under its own. -/
inductive Declaration where
  | imports (path name : String)
  | defines (lambda : Lambda Source)

abbrev Script := List Declaration

namespace Tree

def declaration : Tree → Reading Declaration
  | node .importDecl [leaf ⟨_, .string path⟩, _, leaf ⟨_, .identifier name⟩] =>
    return .imports path name
  | node .funcDecl [mods, leaf ⟨_, .identifier name⟩, params, _, body] => do
    let memoized ← hasMemo mods
    let params ← paramNames params
    let body := Expr.ofSegments (← segments .plain body)
    return .defines ⟨name, params, if memoized then .memo () params body else body⟩
  | _ => throw .funcDecl

def declarations : Tree → Reading (List Declaration)
  | node .decls [node .decl [d, _], rest] => return (← declaration d) :: (← declarations rest)
  | node .decls [epsilon] => return []
  | _ => throw .decls

end Tree

namespace Script

def ofTree : Tree → Reading Script
  | .node .script [decls] => decls.declarations
  | _ => throw .script

end Script

end ChainScript
