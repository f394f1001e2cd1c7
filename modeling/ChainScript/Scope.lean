import ChainScript.Table
import ChainScript.Value

/-!
Scopes. Looking a name up walks outwards from the innermost level. A declared function is found as
its definition together with the scope it has to be closed over, since each look-up makes a new
closure of it.
-/
namespace ChainScript

/-- What a name stands for. -/
inductive Binding where
  | value (value : Value)
  | function (lambda : Lambda Code) (scope : Scope)

namespace Scope

/-- A new innermost level with one name. -/
def add (scope : Scope) (name : String) (value : Value) : Scope :=
  bound [(name, value)] scope

/-- A new innermost level with all the names, unless there are none. The last duplicate counts. -/
def addAll (scope : Scope) (names : List (String × Value)) : Scope :=
  if names.isEmpty then scope else bound (Table.ofList names) scope

/-- The scope without its innermost level. -/
def outer : Scope → Scope
  | root => root
  | bound _ outer => outer
  | module _ outer => outer
  | members _ outer => outer

def isRoot : Scope → Bool
  | root => true
  | _ => false

end Scope

namespace Module

/-- All names: those of the declarations, then those of the imports. -/
def names (m : Module) : List String := Table.keys m.decls ++ Table.keys m.imports

/--
What `name` stands for as a member of the module, seen from a scope whose innermost level is the
module. An import shares the scope around that level.
-/
def resolve? (m : Module) (name : String) (scope : Scope) : Option Binding :=
  match Table.get? name m.decls with
  | some (.lambda l) => some (.function l scope)
  | some (.value v) => some (.value v)
  | none =>
    (Table.get? name m.imports).map fun imported =>
      .value (.module ⟨imported, .module imported scope.outer⟩)

/-- The module as a value, its members resolved over `scope`. -/
def space (m : Module) (scope : Scope) : Namespace := ⟨m, .module m scope⟩

end Module

namespace Namespace

def resolve? (space : Namespace) (name : String) : Option Binding :=
  space.module.resolve? name space.scope

end Namespace

namespace Scope

/-- What a name stands for, according to the innermost level that has it. -/
def find? (name : String) : Scope → Option Binding
  | root => none
  | bound names outer => ((Table.get? name names).map .value).or (find? name outer)
  | module m outer => (m.resolve? name (module m outer)).or (find? name outer)
  | members space outer => (space.resolve? name).or (find? name outer)

/-- The names of each level, innermost level first. -/
def levels : Scope → List (List String)
  | root => []
  | bound names outer => Table.keys names :: levels outer
  | module m outer => m.names :: levels outer
  | members space outer => space.module.names :: levels outer

/-- Adds a name at the end unless it is there already. -/
def note (seen : List String) (name : String) : List String :=
  if seen.contains name then seen else seen ++ [name]

/-- The visible names, innermost first and each once. -/
def known (scope : Scope) : List String :=
  scope.levels.flatten.foldl note []

def detail (scope : Scope) : String :=
  "Scope(" ++ Text.bracketed (scope.known.map Text.quote) ++ ")"

end Scope

end ChainScript
