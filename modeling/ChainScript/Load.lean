import ChainScript.Scope
import ChainScript.Script
import ChainScript.Tree.Parse

/-!
Loading scripts. Declarations are taken in order; each import is asked for as it is met, and the
first one refused ends the loading. A name declared again keeps its place and gets the new meaning.
-/
namespace ChainScript

mutual
/-- Why an import was refused. -/
inductive ImportError where
  | unknown (path : String)
  | unreadable (file reason : String)
  | notLoaded (path : String) (source : LoadError)
  | cycle (path : String)
/-- Why a source could not be loaded. -/
inductive LoadError where
  | parse (error : ParseError)
  | malformed (n : Grammar.Nonterminal)
  | importRefused (path : String) (source : ImportError)
end

mutual
def ImportError.message : ImportError → String
  | .unknown path => "unknown module '" ++ path ++ "'"
  | .unreadable file reason => "failed to read '" ++ file ++ "': " ++ reason
  | .notLoaded path source => "failed to load '" ++ path ++ "': " ++ source.message
  | .cycle path => "import cycle through '" ++ path ++ "'"
def LoadError.message : LoadError → String
  | .parse error => error.message
  | .malformed n => "malformed parse tree at <" ++ n.name ++ ">"
  | .importRefused path source => "import '" ++ path ++ "' failed: " ++ source.message
end

mutual
/-- The messages of the errors behind an error, nearest first. -/
def ImportError.causes : ImportError → List String
  | .unknown _ => []
  | .unreadable _ reason => [reason]
  | .notLoaded _ source => source.message :: source.causes
  | .cycle _ => []
def LoadError.causes : LoadError → List String
  | .parse _ => []
  | .malformed _ => []
  | .importRefused _ source => source.message :: source.causes
end

namespace Lambda

/-- Gives the memos of a function the cache numbers from `next` on. -/
def allot {κ : Type} (l : Lambda (Expr κ)) (next : Nat) : Lambda Code × Nat :=
  let (body, next) := l.body.allot next
  (⟨l.name, l.params, body⟩, next)

end Lambda

/--
What resolves import paths, counting on the numbers for identities and caches that are still free.
-/
abbrev Importer (m : Type → Type) := String → StateT Nat m (Except ImportError Module)

/-- The names collected so far while a script is loaded. -/
structure Draft where
  imports : List (String × Module)
  decls : List (String × Decl)

namespace Draft

def empty : Draft := ⟨[], []⟩

def addImport (draft : Draft) (name : String) (module : Module) : Draft :=
  { draft with imports := Table.insert name module draft.imports }

def addFunction (draft : Draft) (lambda : Lambda Code) : Draft :=
  { draft with decls := Table.insert lambda.name (.lambda lambda) draft.decls }

end Draft

namespace Script

variable {m : Type → Type} [Monad m]

/-- Takes the declarations in order. -/
def collect (importer : Importer m) : Script → Draft → StateT Nat m (Except LoadError Draft)
  | [], draft => return .ok draft
  | .imports path name :: rest, draft => do
    match ← importer path with
    | .error e => return .error (.importRefused path e)
    | .ok module => collect importer rest (draft.addImport name module)
  | .defines lambda :: rest, draft => do
    let lambda ← modifyGet lambda.allot
    collect importer rest (draft.addFunction lambda)

/-- The module of a script. -/
def link (importer : Importer m) (script : Script) : StateT Nat m (Except LoadError Module) := do
  match ← collect importer script .empty with
  | .error e => return .error e
  | .ok draft =>
    let id ← modifyGet fun next => (next, next + 1)
    return .ok ⟨id, draft.imports, draft.decls⟩

/-- The declarations of a source text. -/
def ofSource (source : String) : Except LoadError Script := do
  let tree ← (Tree.parseScript source).mapError .parse
  (ofTree tree).mapError .malformed

/-- Reads a source text and links its declarations. -/
def load (importer : Importer m) (source : String) : StateT Nat m (Except LoadError Module) :=
  match ofSource source with
  | .error e => return .error e
  | .ok script => script.link importer

end Script

namespace Expr

/-- The expression of a source text. -/
def ofSource (source : String) : Except LoadError Source := do
  let tree ← (Tree.parseFragment source).mapError .parse
  (ofFragment tree).mapError .malformed

end Expr

end ChainScript
