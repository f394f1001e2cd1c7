import ChainScript.Load

/-!
Where imports come from: a registry of modules, or files below a directory. Each file is loaded at
most once, and a file that is still being loaded cannot be imported again.
-/
namespace ChainScript

/-- Modules that can be imported by path. -/
abbrev Registry := Table String Module

namespace Registry

variable {m : Type → Type} [Monad m]

def importer (registry : Registry) : Importer m := fun path =>
  match Table.get? path registry with
  | some module => return .ok module
  | none => return .error (.unknown path)

end Registry

/-- The modules loaded from files so far, and the paths being loaded, innermost first. -/
structure Library where
  loaded : Table String Module
  loading : List String

namespace Library

variable {m : Type → Type} [Monad m]

def empty : Library := ⟨[], []⟩

/-- Where the file of an import path lies. An absolute path stands for itself. -/
def file (root path : String) : String :=
  let name := path ++ ".wdte"
  if name.startsWith "/" || root.isEmpty then name
  else if root.endsWith "/" then root ++ name
  else root ++ "/" ++ name

/--
The source of an import path, from its file below `root`. Reading a file yields its text or the
reason why it cannot be read.
-/
def fetch (read : String → m (Except String String)) (root path : String) :
    m (Except ImportError String) := do
  match ← read (file root path) with
  | .error reason => return .error (.unreadable (file root path) reason)
  | .ok source => return .ok source

def enter (path : String) (library : Library) : Library :=
  { library with loading := path :: library.loading }

def leave (library : Library) : Library := { library with loading := library.loading.tail }

def add (path : String) (module : Module) (library : Library) : Library :=
  { library with loaded := Table.insert path module library.loaded }

/-- Imports from the sources that are fetched. It fails beyond `depth` imports inside each other. -/
def importer [MonadExceptOf Unit m] (fetch : String → m (Except ImportError String)) :
    Nat → Importer (StateT Library m)
  | 0, _ => throwThe Unit ()
  | depth + 1, path => do
    let library ← getThe Library
    match Table.get? path library.loaded with
    | some module => return .ok module
    | none =>
      if library.loading.contains path then return .error (.cycle path)
      else
        match ← (fetch path : m _) with
        | .error e => return .error e
        | .ok source =>
          modifyThe Library (enter path)
          let result ← Script.load (importer fetch depth) source
          modifyThe Library leave
          match result with
          | .error e => return .error (.notLoaded path e)
          | .ok module =>
            modifyThe Library (add path module)
            return .ok module

end Library

end ChainScript
