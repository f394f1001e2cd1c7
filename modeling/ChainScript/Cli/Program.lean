import ChainScript.Cli.Options
import ChainScript.Run

/-!
The program behind the command line: it reads a source, runs it, and reports the value or what went
wrong. Files are read through a function that is given to it, and the clock is read once.
-/
namespace ChainScript.Cli

/-- What a finished program leaves behind. -/
structure Report where
  code : Nat
  output : String
  errors : String

/-- Indents the lines after the first, which stands behind a label. -/
def labelled (label indent text : String) : String :=
  label ++ text.replace "\n" ("\n" ++ indent)

/-- The numbers of causes are five characters wide. -/
def causeLabel (index : Nat) : String :=
  let digits := toString index
  String.ofList (List.replicate (5 - digits.length) ' ') ++ digits ++ ": "

/-- An error with the errors behind it, which are numbered if there are several. -/
def explain (message : String) (causes : List String) : String :=
  let lines :=
    match causes with
    | [cause] => [labelled "    " "    " cause]
    | causes => causes.mapIdx fun i cause => labelled (causeLabel i) "       " cause
  let sources := if lines.isEmpty then "" else "\n\nCaused by:\n" ++ "\n".intercalate lines
  "Error: " ++ message ++ sources ++ "\n"

namespace Report

def success (output : String) : Report := ⟨0, output, ""⟩

def failure (output message : String) (causes : List String) : Report :=
  ⟨1, output, explain message causes⟩

/-- The report on arguments that make no sense. -/
def refusal : Report := ⟨2, "", "error: invalid arguments\n"⟩

/-- The report on a run. -/
def ofRun : Option (Except Error Value × World Unit) → Report
  | some (.ok v, w) => success (w.printed ++ v.text ++ "\n")
  | some (.error e, w) => failure w.printed e.message e.causes
  | none => failure "" "evaluation did not finish" []

end Report

def usage : String :=
  "Usage: wdte [OPTIONS] <CONTENTS>\n\n" ++
  "Options:\n" ++
  "  -f, --file             Read the source from the file <CONTENTS>\n" ++
  "      --fragment         Evaluate expressions instead of declarations\n" ++
  "  -e, --entry <ENTRY>    The function to run [default: main]\n" ++
  "  -t, --timeout <MS>     Stop after this many milliseconds\n" ++
  "      --max-depth <N>    The number of nested function calls allowed\n" ++
  "  -l, --lib <DIR>        The directory to load imports from\n" ++
  "  -h, --help             Print help\n" ++
  "  -V, --version          Print version\n"

/-- The most imports inside each other that are followed. -/
def maxImportDepth : Nat := 1000000

variable {m : Type → Type} [Monad m]

/-- Reads a file through `read`. No file has a name with a NUL character in it. -/
def readFile (read : String → m (Except String String)) (file : String) :
    m (Except String String) :=
  if file.toList.contains '\x00' then
    return .error "file name contained an unexpected NUL byte"
  else read file

/--
The module of a script, with imports from the library directory if there is one. There is none if
the imports go too deep.
-/
def loadScript (read : String → m (Except String String)) (options : Options) (source : String)
    (next : Nat) : OptionT m (Except LoadError Module × Nat) :=
  match options.lib with
  | none => (Script.load (Registry.importer []) source).run next
  | some root => do
    let fetch path : OptionT m (Except ImportError String) :=
      OptionT.lift (Library.fetch (readFile read) root path)
    let load := Script.load (Library.importer fetch maxImportDepth) source
    let (loaded, _) ← (load.run next).run .empty
    return loaded

/-- A frame with the limits that the options set. -/
def startFrame (options : Options) (now : Nat) : Proc Unit Frame := do
  let frame ← Frame.start (← Scope.prelude) (options.timeout.map (now + ·))
  return { frame with maxDepth := options.maxDepth.getD frame.maxDepth }

/-- Evaluates a source at the time `now`. -/
def runSource (read : String → m (Except String String)) (options : Options) (source : String)
    (now : Nat) : m Report := do
  let world := World.initial now ()
  if options.fragment then
    let action : Proc Unit (Except Error Value) := do
      match Expr.evalSource source (← startFrame options now) with
      | .error e => return .error (.load e)
      | .ok action => return (← action).toExcept
    return .ofRun (action.run Host.none world)
  else
    match ← (loadScript read options source world.next).run with
    | none => return .ofRun none
    | some (.error e, _) => return .ofRun (some (.error (.load e), world))
    | some (.ok module, next) =>
      let action : Proc Unit (Except Error Value) := do
        let frame ← startFrame options now
        return (← module.call frame (options.entry.getD "main") []).toExcept
      return .ofRun (action.run Host.none { world with next := next })

/-- Runs the program with the given arguments. -/
def run (read : String → m (Except String String)) (args : List String) (now : Nat) :
    m Report := do
  match Request.ofArgs args with
  | .refuse => return .refusal
  | .help => return .success usage
  | .version => return .success "wdte 0.1.0\n"
  | .run options =>
    let contents := options.contents.getD ""
    if options.file then
      match ← readFile read contents with
      | .error reason =>
        return .failure "" ("Failed to read the input file '" ++ contents ++
          "'. Perhaps this file does not exist?") [reason]
      | .ok source => runSource read options source now
    else runSource read options contents now

end ChainScript.Cli
