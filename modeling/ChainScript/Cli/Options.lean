/-!
The command line. Options may be written long or short, with their value attached or after them,
and each may be given once; flags can share one dash.
-/
namespace ChainScript.Cli

structure Options where
  file : Bool
  fragment : Bool
  entry : Option String
  timeout : Option Nat
  maxDepth : Option Nat
  lib : Option String
  contents : Option String

namespace Options

def empty : Options := ⟨false, false, none, none, none, none, none⟩

end Options

/-- The options, by their long names. -/
inductive Opt where
  | file
  | fragment
  | entry
  | timeout
  | maxDepth
  | lib
  | help
  | version
  deriving Repr, DecidableEq

namespace Opt

def ofLong? : String → Option Opt
  | "file" => some file
  | "fragment" => some fragment
  | "entry" => some entry
  | "timeout" => some timeout
  | "max-depth" => some maxDepth
  | "lib" => some lib
  | "help" => some help
  | "version" => some version
  | _ => none

def ofShort? : Char → Option Opt
  | 'f' => some file
  | 'e' => some entry
  | 't' => some timeout
  | 'l' => some lib
  | 'h' => some help
  | 'V' => some version
  | _ => none

/-- Whether the option is followed by a value. -/
def takesValue : Opt → Bool
  | entry => true
  | timeout => true
  | maxDepth => true
  | lib => true
  | _ => false

end Opt

/-- What the command line asks for. -/
inductive Request where
  | run (options : Options)
  | help
  | version
  | refuse

/-- A count below 2 ^ 64, in decimal digits after an optional plus sign. -/
def readCount? (text : String) : Option Nat :=
  let digits :=
    match text.toList with
    | '+' :: rest => rest
    | chars => chars
  if digits.isEmpty || digits.any (!Char.isDigit ·) then none
  else
    let n := digits.foldl (fun n c => 10 * n + (c.toNat - 48)) 0
    if n < 18446744073709551616 then some n else none

namespace Options

/-- Turns a flag on that is still off. -/
def setFlag? (o : Options) : Opt → Option Options
  | .file => if o.file then none else some { o with file := true }
  | .fragment => if o.fragment then none else some { o with fragment := true }
  | _ => none

/-- Gives an option its value, if it has none yet and the value makes sense. -/
def setValue? (o : Options) (value : String) : Opt → Option Options
  | .entry => if o.entry.isSome then none else some { o with entry := some value }
  | .timeout =>
    if o.timeout.isSome then none
    else (readCount? value).map fun n => { o with timeout := some n }
  | .maxDepth =>
    if o.maxDepth.isSome then none
    else (readCount? value).map fun n => { o with maxDepth := some n }
  | .lib =>
    if o.lib.isSome || value.isEmpty then none else some { o with lib := some value }
  | _ => none

def setContents? (o : Options) (value : String) : Option Options :=
  if o.contents.isSome then none else some { o with contents := some value }

end Options

/-- Whether an argument is an option rather than a value. -/
def isOption (arg : String) : Bool :=
  arg.startsWith "-" && arg ≠ "-"

/-- What reading one argument leads to: more options, a final request, or a value still to come. -/
inductive Progress where
  | go (options : Options)
  | stop (request : Request)
  | await (options : Options) (opt : Opt)

namespace Progress

def ofOptions? : Option Options → Progress
  | some o => go o
  | none => stop .refuse

end Progress

/-- Handles an option with the value attached to it, if there is one. -/
def readOpt (o : Options) (opt : Opt) (attached : Option String) : Progress :=
  if opt.takesValue then
    match attached with
    | some value => .ofOptions? (o.setValue? value opt)
    | none => .await o opt
  else if attached.isSome then .stop .refuse
  else
    match opt with
    | .help => .stop .help
    | .version => .stop .version
    | _ => .ofOptions? (o.setFlag? opt)

/-- Reads the letters after a dash. What follows a letter that takes a value is that value. -/
def readShort (o : Options) : List Char → Progress
  | [] => .go o
  | c :: rest =>
    match Opt.ofShort? c with
    | none => .stop .refuse
    | some opt =>
      if opt.takesValue then
        match rest with
        | [] => .await o opt
        | '=' :: value => readOpt o opt (some (String.ofList value))
        | value => readOpt o opt (some (String.ofList value))
      else
        match readOpt o opt none with
        | .go o => readShort o rest
        | progress => progress

/-- Reads an option that starts with two dashes. -/
def readLong (o : Options) (text : List Char) : Progress :=
  let (name, value) := text.span (· ≠ '=')
  match Opt.ofLong? (String.ofList name) with
  | none => .stop .refuse
  | some opt => readOpt o opt (if value.isEmpty then none else some (String.ofList value.tail))

/-- Reads one argument that is an option. -/
def readOption (o : Options) (arg : String) : Progress :=
  match arg.toList with
  | '-' :: '-' :: rest => readLong o rest
  | '-' :: rest => readShort o rest
  | _ => .stop .refuse

/-- The request once all arguments are read. What to run has to be given. -/
def finish (o : Options) : Request :=
  if o.contents.isSome then .run o else .refuse

/-- Reads the arguments after a double dash, which are never options. -/
def readPlain (o : Options) : List String → Request
  | [] => finish o
  | arg :: rest =>
    match o.setContents? arg with
    | some o => readPlain o rest
    | none => .refuse

/-- Reads arguments in order; `awaiting` is an option whose value comes next. -/
def readArgs (o : Options) (awaiting : Option Opt) : List String → Request
  | [] => if awaiting.isSome then .refuse else finish o
  | arg :: rest =>
    match awaiting with
    | some opt =>
      if isOption arg then .refuse
      else
        match o.setValue? arg opt with
        | some o => readArgs o none rest
        | none => .refuse
    | none =>
      if arg = "--" then readPlain o rest
      else if isOption arg then
        match readOption o arg with
        | .go o => readArgs o none rest
        | .await o opt => readArgs o (some opt) rest
        | .stop request => request
      else
        match o.setContents? arg with
        | some o => readArgs o none rest
        | none => .refuse

/-- What a list of arguments asks for. -/
def Request.ofArgs (args : List String) : Request :=
  readArgs .empty none args

end ChainScript.Cli
