import ChainScript.Cli.Program

/-! The command line program. -/
namespace ChainScript.Cli

/-- The number the operating system gave an error. Some calls report it negated. -/
def osCode? : IO.Error → Option Nat
  | .noFileOrDirectory _ code _ => some (magnitude code)
  | .permissionDenied _ code _ => some (magnitude code)
  | .inappropriateType _ code _ => some (magnitude code)
  | .invalidArgument _ code _ => some (magnitude code)
  | _ => none
where
  magnitude (code : UInt32) : Nat := if code < 0x80000000 then code.toNat else (0 - code).toNat

/-- What the numbers of the errors that keep a file from being read mean. -/
def osText? : Nat → Option String
  | 2 => some "No such file or directory"
  | 13 => some "Permission denied"
  | 20 => some "Not a directory"
  | 21 => some "Is a directory"
  | 36 => some "File name too long"
  | _ => none

/-- Why a file cannot be read, in the words of the operating system. -/
def ioReason (e : IO.Error) : String :=
  match osCode? e with
  | none => toString e
  | some code =>
    match osText? code with
    | some text => text ++ " (os error " ++ toString code ++ ")"
    | none => toString e

/-- Reads a file, which has to hold text. -/
def readText (file : String) : IO (Except String String) := do
  try
    match String.fromUTF8? (← IO.FS.readBinFile file) with
    | some text => return .ok text
    | none => return .error "stream did not contain valid UTF-8"
  catch e => return .error (ioReason e)

end ChainScript.Cli

open ChainScript.Cli in
def main (args : List String) : IO UInt32 := do
  let report ← run readText args (← IO.monoMsNow)
  IO.print report.output
  IO.eprint report.errors
  return UInt32.ofNat report.code
