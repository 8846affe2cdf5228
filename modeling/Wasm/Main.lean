import Wasm.CommandLine.Session

/-!
# The command line

Runs an exported function of a WebAssembly module, or shows what the module
holds.
-/

namespace Wasm.CommandLine

def usage : String :=
  "usage: wasm [--no-compile] [--fuel N] [--max-call-depth N] [--dump] <path> <export> [args..]\n"

/-- The number the system gave to an error of reading a file. -/
def code? : IO.Error → Option Nat
  | .noFileOrDirectory _ code _ => some code.toNat
  | .permissionDenied _ code _ => some code.toNat
  | .inappropriateType _ code _ => some code.toNat
  | .invalidArgument _ code _ => some code.toNat
  | _ => none

def fileError (e : IO.Error) : FileError :=
  ((code? e).bind FileError.ofCode?).getD (.other (toString e))

def readModule (path : String) : IO (Except FileError (List UInt8)) := do
  try
    let bytes ← IO.FS.readBinFile path
    return .ok bytes.toList
  catch e => return .error (fileError e)

end Wasm.CommandLine

open Wasm.CommandLine in
def main (args : List String) : IO UInt32 := do
  match Options.parse args with
  | none =>
    IO.eprint usage
    return usageCode
  | some o =>
    let report := session o (← readModule o.path) 1000000000000000000
    IO.print report.output
    IO.eprint report.errorOutput
    return report.exitCode
