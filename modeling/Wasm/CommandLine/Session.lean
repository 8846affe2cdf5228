import Wasm.CommandLine.File
import Wasm.CommandLine.Options
import Wasm.CommandLine.Summary
import Wasm.Format.Module
import Wasm.Instance

/-!
# Sessions

What the program does for a command line: it reads a module, shows it if
asked to, and calls one of its functions. Only the files come from outside.
-/

namespace Wasm.CommandLine

/-- Why a session fails. -/
inductive Failure where
  | unreadable (path : String) (error : FileError)
  | undecodable (path : String) (error : Format.Error)
  | link (error : Link.Error)
  | noFunction (name : String)
  | argumentCount (name : String) (expected found : Nat)
  | argument (error : Literal.Error)
  | fault (fault : Fault)

namespace Failure

def message : Failure → String
  | unreadable path _ => "failed to read " ++ path
  | undecodable path _ => "failed to decode " ++ path
  | link error => error.message
  | noFunction name => "no exported function named " ++ name
  | argumentCount name expected found =>
    name ++ " takes " ++ toString expected ++ " arguments, got " ++ toString found
  | argument error => error.message
  | fault f => f.message

/-- What a failure comes from, where that is told apart. -/
def cause? : Failure → Option String
  | unreadable _ error => some error.message
  | undecodable _ error => some error.message
  | link (.start f) => some f.message
  | _ => none

def text (f : Failure) : String :=
  "Error: " ++ f.message ++
    (match f.cause? with
      | some cause => "\n\nCaused by:\n    " ++ cause
      | none => "") ++ "\n"

end Failure

/-- Lines printed, and the failure that ends the session if there is one. -/
structure Report where
  lines : List String := []
  failure : Option Failure := none

/-- The settings that the options ask for. -/
def Options.config (o : Options) : Config :=
  let config : Config := { compile := o.compile, fuel := o.fuel }
  match o.maxCallDepth with
  | some maxCallDepth => { config with maxCallDepth }
  | none => config

/-- Parameters of the function that an export names. -/
def parameters? (m : Module) (name : String) : Option (List ValueType) :=
  match m.export? name with
  | some (.func index) => some ((m.funcType? index).map (·.params) |>.getD [])
  | _ => none

/-- Reads arguments of the given types. -/
def arguments (name : String) (types : List ValueType) (args : List String) :
    Except Failure (List Value) :=
  if args.length = types.length then
    ((types.zip args).mapM fun (t, s) => Literal.value t s).mapError .argument
  else .error (.argumentCount name types.length args.length)

/-- Calls a function of a module that needs no imports. -/
def callFunction (m : Module) (o : Options) (name : String) (budget : Nat) :
    Except Failure (List Value) := do
  let imports : Imports Unit := {}
  let (instantiated, _) := m.instantiate imports o.config budget { cache := .empty m, host := () }
  let i ← instantiated.mapError .link
  match parameters? m name with
  | none => throw (.noFunction name)
  | some types =>
    let args ← arguments name types o.args
    (i.run (Run.invoke · budget name args)).1.mapError .fault

/-- Works on a module as the options ask. -/
def work (m : Module) (o : Options) (budget : Nat) : Report :=
  let shown := if o.dump then summary m else []
  match o.function with
  | none => { lines := shown }
  | some name =>
    match callFunction m o name budget with
    | .ok results => { lines := shown ++ results.map Value.text }
    | .error e => { lines := shown, failure := some e }

/-- Runs a session; `file` is what reading the module's file gave, or why it
    could not be read. -/
def session (o : Options) (file : Except FileError (List UInt8)) (budget : Nat) : Report :=
  match file with
  | .error e => { failure := some (.unreadable o.path e) }
  | .ok bytes =>
    match Format.decode bytes with
    | .error e => { failure := some (.undecodable o.path e) }
    | .ok m => work m o budget

namespace Report

def output (r : Report) : String :=
  String.join (r.lines.map (· ++ "\n"))

def errorOutput (r : Report) : String :=
  (r.failure.map Failure.text).getD ""

def exitCode (r : Report) : UInt32 :=
  if r.failure.isSome then 1 else 0

end Report

/-- Exit code of a command line that makes no sense. -/
def usageCode : UInt32 := 2

end Wasm.CommandLine
