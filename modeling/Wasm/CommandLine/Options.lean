import Wasm.Number.Literal

/-!
# Options

What a command line asks for: a module file, an exported function and its
arguments, with options before them. From the first argument of the function
on, everything is an argument; after a lone `--` nothing is an option.
-/

namespace Wasm.CommandLine

structure Options where
  path : String
  /-- The function to call; without it the module is only looked at. -/
  function : Option String := none
  args : List String := []
  compile : Bool := true
  dump : Bool := false
  fuel : Option Nat := none
  maxCallDepth : Option Nat := none
deriving DecidableEq

/-- Options read so far. The arguments are kept last one first. -/
structure Draft where
  path : Option String := none
  function : Option String := none
  args : List String := []
  interpret : Bool := false
  dump : Bool := false
  fuel : Option Nat := none
  maxCallDepth : Option Nat := none

namespace Draft

/-- Takes a value at the first free place: path, function, arguments. -/
def value (d : Draft) (v : String) : Draft :=
  if d.path.isNone then { d with path := some v }
  else if d.function.isNone then { d with function := some v }
  else { d with args := v :: d.args }

def values (d : Draft) (vs : List String) : Draft :=
  vs.foldl value d

/-- A number option; it may be given once. -/
def number (slot : Option Nat) (v : String) : Option Nat :=
  if slot.isSome then none else (Literal.unsigned 64 v).toOption

/-- An option that takes a value. -/
def setting (d : Draft) (name v : String) : Option Draft :=
  match name with
  | "fuel" => (number d.fuel v).map fun n => { d with fuel := some n }
  | "max-call-depth" => (number d.maxCallDepth v).map fun n => { d with maxCallDepth := some n }
  | _ => none

/-- An option without a value; it may be given once. -/
def flag (d : Draft) : String → Option Draft
  | "no-compile" => if d.interpret then none else some { d with interpret := true }
  | "dump" => if d.dump then none else some { d with dump := true }
  | _ => none

/-- A path is needed, and a function unless the module is dumped. -/
def finish (d : Draft) : Option Options := do
  let path ← d.path
  if path.isEmpty || (d.function.isNone && !d.dump) then none
  else
    return { path, function := d.function, args := d.args.reverse, compile := !d.interpret
             dump := d.dump, fuel := d.fuel, maxCallDepth := d.maxCallDepth }

end Draft

/-- Digits with at most one point and one exponent mark. The point is not
    first and comes before the mark, which is neither first nor last. -/
def isNumber (cs : List Char) : Bool :=
  go cs false false true && !cs.isEmpty
where
  /-- `point` and `mark` tell what was seen, `first` that nothing was. -/
  go : List Char → (point mark first : Bool) → Bool
    | [], _, _, _ => true
    | c :: cs, point, mark, first =>
      if c.isDigit then go cs point mark false
      else if c = '.' then !point && !mark && !first && go cs true mark false
      else if c = 'e' || c = 'E' then !mark && !first && !cs.isEmpty && go cs point true false
      else false

/-- How a word is read while options may still come. -/
inductive Word where
  | value (v : String)
  | option (name : String)
  | assignment (name value : String)
  | endOfOptions
  | unknown

/-- A negative number is a value, as is a lone dash. -/
def Word.ofString (s : String) : Word :=
  match s.toList with
  | ['-', '-'] => endOfOptions
  | '-' :: '-' :: cs =>
    match cs.dropWhile (· ≠ '=') with
    | [] => option (String.ofList cs)
    | _ :: v => assignment (String.ofList (cs.takeWhile (· ≠ '='))) (String.ofList v)
  | ['-'] => value s
  | '-' :: cs => if isNumber cs then value s else unknown
  | _ => value s

/-- Reads words up to the first argument of the function. -/
def Draft.words (d : Draft) : List String → Option Draft
  | [] => some d
  | s :: rest =>
    if d.args.isEmpty then
      match Word.ofString s with
      | .value v => (d.value v).words rest
      | .endOfOptions => some (d.values rest)
      | .assignment name v => do (← d.setting name v).words rest
      | .option name =>
        match d.flag name, rest with
        | some d, rest => d.words rest
        | none, v :: rest => do (← d.setting name v).words rest
        | none, [] => none
      | .unknown => none
    else some (d.values (s :: rest))

/-- `none` if the words make no sense. -/
def Options.parse (words : List String) : Option Options := do
  (← ({} : Draft).words words).finish

end Wasm.CommandLine
