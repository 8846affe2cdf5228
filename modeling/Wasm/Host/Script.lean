import Wasm.Host

/-!
# Scripted host functions

Host functions put together from a few actions on the store of the caller,
for trying out how a module and its host work together. Each call is logged.
-/

namespace Wasm

/-- What a scripted function does; actions that set the results replace those
    set before. -/
inductive HostAction where
  | give (values : List Value)
  /-- The results are the arguments. -/
  | echo
  /-- The result is the sum of the arguments that are `i32`, wrapping around. -/
  | sum
  /-- Fails for these reasons, outermost first. -/
  | fail (reasons : List String)
  | poke (address : Nat) (bytes : List UInt8)
  /-- The result is that of growing memory 0. -/
  | grow (delta : BitVec 32)
  | setGlobal (index : Nat) (value : Value)
  | setTable (slot : Nat) (func : Option UInt32)
  | setFuel (fuel : Option Nat)
  | burn

/-- A host call: the name of the function and its arguments. -/
abbrev HostCall := String × List Value

/-- Calls, last one first. -/
abbrev HostLog := List HostCall

namespace HostAction

/-- Sum of the arguments that are `i32`. -/
def wordSum (args : List Value) : BitVec 32 :=
  args.foldl (fun
    | acc, .i32 x => acc + x
    | acc, _ => acc) 0

/-- Runs an action on the results so far and the store. -/
def run (args : List Value) : HostAction → EStateM String (List Value × Store) Unit
  | give values => modify fun (_, s) => (values, s)
  | echo => modify fun (_, s) => (args, s)
  | sum => modify fun (_, s) => ([.i32 (wordSum args)], s)
  | fail reasons => throw (": ".intercalate reasons)
  | poke address bytes => do
    let (results, s) ← get
    match s.write address bytes with
    | .ok s => set (results, s)
    | .error _ => throw "poke out of bounds"
  | grow delta =>
    modify fun (_, s) =>
      let (old, s) := s.grow delta
      ([.i32 old], s)
  | setGlobal index value => do
    let (results, s) ← get
    if index < s.globals.size then
      set (results, { s with globals := s.globals.modify index ({ · with value }) })
    else throw ("no global " ++ toString index)
  | setTable slot func => do
    let (results, s) ← get
    match s.setElement? 0 slot func with
    | some s => set (results, s)
    | none => throw ("no slot " ++ toString slot)
  | setFuel fuel => modify fun (results, s) => (results, { s with fuel })
  | burn => do
    let (results, s) ← get
    match s.burn with
    | .ok s => set (results, s)
    | .error t => throw t.message

end HostAction

/-- The host function that logs its call under a name and does the actions in
    order, up to the first that fails. -/
def HostFunc.scripted (name : String) (type : FuncType) (actions : List HostAction) :
    HostFunc HostLog where
  type
  call args store log :=
    let log := (name, args) :: log
    match (actions.forM (HostAction.run args)).run ([], store) with
    | .ok _ (results, store) => { result := .ok results, store, state := log }
    | .error message (_, store) => { result := .error message, store, state := log }

end Wasm
