import Wasm.Syntax.Module

/-!
# Summary of a module

A listing of what a module holds, line by line.
-/

namespace Wasm.CommandLine

namespace Summary

/-- A number that may be absent. -/
def optional : Option UInt32 → String
  | some n => "Some(" ++ toString n.toNat ++ ")"
  | none => "None"

/-- A record by its name and fields. -/
def record (name : String) (fields : List (String × String)) : String :=
  name ++ " \x7b " ++ ", ".intercalate (fields.map fun (k, v) => k ++ ": " ++ v) ++ " \x7d"

def limits (l : Limits) : String :=
  record "Limits" [("min", toString l.min.toNat), ("max", optional l.max)]

def valueType (t : ValueType) : String :=
  t.name.capitalize

def globalType (g : GlobalType) : String :=
  record "GlobalType" [("value_type", valueType g.type), ("mutable", toString g.mutable)]

def importDesc : ImportDesc → String
  | .func type => "func type " ++ toString type.toNat
  | .table _ => "table"
  | .memory l => "memory " ++ limits l
  | .global g => "global " ++ globalType g

def exportDesc : ExportDesc → String
  | .func index => "Func(" ++ toString index.toNat ++ ")"
  | .table index => "Table(" ++ toString index.toNat ++ ")"
  | .memory index => "Memory(" ++ toString index.toNat ++ ")"
  | .global index => "Global(" ++ toString index.toNat ++ ")"

/-- Types with their indices. -/
def types : Nat → List FuncType → List String
  | _, [] => []
  | index, t :: ts => ("  " ++ toString index ++ ": " ++ t.text) :: types (index + 1) ts

end Summary

open Summary in
/-- The lines of the summary. -/
def summary (m : Module) : List String :=
  ["types:"] ++ types 0 m.types.toList ++
  ["imports:"] ++
  m.imports.toList.map (fun i => "  " ++ i.module ++ "." ++ i.name ++ ": " ++ importDesc i.desc) ++
  ["functions: " ++ toString m.functions.size] ++
  m.memories.toList.map (fun l => "memory: " ++ limits l) ++
  m.start.toList.map (fun index => "start: " ++ toString index.toNat) ++
  ["exports:"] ++
  m.exports.toList.map (fun e => "  " ++ e.name ++ ": " ++ exportDesc e.desc)

end Wasm.CommandLine
