import Wasm.Store

/-!
# Contexts

What an instruction runs against: the operand stack, and the locals, labels
and store it may change. An action either returns or stops with a fault, and
leaves the context as it was at that point.
-/

namespace Wasm

inductive LabelKind where
  | block
  | loop
  | if_
deriving DecidableEq

/-- An entered block. A branch to it continues at `target` with `arity`
    values above the `height` operands below the block; falling through its
    end keeps `results` values. -/
structure Label where
  kind : LabelKind
  target : Nat
  height : Nat
  arity : Nat
  results : Nat
deriving DecidableEq

structure Context where
  /-- Operands, top first. -/
  stack : List Value := []
  locals : Array Value := #[]
  /-- Entered blocks, innermost first. -/
  labels : List Label := []
  store : Store := {}

abbrev Exec := EStateM Fault Context

namespace Exec

def trap {α : Type} (t : Trap) : Exec α := throw (.trap t)

def ofExcept {α : Type} : Except Trap α → Exec α
  | .ok a => return a
  | .error t => trap t

-- ---------------------------------------------------------------------------
-- Operands
-- ---------------------------------------------------------------------------

def push (v : Value) : Exec Unit :=
  modify fun c => { c with stack := v :: c.stack }

def pop : Exec Value := do
  let c ← get
  match c.stack with
  | [] => trap .stackUnderflow
  | v :: rest =>
    set { c with stack := rest }
    return v

/-- Takes the top operand also when it has the wrong type. -/
def popInt (w : Width) : Exec (BitVec w.bits) := do
  ofExcept ((← pop).toInt w)

def popFloat (w : Width) : Exec (BitVec w.bits) := do
  ofExcept ((← pop).toFloat w)

/-- The top operand, which stays. -/
def top : Exec Value := do
  match (← get).stack with
  | [] => trap .stackUnderflow
  | v :: _ => return v

/-- Keeps the bottom `height` and the top `arity` operands. -/
def unwound (stack : List Value) (height arity : Nat) : Except Trap (List Value) :=
  if stack.length < height + arity then .error .stackUnderflow
  else .ok (stack.take arity ++ stack.drop (stack.length - height))

def unwind (height arity : Nat) : Exec Unit := do
  let c ← get
  let stack ← ofExcept (unwound c.stack height arity)
  set { c with stack }

-- ---------------------------------------------------------------------------
-- Labels
-- ---------------------------------------------------------------------------

/-- Enters a block whose parameters are on the stack. A branch to a loop
    carries its parameters, any other its results. -/
def enter (kind : LabelKind) (target : Nat) (arity : Nat × Nat) : Exec Unit := do
  let c ← get
  let (params, results) := arity
  if c.stack.length < params then trap .stackUnderflow
  else
    let label : Label :=
      { kind, target, height := c.stack.length - params
        arity := if kind = .loop then params else results, results }
    set { c with labels := label :: c.labels }

/-- Where a branch goes. -/
inductive Target where
  | jump (pc : Nat)
  /-- Back to the start of a loop. -/
  | again (pc : Nat)
  /-- Out of the function. -/
  | leave
deriving DecidableEq

/-- Leaves `depth + 1` blocks; past the outermost it leaves the function. A
    loop is entered anew by its own instruction. -/
def branch (depth : Nat) : Exec Target := do
  match (← get).labels[depth]? with
  | none => return .leave
  | some label =>
    unwind label.height label.arity
    modify fun c => { c with labels := c.labels.drop (depth + 1) }
    return match label.kind with
      | .loop => .again label.target
      | _ => .jump label.target

/-- Closes the innermost block; false if none is open, at the end of the
    function. -/
def close : Exec Bool := do
  let c ← get
  match c.labels with
  | [] => return false
  | label :: rest =>
    set { c with labels := rest }
    unwind label.height label.results
    return true

-- ---------------------------------------------------------------------------
-- Slots
-- ---------------------------------------------------------------------------

def localGet (index : UInt32) : Exec Value := do
  match (← get).locals[index.toNat]? with
  | some v => return v
  | none => throw (.missing .localVar index.toNat)

def localSet (index : UInt32) (v : Value) : Exec Unit := do
  let v ← ofExcept ((← localGet index).assign v)
  modify fun c => { c with locals := c.locals.setIfInBounds index.toNat v }

def globalGet (index : UInt32) : Exec Value := do
  match (← get).store.globals[index.toNat]? with
  | some g => return g.value
  | none => throw (.missing .global index.toNat)

def globalSet (index : UInt32) (v : Value) : Exec Unit := do
  let v ← ofExcept ((← globalGet index).assign v)
  modify fun c =>
    { c with store.globals := c.store.globals.modify index.toNat ({ · with value := v }) }

-- ---------------------------------------------------------------------------
-- Memory, tables and fuel
-- ---------------------------------------------------------------------------

def load (kind : LoadKind) (address : Nat) : Exec Value := do
  match (← get).store.memory? with
  | some m => ofExcept (m.load kind address)
  | none => trap .memoryOutOfBounds

def store (kind : StoreKind) (address : Nat) (v : Value) : Exec Unit := do
  let c ← get
  let store ← ofExcept (c.store.withMemory (·.store kind address v))
  set { c with store }

/-- Pages of memory 0, none without a memory. -/
def memorySize : Exec (BitVec 32) := do
  return BitVec.ofNat 32 (((← get).store.memory?.map Memory.pages).getD 0)

def memoryGrow (delta : BitVec 32) : Exec (BitVec 32) := do
  let c ← get
  let (old, store) := c.store.grow delta
  set { c with store }
  return old

def resolve (table slot : Nat) (expected : FuncType) : Exec UInt32 := do
  ofExcept ((← get).store.resolve table slot expected)

def burn : Exec Unit := do
  let c ← get
  let store ← ofExcept c.store.burn
  set { c with store }

end Exec

end Wasm
