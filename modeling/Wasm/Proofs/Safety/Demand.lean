import Wasm.Instance

/-!
# Demands

What running code relies on without a check of its own: that an index or a
range lies inside its array, that sums and products fit a word of 64 bits, that
a difference is not negative and that a division is defined. `Machine.demands`
lists what the next step of a machine relies on, and `Link.demands` what
linking does; where the code checks first, there is a demand only if the check
passes.
-/

namespace Wasm

inductive Demand where
  /-- An entry of an array. -/
  | index (i size : Nat)
  /-- The entries of an array from `start` up to `stop`. -/
  | range (start stop size : Nat)
  | sum (a b : Nat)
  | product (a b : Nat)
  | difference (a b : Nat)
  /-- A division or a remainder. -/
  | quotient (w : Nat) (op : IntBinary) (a b : BitVec w)

namespace Demand

def Met : Demand → Prop
  | index i size => i < size
  | range start stop size => start ≤ stop ∧ stop ≤ size
  | sum a b => a + b < UInt64.size
  | product a b => a * b < UInt64.size
  | difference a b => b ≤ a
  | quotient w op a b => b ≠ 0#w ∧ ¬(op = .divS ∧ a = BitVec.intMin w ∧ b = -1#w)

instance : DecidablePred Met
  | index i size => inferInstanceAs (Decidable (i < size))
  | range start stop size => inferInstanceAs (Decidable (start ≤ stop ∧ stop ≤ size))
  | sum a b => inferInstanceAs (Decidable (a + b < UInt64.size))
  | product a b => inferInstanceAs (Decidable (a * b < UInt64.size))
  | difference a b => inferInstanceAs (Decidable (b ≤ a))
  | quotient w op a b =>
    inferInstanceAs (Decidable (b ≠ 0#w ∧ ¬(op = .divS ∧ a = BitVec.intMin w ∧ b = -1#w)))

-- ---------------------------------------------------------------------------
-- Operands and labels
-- ---------------------------------------------------------------------------

/-- Dropping the operands between the bottom `height` and the top `arity`. -/
def ofUnwind (stack : List Value) (height arity : Nat) : List Demand :=
  .sum height arity ::
    if stack.length < height + arity then []
    else [.difference stack.length arity, .range height (stack.length - arity) stack.length]

def ofBranch (c : Context) (depth : Nat) : List Demand :=
  match c.labels[depth]? with
  | none => []
  | some label =>
    [.difference c.labels.length 1, .difference (c.labels.length - 1) depth,
      .index (c.labels.length - 1 - depth) c.labels.length] ++
      ofUnwind c.stack label.height label.arity

def ofClose (c : Context) : List Demand :=
  match c.labels with
  | [] => []
  | label :: _ => ofUnwind c.stack label.height label.results

-- ---------------------------------------------------------------------------
-- Memory and arithmetic
-- ---------------------------------------------------------------------------

/-- Reading or writing `n` bytes. -/
def ofAccess (s : Store) (base : BitVec 32) (offset : UInt32) (n : Nat) : List Demand :=
  let address := Memory.effectiveAddress base offset
  match s.memory? with
  | none => []
  | some m =>
    [.sum base.toNat offset.toNat, .sum address n] ++
      if m.fits address n then [.range address (address + n) m.size] else []

def ofGrow (s : Store) (delta : BitVec 32) : List Demand :=
  match s.memory? with
  | none => []
  | some m =>
    if m.pages + delta.toNat ≤ m.bound s.pageLimit then
      [.product (m.pages + delta.toNat) pageSize]
    else []

/-- A division is carried out unless it traps. -/
def ofBinary {w : Nat} (op : IntBinary) (a b : BitVec w) : List Demand :=
  match op, op.eval a b with
  | .divS, .ok _ | .divU, .ok _ | .remS, .ok _ | .remU, .ok _ => [.quotient w op a b]
  | _, _ => []

/-- With the operand on top, where it is an `i32`. -/
def onAddress (stack : List Value) (demands : BitVec 32 → List Demand) : List Demand :=
  match stack with
  | .i32 a :: _ => demands a
  | _ => []

/-- With the two operands on top, where they are integers of that width. -/
def onInts (w : Width) (stack : List Value)
    (demands : BitVec w.bits → BitVec w.bits → List Demand) : List Demand :=
  match stack with
  | b :: a :: _ =>
    match a.toInt w, b.toInt w with
    | .ok a, .ok b => demands a b
    | _, _ => []
  | _ => []

end Demand

open Demand (ofUnwind ofBranch ofClose ofAccess ofGrow ofBinary onAddress onInts)

def Plain.demands (c : Context) : Plain → List Demand
  | .localGet index | .localSet index | .localTee index => [.index index.toNat c.locals.size]
  | .globalGet index | .globalSet index => [.index index.toNat c.store.globals.size]
  | .load kind arg => onAddress c.stack (ofAccess c.store · arg.offset kind.bytes)
  | .store kind arg => onAddress c.stack.tail (ofAccess c.store · arg.offset kind.bytes)
  | .memoryGrow => onAddress c.stack (ofGrow c.store)
  | .intBinary w op => onInts w c.stack (ofBinary op)
  | _ => []

/-- The positions an instruction names. -/
def Instr.positions : Instr → List Nat
  | .block _ stop | .else_ stop => [stop]
  | .if_ _ otherwise stop => otherwise.toList ++ [stop]
  | _ => []

-- ---------------------------------------------------------------------------
-- Machines
-- ---------------------------------------------------------------------------

namespace Machine

variable {σ : Type} (env : Env σ) (m : Machine σ)

/-- Leaving the innermost frame. -/
def leaveDemands (frame : Frame) : List Demand :=
  .difference m.depth 1 :: ofUnwind m.stack frame.height frame.arity

/-- Calling a function. Code is prepared as a whole when it is first called. -/
def callDemands (func : UInt32) : List Demand :=
  match m.store.funcs[func.toNat]? with
  | none => []
  | some (.host _ _ _ slot) => [.index slot env.hosts.size]
  | some (.defined _ code) =>
    if m.depth < env.config.maxCallDepth then
      let body := (env.module.functions[code]?.map (·.body)).getD #[]
      [.sum m.depth 1, .index func.toNat m.store.funcs.size] ++
        (body.toList.flatMap Instr.positions).map (.sum · 1)
    else []

/-- Carrying out what a plain instruction announced. -/
def effectDemands (frame : Frame) : Effect → List Demand
  | .next => []
  | .branch depth =>
    ofBranch (m.context frame) depth.toNat ++
      if frame.labels.length ≤ depth.toNat then m.leaveDemands frame else []
  | .call func => m.callDemands env func
  | .return_ => m.leaveDemands frame

/-- An instruction of the innermost frame. -/
def instrDemands (frame : Frame) (rest : List Frame) : Instr → List Demand
  | .plain i =>
    i.demands (m.context frame) ++
      match i.exec env.module.types (m.context frame) with
      | .ok effect c =>
        (m.resume frame rest c).effectDemands env
          { frame with locals := c.locals, labels := c.labels } effect
      | .error _ _ => []
  | .loop _ => [.difference (frame.pc + 1) 1]
  | .end_ => ofClose (m.context frame) ++ if frame.labels.isEmpty then m.leaveDemands frame else []
  | i => i.positions.map (.sum · 1)

/-- The instruction a frame is at, by the function it runs. -/
def instr? (frame : Frame) : Option Instr :=
  match m.store.funcs[frame.func.toNat]? with
  | some (.defined _ code) => env.module.instr? code frame.pc
  | _ => none

/-- What the next step relies on. -/
def demands : List Demand :=
  match m.frames with
  | [] => []
  | frame :: rest =>
    match m.instr? env frame with
    | none => m.leaveDemands frame
    | some i => .sum frame.pc 1 :: m.instrDemands env frame rest i

end Machine

-- ---------------------------------------------------------------------------
-- Linking
-- ---------------------------------------------------------------------------

namespace Link

/-- Writing element segments one after the other; each needs the slots of its
    table from its offset on. -/
def elementDemands : List ElementSegment → Store → List Demand
  | [], _ => []
  | e :: es, s =>
    (match s.tables[e.table.toNat]? with
      | some t => [.range (offset s e.offset) t.slots.size t.slots.size]
      | none => []) ++ elementDemands es (putElement s e)

/-- Writing data segments one after the other. -/
def dataDemands : List DataSegment → Store → List Demand
  | [], _ => []
  | d :: ds, s =>
    (match s.memories[d.memory.toNat]? with
      | some memory =>
        [.range (offset s d.offset) (offset s d.offset + d.bytes.length) memory.size]
      | none => []) ++ dataDemands ds (putData s d)

/-- What laying out a store relies on, from the store without segments on. -/
def demands (m : Module) (s : Store) : List Demand :=
  m.memories.toList.map (fun limits => .product limits.min.toNat pageSize) ++
    m.elements.toList.map (fun e => .sum (offset s e.offset) e.funcs.length) ++
    m.data.toList.map (fun d => .sum (offset s d.offset) d.bytes.length) ++
    if m.elements.all (elementFits s) && m.data.all (dataFits s) then
      elementDemands m.elements.toList s ++
        dataDemands m.data.toList (m.elements.foldl putElement s)
    else []

end Link

/-- What linking a module relies on, once its imports are resolved. -/
def Module.linkDemands {σ : Type} (m : Module) (imports : Imports σ) (config : Config) :
    List Demand :=
  let store : Store := { fuel := config.fuel, pageLimit := config.maxMemoryPages }
  match m.imports.foldlM (Link.resolve m.types imports) { store, hosts := #[] } with
  | .ok l => Link.demands m (Link.define m l.store)
  | .error _ => []

end Wasm
