import Wasm.Syntax.Instr

/-!
# Structured code and its layout

`Code` is a sequence of instructions as a tree: a block holds its body and is
followed by the rest of its sequence. `Code.layout` writes the tree as the
flat sequence that runs, resolving the position of every `else_` and `end_`.
-/

namespace Wasm

inductive Code where
  | nil
  | plain (i : Plain) (rest : Code)
  | block (type : BlockType) (body rest : Code)
  | loop (type : BlockType) (body rest : Code)
  | ifThen (type : BlockType) (body rest : Code)
  | ifElse (type : BlockType) (body otherwise rest : Code)
deriving DecidableEq

namespace Code

/-- Number of flat instructions, marks included. -/
def size : Code → Nat
  | nil => 0
  | plain _ rest => rest.size + 1
  | block _ body rest | loop _ body rest | ifThen _ body rest => body.size + rest.size + 2
  | ifElse _ body otherwise rest => body.size + otherwise.size + rest.size + 3

/-- The flat form of code whose first instruction stands at position `at_`. -/
def layout : (at_ : Nat) → Code → List Instr
  | _, nil => []
  | p, plain i rest => .plain i :: layout (p + 1) rest
  | p, block type body rest =>
    let stop := p + 1 + body.size
    .block type stop :: layout (p + 1) body ++ .end_ :: layout (stop + 1) rest
  | p, loop type body rest =>
    let stop := p + 1 + body.size
    .loop type :: layout (p + 1) body ++ .end_ :: layout (stop + 1) rest
  | p, ifThen type body rest =>
    let stop := p + 1 + body.size
    .if_ type none stop :: layout (p + 1) body ++ .end_ :: layout (stop + 1) rest
  | p, ifElse type body otherwise rest =>
    let middle := p + 1 + body.size
    let stop := middle + 1 + otherwise.size
    .if_ type (some middle) stop :: layout (p + 1) body ++
      .else_ stop :: layout (middle + 1) otherwise ++ .end_ :: layout (stop + 1) rest

@[simp] theorem length_layout (c : Code) (p : Nat) : (c.layout p).length = c.size := by
  induction c generalizing p with
  | nil => rfl
  | plain i rest ih => simp [layout, size, ih]
  | block _ body rest ihb ihr => simp [layout, size, ihb, ihr]; omega
  | loop _ body rest ihb ihr => simp [layout, size, ihb, ihr]; omega
  | ifThen _ body rest ihb ihr => simp [layout, size, ihb, ihr]; omega
  | ifElse _ body otherwise rest ihb iho ihr => simp [layout, size, ihb, iho, ihr]; omega

/-- A function body: the code and the `end_` that closes it. -/
def body (c : Code) : Array Instr :=
  (c.layout 0 ++ [Instr.end_]).toArray

end Code

end Wasm
