import Wasm.Format.Token
import Wasm.Syntax.Code
import Wasm.Syntax.Module

/-!
# Expressions

Function bodies are read as structured code and then laid out flat. Constant
expressions are a few instructions up to an end mark.

Every token takes at least one byte, so the number of bytes left bounds the
number of tokens; the readers count it down.
-/

namespace Wasm.Format.Reader

/-- The mark that ended a sequence. -/
inductive Mark where
  | else_
  | end_
deriving DecidableEq

/-- A branch may leave at most the open blocks and the function. -/
def checkDepths (open_ : Nat) : List UInt32 → Reader Unit
  | [] => return
  | depth :: rest => do
    if open_ < depth.toNat then throw (.indexOutOfRange .label depth (open_ + 1))
    checkDepths open_ rest

/-- What the end of the bytes inside code means. -/
def cutShort (open_ : Nat) : Malformation :=
  if open_ = 0 then .missingEnd else .unmatchedBlock

/-- Code up to the mark that ends its sequence, inside `open_` blocks. An
    else mark ends it only where `mayElse` says so, that is in the first arm
    of an `if_`. -/
def code : (bound : Nat) → (open_ : Nat) → (mayElse : Bool) → Reader (Code × Mark)
  | 0, open_, _ => malformed (cutShort open_)
  | bound + 1, open_, mayElse => do
    if ← atEnd then malformed (cutShort open_)
    else match ← token with
      | .end_ => return (.nil, .end_)
      | .else_ => if mayElse then return (.nil, .else_) else malformed .strayElse
      | .plain i =>
        checkDepths open_ i.depths
        let (rest, mark) ← code bound open_ mayElse
        return (.plain i rest, mark)
      | .block type =>
        let (body, _) ← code bound (open_ + 1) false
        let (rest, mark) ← code bound open_ mayElse
        return (.block type body rest, mark)
      | .loop type =>
        let (body, _) ← code bound (open_ + 1) false
        let (rest, mark) ← code bound open_ mayElse
        return (.loop type body rest, mark)
      | .if_ type =>
        match ← code bound (open_ + 1) true with
        | (body, .end_) =>
          let (rest, mark) ← code bound open_ mayElse
          return (.ifThen type body rest, mark)
        | (body, .else_) =>
          let (otherwise, _) ← code bound (open_ + 1) false
          let (rest, mark) ← code bound open_ mayElse
          return (.ifElse type body otherwise rest, mark)

/-- The code of a function, up to the end mark that closes it. -/
def functionCode : Reader Code :=
  return (← code (← remaining) 0 false).1

/-- The instruction of a constant expression, if it is one. -/
def constInstr? : Plain → Option ConstInstr
  | .const v => some (.const v)
  | .globalGet index => some (.globalGet index)
  | _ => none

def constInstrs : (bound : Nat) → (acc : List ConstInstr) → Reader ConstExpr
  | 0, _ => do throw (.unexpectedEnd (← get).stop)
  | bound + 1, acc => do
    match ← token with
    | .end_ => return acc.reverse
    | .plain i =>
      match constInstr? i with
      | some c => constInstrs bound (c :: acc)
      | none => malformed .nonConstant
    | _ => malformed .nonConstant

def constExpr : Reader ConstExpr := do
  constInstrs ((← remaining) + 1) []

end Wasm.Format.Reader
