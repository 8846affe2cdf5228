/-!
# Engine settings
-/

namespace Wasm

structure Config where
  /-- Run prepared operations instead of interpreting bodies. -/
  compile : Bool := true
  maxCallDepth : Nat := 1024
  /-- Bound on memories, on top of their own maximum. -/
  maxMemoryPages : Nat := 65536
  /-- Loop repetitions allowed; `none` is no limit. -/
  fuel : Option Nat := none
deriving DecidableEq

end Wasm
