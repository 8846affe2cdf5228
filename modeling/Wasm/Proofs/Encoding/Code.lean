import Wasm.Proofs.Encoding.Reading
import Wasm.Proofs.Format.Decoded

/-!
# Encoded code

The bytes of instructions. A flat body is written instruction by instruction;
the positions that its blocks carry are not written, since reading finds them
again. The code of a body can be read back if every branch stays inside the
body.
-/

namespace Wasm

-- ---------------------------------------------------------------------------
-- Opcodes
-- ---------------------------------------------------------------------------

/-- Place among the loads. -/
def LoadKind.place : LoadKind → UInt8
  | i32 => 0
  | i64 => 1
  | f32 => 2
  | f64 => 3
  | i32S8 => 4
  | i32U8 => 5
  | i32S16 => 6
  | i32U16 => 7
  | i64S8 => 8
  | i64U8 => 9
  | i64S16 => 10
  | i64U16 => 11
  | i64S32 => 12
  | i64U32 => 13

/-- Place among the stores. -/
def StoreKind.place : StoreKind → UInt8
  | i32 => 0
  | i64 => 1
  | f32 => 2
  | f64 => 3
  | i32N8 => 4
  | i32N16 => 5
  | i64N8 => 6
  | i64N16 => 7
  | i64N32 => 8

/-- Place among the comparisons of one width. -/
def IntCompare.place : IntCompare → UInt8
  | eq => 0
  | ne => 1
  | ltS => 2
  | ltU => 3
  | gtS => 4
  | gtU => 5
  | leS => 6
  | leU => 7
  | geS => 8
  | geU => 9

/-- Place among the operations of one width. -/
def IntBinary.place : IntBinary → UInt8
  | add => 0
  | sub => 1
  | mul => 2
  | divS => 3
  | divU => 4
  | remS => 5
  | remU => 6
  | and => 7
  | or => 8
  | xor => 9
  | shl => 10
  | shrS => 11
  | shrU => 12
  | rotl => 13
  | rotr => 14

def FloatCompare.place : FloatCompare → UInt8
  | eq => 0
  | ne => 1
  | lt => 2
  | gt => 3
  | le => 4
  | ge => 5

def FloatUnary.place : FloatUnary → UInt8
  | abs => 0
  | neg => 1
  | ceil => 2
  | floor => 3
  | trunc => 4
  | nearest => 5
  | sqrt => 6

def FloatBinary.place : FloatBinary → UInt8
  | add => 0
  | sub => 1
  | mul => 2
  | div => 3
  | min => 4
  | max => 5
  | copysign => 6

/-- The first of two neighbours is signed. -/
def Sign.place : Sign → UInt8
  | signed => 0
  | unsigned => 1

def Conversion.byte : Conversion → UInt8
  | wrap => 0xA7
  | trunc .w32 .w32 sign => 0xA8 + sign.place
  | trunc .w32 .w64 sign => 0xAA + sign.place
  | extend sign => 0xAC + sign.place
  | trunc .w64 .w32 sign => 0xAE + sign.place
  | trunc .w64 .w64 sign => 0xB0 + sign.place
  | convert .w32 .w32 sign => 0xB2 + sign.place
  | convert .w32 .w64 sign => 0xB4 + sign.place
  | demote => 0xB6
  | convert .w64 .w32 sign => 0xB7 + sign.place
  | convert .w64 .w64 sign => 0xB9 + sign.place
  | promote => 0xBB
  | toBits .w32 => 0xBC
  | toBits .w64 => 0xBD
  | ofBits .w32 => 0xBE
  | ofBits .w64 => 0xBF

/-- The extensions stand apart from the other operations. The widest has a
    byte for 64 bits only. -/
def IntUnary.byte : Width → IntUnary → UInt8
  | .w32, clz => 0x67
  | .w32, ctz => 0x68
  | .w32, popcnt => 0x69
  | .w64, clz => 0x79
  | .w64, ctz => 0x7A
  | .w64, popcnt => 0x7B
  | .w32, extend8S => 0xC0
  | .w32, extend16S => 0xC1
  | .w64, extend8S => 0xC2
  | .w64, extend16S => 0xC3
  | _, extend32S => 0xC4

namespace Format

def Opcode.byte : Opcode → UInt8
  | unreachable => 0x00
  | nop => 0x01
  | block => 0x02
  | loop => 0x03
  | if_ => 0x04
  | else_ => 0x05
  | end_ => 0x0B
  | br => 0x0C
  | brIf => 0x0D
  | brTable => 0x0E
  | return_ => 0x0F
  | call => 0x10
  | callIndirect => 0x11
  | drop => 0x1A
  | select => 0x1B
  | localGet => 0x20
  | localSet => 0x21
  | localTee => 0x22
  | globalGet => 0x23
  | globalSet => 0x24
  | load kind => 0x28 + kind.place
  | store kind => 0x36 + kind.place
  | memorySize => 0x3F
  | memoryGrow => 0x40
  | const .i32 => 0x41
  | const .i64 => 0x42
  | const .f32 => 0x43
  | const .f64 => 0x44
  | intEqz .w32 => 0x45
  | intCompare .w32 op => 0x46 + op.place
  | intEqz .w64 => 0x50
  | intCompare .w64 op => 0x51 + op.place
  | floatCompare .w32 op => 0x5B + op.place
  | floatCompare .w64 op => 0x61 + op.place
  | intUnary w op => op.byte w
  | intBinary .w32 op => 0x6A + op.place
  | intBinary .w64 op => 0x7C + op.place
  | floatUnary .w32 op => 0x8B + op.place
  | floatBinary .w32 op => 0x92 + op.place
  | floatUnary .w64 op => 0x99 + op.place
  | floatBinary .w64 op => 0xA0 + op.place
  | convert op => op.byte

/-- An opcode is known by its byte. -/
theorem Opcode.ofByte?_byte {op : Opcode} (h : op ≠ .intUnary .w32 .extend32S) :
    ofByte? op.byte = some op := by
  cases op with
  | load kind | store kind => cases kind <;> decide +kernel
  | const t => cases t <;> decide +kernel
  | intEqz w => cases w <;> decide +kernel
  | intCompare w op | intBinary w op | floatCompare w op | floatUnary w op | floatBinary w op =>
    cases w <;> cases op <;> decide +kernel
  | intUnary w op =>
    cases w <;> cases op <;> first
      | decide +kernel
      | exact absurd rfl h
  | convert op =>
    cases op with
    | trunc a b sign | convert a b sign => cases a <;> cases b <;> cases sign <;> decide +kernel
    | extend sign => cases sign <;> decide +kernel
    | toBits w | ofBits w => cases w <;> decide +kernel
    | wrap | demote | promote => decide +kernel
  | _ => decide +kernel

end Format

-- ---------------------------------------------------------------------------
-- Instructions
-- ---------------------------------------------------------------------------

def MemArg.encode (arg : MemArg) : List UInt8 :=
  Leb128.encode arg.align.toNat ++ Leb128.encode arg.offset.toNat

def Value.encode : Value → List UInt8
  | i32 x => Leb128.encodeSigned x.toInt
  | i64 x => Leb128.encodeSigned x.toInt
  | f32 x => LittleEndian.encode 4 x.toNat
  | f64 x => LittleEndian.encode 8 x.toNat

def Plain.opcode : Plain → Format.Opcode
  | unreachable => .unreachable
  | nop => .nop
  | br _ => .br
  | brIf _ => .brIf
  | brTable _ _ => .brTable
  | return_ => .return_
  | call _ => .call
  | callIndirect _ _ => .callIndirect
  | drop => .drop
  | select => .select
  | localGet _ => .localGet
  | localSet _ => .localSet
  | localTee _ => .localTee
  | globalGet _ => .globalGet
  | globalSet _ => .globalSet
  | load kind _ => .load kind
  | store kind _ => .store kind
  | memorySize => .memorySize
  | memoryGrow => .memoryGrow
  | const v => .const v.type
  | intEqz w => .intEqz w
  | intCompare w op => .intCompare w op
  | intUnary w op => .intUnary w op
  | intBinary w op => .intBinary w op
  | floatCompare w op => .floatCompare w op
  | floatUnary w op => .floatUnary w op
  | floatBinary w op => .floatBinary w op
  | convert op => .convert op

/-- What is written after the opcode. -/
def Plain.immediates : Plain → List UInt8
  | br n | brIf n | call n | localGet n | localSet n | localTee n | globalGet n | globalSet n =>
    Leb128.encode n.toNat
  | brTable targets default =>
    Format.encodeIndices targets.toList ++ Leb128.encode default.toNat
  | callIndirect type table => Leb128.encode type.toNat ++ Leb128.encode table.toNat
  | load _ arg | store _ arg => arg.encode
  | memorySize | memoryGrow => [0x00]
  | const v => v.encode
  | _ => []

def Plain.encode (i : Plain) : List UInt8 := i.opcode.byte :: i.immediates

def Instr.encode : Instr → List UInt8
  | plain i => i.encode
  | block type _ => Format.Opcode.block.byte :: type.encode
  | loop type => Format.Opcode.loop.byte :: type.encode
  | if_ type _ _ => Format.Opcode.if_.byte :: type.encode
  | else_ _ => [Format.Opcode.else_.byte]
  | end_ => [Format.Opcode.end_.byte]

theorem Instr.encode_ne_nil (i : Instr) : i.encode ≠ [] := by
  cases i <;> exact List.cons_ne_nil _ _

/-- The instruction has bytes, and not more than can be counted. -/
structure Instr.Encodable (i : Instr) : Prop where
  hasByte : i ≠ .plain (.intUnary .w32 .extend32S)
  small : i.encode.length < UInt32.size

namespace Format.Reader

theorem reads_constant (v : Value) : Reads (constant v.type) v.encode v := by
  cases v with
  | i32 x =>
    have hlo := x.le_toInt
    have hhi := x.toInt_lt
    have hread := (@reads_signed x.toInt 32 4 2147483648 rfl (by decide) rfl
      (by omega) (by omega)).map fun n => Value.i32 (BitVec.ofInt 32 n)
    rw [BitVec.ofInt_toInt] at hread
    exact hread
  | i64 x =>
    have hlo := x.le_toInt
    have hhi := x.toInt_lt
    have hread := (@reads_signed x.toInt 64 9 9223372036854775808 rfl (by decide) rfl
      (by omega) (by omega)).map fun n => Value.i64 (BitVec.ofInt 64 n)
    rw [BitVec.ofInt_toInt] at hread
    exact hread
  | f32 x =>
    have hread := (@reads_word 4 x.toNat x.isLt).map fun n => Value.f32 (BitVec.ofNat 32 n)
    rw [BitVec.ofNat_toNat, BitVec.setWidth_eq] at hread
    exact hread
  | f64 x =>
    have hread := (@reads_word 8 x.toNat x.isLt).map fun n => Value.f64 (BitVec.ofNat 64 n)
    rw [BitVec.ofNat_toNat, BitVec.setWidth_eq] at hread
    exact hread

theorem reads_immediates {i : Plain} (h : i.immediates.length < UInt32.size) :
    Reads (immediates i.opcode) i.immediates (.plain i) := by
  cases i with
  | br n | brIf n | call n | localGet n | localSet n | localTee n | globalGet n | globalSet n =>
    exact (reads_u32 n).map _
  | brTable targets default =>
    have htargets : (encodeIndices targets.toList).length < UInt32.size :=
      Nat.lt_of_le_of_lt (List.sublist_append_left _ _).length_le h
    exact (reads_indices htargets).bind ((reads_u32 default).map _)
  | callIndirect type table => exact (reads_u32 type).bind ((reads_u32 table).map _)
  | load kind arg | store kind arg =>
    have harg : Reads memArg arg.encode arg :=
      (reads_u32 arg.align).bind ((reads_u32 arg.offset).map _)
    exact harg.map _
  | memorySize | memoryGrow =>
    have hzero : Reads zeroByte [0x00] () := Reads.byte (Reads.pure ())
    exact hzero.map fun _ => _
  | const v => exact (reads_constant v).map _
  | _ => exact Reads.pure _

theorem reads_opcode {op : Opcode} {bytes : List UInt8} {t : Token}
    (hop : op ≠ .intUnary .w32 .extend32S) (h : Reads (immediates op) bytes t) :
    Reads token (op.byte :: bytes) t := by
  refine Reads.of_offset fun offset => Reads.byte ?_
  rw [Opcode.ofByte?_byte hop]
  exact h

theorem reads_plain {i : Plain} (h : (Instr.plain i).Encodable) :
    Reads token i.encode (.plain i) := by
  refine reads_opcode ?_ (reads_immediates (Nat.lt_of_succ_lt h.small))
  intro hop
  cases i <;> cases hop
  exact h.hasByte rfl

end Format.Reader

-- ---------------------------------------------------------------------------
-- Code
-- ---------------------------------------------------------------------------

open Format in
/-- The bytes of code, which do not depend on where it is laid out. -/
def Code.encode : Code → List UInt8
  | nil => []
  | plain i rest => i.encode ++ rest.encode
  | block type body rest =>
    (Opcode.block.byte :: type.encode) ++ ((body.encode ++ [Opcode.end_.byte]) ++ rest.encode)
  | loop type body rest =>
    (Opcode.loop.byte :: type.encode) ++ ((body.encode ++ [Opcode.end_.byte]) ++ rest.encode)
  | ifThen type body rest =>
    (Opcode.if_.byte :: type.encode) ++ ((body.encode ++ [Opcode.end_.byte]) ++ rest.encode)
  | ifElse type body otherwise rest =>
    (Opcode.if_.byte :: type.encode) ++ ((body.encode ++ [Opcode.else_.byte]) ++
      ((otherwise.encode ++ [Opcode.end_.byte]) ++ rest.encode))

theorem Code.flatMap_layout (c : Code) (at_ : Nat) :
    (c.layout at_).flatMap Instr.encode = c.encode := by
  induction c generalizing at_ with
  | nil => rfl
  | plain i rest ih => simp [layout, encode, Instr.encode, ih]
  | block _ body rest ihb ihr => simp [layout, encode, Instr.encode, ihb, ihr]
  | loop _ body rest ihb ihr => simp [layout, encode, Instr.encode, ihb, ihr]
  | ifThen _ body rest ihb ihr => simp [layout, encode, Instr.encode, ihb, ihr]
  | ifElse _ body otherwise rest ihb iho ihr => simp [layout, encode, Instr.encode, ihb, iho, ihr]

namespace Format.Reader

theorem reads_else : Reads token [Opcode.else_.byte] .else_ := reads_opcode nofun (Reads.pure _)

theorem reads_end : Reads token [Opcode.end_.byte] .end_ := reads_opcode nofun (Reads.pure _)

def Mark.byte : Mark → UInt8
  | else_ => Opcode.else_.byte
  | end_ => Opcode.end_.byte

theorem reads_mark (mark : Mark) : Reads token [mark.byte] mark.token := by
  cases mark with
  | else_ => exact reads_else
  | end_ => exact reads_end

theorem reads_instr {i : Instr} (h : i.Encodable) : Reads token i.encode i.token := by
  cases i with
  | plain i => exact reads_plain h
  | block type | loop type | if_ type => exact reads_opcode nofun ((reads_blockType type).map _)
  | else_ => exact reads_else
  | end_ => exact reads_end

theorem row_of_reads {is : List Instr} (h : ∀ i ∈ is, i.Encodable) (rest : List UInt8)
    (offset : Nat) :
    Row ⟨is.flatMap Instr.encode ++ rest, offset⟩ (is.map Instr.token)
      ⟨rest, offset + (is.flatMap Instr.encode).length⟩ := by
  induction is generalizing offset with
  | nil => exact .nil _
  | cons i is ih =>
    obtain ⟨hi, his⟩ := List.forall_mem_cons.mp h
    have hread := reads_instr hi (is.flatMap Instr.encode ++ rest) offset
    have hrow := ih his (offset + i.encode.length)
    rw [← List.append_assoc, ← List.flatMap_cons] at hread
    rw [Nat.add_assoc, ← List.length_append, ← List.flatMap_cons] at hrow
    exact .cons hread hrow

theorem checkDepths_of_le {open_ : Nat} {depths : List UInt32}
    (h : ∀ depth ∈ depths, depth.toNat ≤ open_) (w : Window) :
    checkDepths open_ depths w = .ok () w := by
  induction depths with
  | nil => rfl
  | cons depth rest ih =>
    have hdepth := h depth List.mem_cons_self
    rw [checkDepths, if_neg (by omega)]
    exact ih fun d hd => h d (List.mem_cons_of_mem depth hd)

/-- A reader that first makes sure that there is a token. -/
theorem unlessEnd_token {α : Type} {ended : Reader α} {k : Token → Reader α} {w v w' : Window}
    {t : Token} {a : α} (ht : token w = .ok t v) (hk : k t v = .ok a w') :
    (do if ← atEnd then ended else token >>= k) w = .ok a w' := by
  have hbytes := takes_token ht
  have hmore : atEnd w = .ok false w := by
    rw [atEnd, get_bind]
    cases hw : w.bytes with
    | nil => simp [hw] at hbytes
    | cons b bytes => rfl
  exact bind_eq_ok_iff.mpr ⟨false, w, hmore, bind_eq_ok_iff.mpr ⟨t, v, ht, hk⟩⟩

/-- Structured code is read from its tokens, up to the mark that ends it. -/
theorem code_of_row {c : Code} {bound open_ : Nat} {mayElse : Bool} {mark : Mark} {w w' : Window}
    (hrow : Row w (c.tokens ++ [mark.token]) w') (hsize : c.size < bound)
    (hscoped : c.Scoped open_) (hmark : mark = .else_ → mayElse = true) :
    code bound open_ mayElse w = .ok (c, mark) w' := by
  -- Along the bound, as the reader goes; it is the same for the parts of a construct.
  induction bound generalizing c open_ mayElse mark w w' with
  | zero => exact absurd hsize (Nat.not_lt_zero _)
  | succ bound ih =>
    have hend : Mark.end_ = .else_ → false = true := nofun
    cases c with
    | nil =>
      obtain ⟨v, ht, hnil⟩ := Row.cons_iff.mp hrow
      cases hnil
      cases mark with
      | end_ => exact unlessEnd_token ht rfl
      | else_ =>
        cases hmark rfl
        exact unlessEnd_token ht rfl
    | plain i rest =>
      simp only [Code.size] at hsize
      obtain ⟨v, ht, hrow⟩ := Row.cons_iff.mp hrow
      have hrest := ih hrow (by omega) hscoped.2 hmark
      refine unlessEnd_token ht (bind_eq_ok_iff.mpr ⟨(), v, checkDepths_of_le hscoped.1 v, ?_⟩)
      exact bind_eq_ok_iff.mpr ⟨_, _, hrest, rfl⟩
    | block type body rest | loop type body rest =>
      simp only [Code.size] at hsize
      obtain ⟨v, v', ht, hbody, hrow⟩ := Row.enclosed_iff.mp hrow
      have hbody : code bound (open_ + 1) false v = .ok (body, .end_) v' :=
        ih hbody (by omega) hscoped.1 hend
      have hrest := ih hrow (by omega) hscoped.2 hmark
      refine unlessEnd_token ht (bind_eq_ok_iff.mpr ⟨_, _, hbody, ?_⟩)
      exact bind_eq_ok_iff.mpr ⟨_, _, hrest, rfl⟩
    | ifThen type body rest =>
      simp only [Code.size] at hsize
      obtain ⟨v, v', ht, hbody, hrow⟩ := Row.enclosed_iff.mp hrow
      -- An else mark could stand here, but does not.
      have hbody : code bound (open_ + 1) true v = .ok (body, .end_) v' :=
        ih hbody (by omega) hscoped.1 nofun
      have hrest := ih hrow (by omega) hscoped.2 hmark
      refine unlessEnd_token ht (bind_eq_ok_iff.mpr ⟨_, _, hbody, ?_⟩)
      exact bind_eq_ok_iff.mpr ⟨_, _, hrest, rfl⟩
    | ifElse type body otherwise rest =>
      simp only [Code.size] at hsize
      obtain ⟨v, v', ht, hbody, hrow⟩ := Row.enclosed_iff.mp hrow
      rw [List.append_assoc, List.cons_append, List.append_cons] at hrow
      obtain ⟨v'', hother, hrow⟩ := Row.append_iff.mp hrow
      have hbody : code bound (open_ + 1) true v = .ok (body, .else_) v' :=
        ih hbody (by omega) hscoped.1 fun _ => rfl
      have hother : code bound (open_ + 1) false v' = .ok (otherwise, .end_) v'' :=
        ih hother (by omega) hscoped.2.1 hend
      have hrest := ih hrow (by omega) hscoped.2.2 hmark
      refine unlessEnd_token ht (bind_eq_ok_iff.mpr ⟨_, _, hbody, ?_⟩)
      refine bind_eq_ok_iff.mpr ⟨_, _, hother, ?_⟩
      exact bind_eq_ok_iff.mpr ⟨_, _, hrest, rfl⟩

/-- The code of a function is read from its tokens, which take more bytes than
    it has instructions. -/
theorem functionCode_of_row {c : Code} {w w' : Window} (hrow : Row w (c.tokens ++ [.end_]) w')
    (hscoped : c.Scoped 0) : functionCode w = .ok c w' := by
  have hlength := hrow.length_le
  rw [List.length_append, Code.length_tokens, List.length_singleton] at hlength
  have hcode : code w.bytes.length 0 false w = .ok (c, .end_) w' :=
    code_of_row hrow (by omega) hscoped nofun
  exact bind_eq_ok_iff.mpr ⟨_, w, rfl, bind_eq_ok_iff.mpr ⟨_, _, hcode, rfl⟩⟩

/-- Structured code is read back up to the mark that ends it. -/
theorem reads_code {c : Code} {bound open_ at_ : Nat} {mayElse : Bool} {mark : Mark}
    (hsize : c.size < bound) (hscoped : c.Scoped open_)
    (hencodable : ∀ i ∈ c.layout at_, i.Encodable) (hmark : mark = .else_ → mayElse = true) :
    Reads (code bound open_ mayElse) (c.encode ++ [mark.byte]) (c, mark) := by
  intro rest offset
  have hrow := row_of_reads hencodable ([mark.byte] ++ rest) offset
  rw [Code.map_token_layout, Code.flatMap_layout, ← List.append_assoc] at hrow
  have hlast := Row.single (reads_mark mark rest (offset + c.encode.length))
  rw [Nat.add_assoc, ← List.length_append] at hlast
  exact code_of_row (hrow.append hlast) hsize hscoped hmark

/-- The bytes of a body hold its code, whose size they bound. -/
theorem reads_functionCode {c : Code} (hscoped : c.Scoped 0)
    (hencodable : ∀ i ∈ c.body, i.Encodable) :
    Reads functionCode (c.body.toList.flatMap Instr.encode) c := by
  have hlayout : ∀ i ∈ c.layout 0, i.Encodable := fun i hi => hencodable i (by simp [Code.body, hi])
  have hbytes : c.body.toList.flatMap Instr.encode = c.encode ++ [Mark.end_.byte] := by
    simp [Code.body, Code.flatMap_layout, Instr.encode, Mark.byte]
  have hsize : c.size < (c.body.toList.flatMap Instr.encode).length := by
    have hle := length_le_flatMap Instr.encode_ne_nil c.body.toList
    simp only [Code.body, List.length_append, Code.length_layout, List.length_cons,
      List.length_nil] at hle ⊢
    omega
  have hmark : Mark.end_ = .else_ → false = true := by
    intro h
    cases h
  refine Reads.of_remaining fun n hn => ?_
  rw [hbytes] at hsize hn ⊢
  exact (reads_code (Nat.lt_of_lt_of_le hsize hn) hscoped hlayout hmark).map Prod.fst

end Format.Reader

-- ---------------------------------------------------------------------------
-- Constant expressions
-- ---------------------------------------------------------------------------

def ConstExpr.encode (e : ConstExpr) : List UInt8 :=
  e.flatMap (·.plain.encode) ++ [Format.Opcode.end_.byte]

namespace Format.Reader

theorem reads_constInstrs {e : ConstExpr} {bound : Nat} {acc : List ConstInstr}
    (hsize : e.length < bound) (hencodable : ∀ c ∈ e, (Instr.plain c.plain).Encodable) :
    Reads (constInstrs bound acc) e.encode (acc.reverse ++ e) := by
  induction e generalizing bound acc with
  | nil =>
    cases bound with
    | zero => exact absurd hsize (Nat.not_lt_zero _)
    | succ bound =>
      rw [List.append_nil]
      exact reads_end.last (Reads.pure _)
  | cons c e ih =>
    cases bound with
    | zero => exact absurd hsize (Nat.not_lt_zero _)
    | succ bound =>
      have hfirst := reads_plain (hencodable c List.mem_cons_self)
      have hrest := @ih bound (c :: acc) (Nat.lt_of_succ_lt_succ hsize)
        fun d hd => hencodable d (List.mem_cons_of_mem c hd)
      rw [List.reverse_cons, List.append_assoc] at hrest
      rw [ConstExpr.encode, List.flatMap_cons, List.append_assoc]
      refine hfirst.bind ?_
      cases c with
      | const v => exact hrest
      | globalGet index => exact hrest

theorem reads_constExpr {e : ConstExpr} (h : e.encode.length < UInt32.size) :
    Reads constExpr e.encode e := by
  have hne : ∀ c : ConstInstr, c.plain.encode ≠ [] := fun c => List.cons_ne_nil _ _
  have hcount := length_le_flatMap hne e
  have hlength : e.encode.length = (e.flatMap (·.plain.encode)).length + 1 := List.length_append
  have hencodable : ∀ c ∈ e, (Instr.plain c.plain).Encodable := by
    intro c hc
    have hitem := @length_item_le _ (fun c : ConstInstr => c.plain.encode) e c hc
    refine ⟨?_, ?_⟩
    · cases c <;> nofun
    · exact Nat.lt_of_le_of_lt hitem (by omega)
  refine Reads.of_remaining fun n hn => ?_
  exact reads_constInstrs (by omega) hencodable

end Format.Reader

end Wasm
