import Wasm.Proofs.Encoding.Code
import Wasm.Proofs.Format.Numbers

/-!
# Spellings

The bytes that spell an instruction: its opcode, and its immediates in any
encoding that their width permits. A row of instructions has as many spellings
as its numbers have paddings, and reading it takes any of them and nothing
else.
-/

namespace Wasm

open Leb128

-- ---------------------------------------------------------------------------
-- Immediates
-- ---------------------------------------------------------------------------

/-- The number a block type is written as. -/
def BlockType.number : BlockType → Int
  | empty => -0x40
  | value .i32 => -1
  | value .i64 => -2
  | value .f32 => -3
  | value .f64 => -4
  | func type => type.toNat

/-- Spells an index, a count or a size. -/
def SpellsIndex (n : UInt32) (bs : List UInt8) : Prop := Encodes .unsigned 32 bs n.toNat

/-- Integers are numbers with a sign; floats are bit patterns. -/
def Value.Spelled : Value → List UInt8 → Prop
  | i32 x, bs => Encodes .signed 32 bs x.toInt
  | i64 x, bs => Encodes .signed 64 bs x.toInt
  | f32 x, bs => bs = LittleEndian.encode 4 x.toNat
  | f64 x, bs => bs = LittleEndian.encode 8 x.toNat

/-- Spells what follows the opcode. -/
def Plain.Immediates : Plain → List UInt8 → Prop
  | br n, bs | brIf n, bs | call n, bs | localGet n, bs | localSet n, bs | localTee n, bs
  | globalGet n, bs | globalSet n, bs => SpellsIndex n bs
  | brTable targets default, bs => ∃ count rows last, bs = count ++ (rows.flatten ++ last) ∧
    Encodes .unsigned 32 count targets.size ∧ List.Forall₂ SpellsIndex targets.toList rows ∧
    SpellsIndex default last
  | callIndirect type table, bs =>
    ∃ xs ys, bs = xs ++ ys ∧ SpellsIndex type xs ∧ SpellsIndex table ys
  | load _ arg, bs | store _ arg, bs =>
    ∃ xs ys, bs = xs ++ ys ∧ SpellsIndex arg.align xs ∧ SpellsIndex arg.offset ys
  | memorySize, bs | memoryGrow, bs => bs = [0x00]
  | const v, bs => v.Spelled bs
  | _, bs => bs = []

namespace Format

namespace Token

def opcode : Token → Opcode
  | plain i => i.opcode
  | block _ => .block
  | loop _ => .loop
  | if_ _ => .if_
  | else_ => .else_
  | end_ => .end_

def Immediates : Token → List UInt8 → Prop
  | plain i, bs => i.Immediates bs
  | block type, bs | loop type, bs | if_ type, bs => Encodes .signed 33 bs type.number
  | else_, bs | end_, bs => bs = []

/-- Spells an instruction. There is one that has no opcode byte of its own. -/
def Spelled (t : Token) (bs : List UInt8) : Prop :=
  t.opcode ≠ .intUnary .w32 .extend32S ∧ ∃ imm, bs = t.opcode.byte :: imm ∧ t.Immediates imm

end Token

/-- Spells instructions one after the other. -/
def Spelling (ts : List Token) (bs : List UInt8) : Prop :=
  ∃ pieces, bs = pieces.flatten ∧ List.Forall₂ Token.Spelled ts pieces

namespace Reader

variable {α β : Type}

-- ---------------------------------------------------------------------------
-- Spellings are read
-- ---------------------------------------------------------------------------

theorem ReadsNumber.reads {r : Reader α} {toInt : α → Int} {sign : Sign} {bits : Nat}
    (h : ∀ w, ReadsNumber r toInt sign bits w) {v : α} {bs : List UInt8}
    (hbs : Encodes sign bits bs (toInt v)) : Reads r bs v :=
  fun rest offset => ((h ⟨bs ++ rest, offset⟩).ok_iff v _).mpr ⟨bs, hbs, rfl, rfl⟩

theorem reads_index {n : UInt32} {bs : List UInt8} (h : SpellsIndex n bs) : Reads u32 bs n :=
  ReadsNumber.reads readsNumber_u32 h

theorem reads_number {bits : Nat} (hbits : 0 < bits) {n : Int} {bs : List UInt8}
    (h : Encodes .signed bits bs n) : Reads (signed bits) bs n :=
  ReadsNumber.reads (readsNumber_signed hbits) h

theorem reads_rows {item : Reader α} {xs : List α} {rows : List (List UInt8)}
    (h : List.Forall₂ (fun x row => Reads item row x) xs rows) (acc : Array α) :
    Reads (items item xs.length acc) rows.flatten (acc ++ xs.toArray) := by
  induction h generalizing acc with
  | nil => simpa [items] using Reads.pure acc
  | @cons x row xs rows hx _ ih =>
    have hread : Reads (items item (xs.length + 1) acc) (row ++ rows.flatten) _ :=
      hx.bind (ih (acc.push x))
    simpa using hread

theorem reads_counted {ns : Array UInt32} {count : List UInt8} {rows : List (List UInt8)}
    (hcount : Encodes .unsigned 32 count ns.size)
    (hrows : List.Forall₂ SpellsIndex ns.toList rows) :
    Reads (vector u32) (count ++ rows.flatten) ns := by
  have hsize : ns.size < UInt32.size := by exact_mod_cast hcount.inRange.2
  have hread : Reads u32 count (UInt32.ofNat ns.size) := by
    refine reads_index ?_
    rwa [SpellsIndex, UInt32.toNat_ofNat_of_lt' hsize]
  have hitems := reads_rows (hrows.imp fun _ _ => reads_index) #[]
  refine hread.bind ?_
  rw [UInt32.toNat_ofNat_of_lt' hsize]
  simpa using hitems

theorem reads_blockNumber {type : BlockType} {bs : List UInt8}
    (h : Encodes .signed 33 bs type.number) : Reads blockType bs type := by
  refine (reads_number (by decide) h).last ?_
  cases type with
  | empty => exact Reads.pure _
  | value t => cases t <;> exact Reads.pure _
  | func type =>
    rw [BlockType.number, if_pos (by omega), Int.toNat_natCast, UInt32.ofNat_toNat]
    exact Reads.pure _

theorem reads_value {v : Value} {bs : List UInt8} (h : v.Spelled bs) :
    Reads (constant v.type) bs v := by
  cases v with
  | i32 x =>
    have hread := (reads_number (by decide) h).map fun n => Value.i32 (BitVec.ofInt 32 n)
    rwa [BitVec.ofInt_toInt] at hread
  | i64 x =>
    have hread := (reads_number (by decide) h).map fun n => Value.i64 (BitVec.ofInt 64 n)
    rwa [BitVec.ofInt_toInt] at hread
  | f32 x => exact h ▸ reads_constant (.f32 x)
  | f64 x => exact h ▸ reads_constant (.f64 x)

theorem reads_pair {f : UInt32 → UInt32 → β} {m n : UInt32} {bs : List UInt8}
    (h : ∃ xs ys, bs = xs ++ ys ∧ SpellsIndex m xs ∧ SpellsIndex n ys) :
    Reads (do
      let x ← u32
      let y ← u32
      return f x y) bs (f m n) := by
  obtain ⟨xs, ys, rfl, hm, hn⟩ := h
  exact (reads_index hm).bind ((reads_index hn).map _)

theorem reads_plainImmediates {i : Plain} {bs : List UInt8} (h : i.Immediates bs) :
    Reads (immediates i.opcode) bs (.plain i) := by
  cases i with
  | br n | brIf n | call n | localGet n | localSet n | localTee n | globalGet n | globalSet n =>
    exact (reads_index h).map _
  | brTable targets default =>
    obtain ⟨count, rows, last, rfl, hcount, hrows, hlast⟩ := h
    rw [← List.append_assoc]
    exact (reads_counted hcount hrows).bind ((reads_index hlast).map _)
  | callIndirect type table => exact reads_pair h
  | load kind arg | store kind arg =>
    have harg : Reads memArg bs arg := reads_pair h
    exact harg.map _
  | memorySize | memoryGrow =>
    have hzero : Reads zeroByte [0x00] () := Reads.byte (Reads.pure ())
    exact h ▸ hzero.map fun _ => _
  | const v => exact (reads_value h).map _
  | _ => exact h ▸ Reads.pure _

theorem reads_token {t : Token} {bs : List UInt8} (h : t.Spelled bs) : Reads token bs t := by
  obtain ⟨hop, imm, rfl, himm⟩ := h
  refine reads_opcode hop ?_
  cases t with
  | plain i => exact reads_plainImmediates himm
  | block type | loop type | if_ type => exact (reads_blockNumber himm).map _
  | else_ | end_ => exact himm ▸ Reads.pure _

-- ---------------------------------------------------------------------------
-- What is read is a spelling
-- ---------------------------------------------------------------------------

/-- The bytes that a successful read takes are in this relation to the value. -/
def Spends (r : Reader α) (G : α → List UInt8 → Prop) : Prop :=
  ∀ ⦃w a w'⦄, r w = .ok a w' → ∃ front, G a front ∧ w.bytes = front ++ w'.bytes

theorem Spends.pure {G : α → List UInt8 → Prop} {a : α} (h : G a []) : Spends (pure a) G := by
  intro w b w' hb
  cases hb
  exact ⟨[], h, rfl⟩

theorem Spends.throw (e : Error) (G : α → List UInt8 → Prop) : Spends (throw e) G := by
  intro w a w' h
  cases h

theorem Spends.bind {r : Reader α} {f : α → Reader β} {G : α → List UInt8 → Prop}
    {H : β → List UInt8 → Prop} (hr : Spends r G)
    (hf : ∀ a xs, G a xs → Spends (f a) fun b ys => H b (xs ++ ys)) : Spends (r >>= f) H := by
  intro w b w' h
  obtain ⟨a, v, ha, hb⟩ := bind_eq_ok_iff.mp h
  obtain ⟨xs, hxs, hv⟩ := hr ha
  obtain ⟨ys, hys, hw'⟩ := hf a xs hxs hb
  exact ⟨xs ++ ys, hys, by rw [hv, hw', List.append_assoc]⟩

theorem Spends.map {r : Reader α} {f : α → β} {G : α → List UInt8 → Prop}
    {H : β → List UInt8 → Prop} (hr : Spends r G) (h : ∀ a bs, G a bs → H (f a) bs) :
    Spends (do return f (← r)) H :=
  hr.bind fun a xs hxs => Spends.pure ((List.append_nil xs).symm ▸ h a xs hxs)

theorem ReadsNumber.spends {r : Reader α} {toInt : α → Int} {sign : Sign} {bits : Nat}
    (h : ∀ w, ReadsNumber r toInt sign bits w) :
    Spends r fun v bs => Encodes sign bits bs (toInt v) := by
  intro w v w' hv
  obtain ⟨gs, hgs, hbytes, -⟩ := ((h w).ok_iff v w').mp hv
  exact ⟨gs, hgs, hbytes⟩

theorem spends_u32 : Spends u32 SpellsIndex := ReadsNumber.spends readsNumber_u32

theorem spends_signed {bits : Nat} (hbits : 0 < bits) :
    Spends (signed bits) fun n bs => Encodes .signed bits bs n :=
  ReadsNumber.spends (readsNumber_signed hbits)

theorem spends_byte : Spends byte fun b bs => bs = [b] := by
  intro w b w' h
  obtain ⟨bytes, offset⟩ := w
  cases bytes with
  | nil => cases h
  | cons c rest =>
    cases h
    exact ⟨[b], rfl, rfl⟩

theorem spends_word (n : Nat) : Spends (word n) fun v bs => bs = LittleEndian.encode n v ∧
    v < LittleEndian.bound n := by
  intro w v w' h
  obtain ⟨bs, u, hbytes, h⟩ := bind_eq_ok_iff.mp h
  cases h
  obtain ⟨inner, u, hframe, h⟩ := bind_eq_ok_iff.mp hbytes
  cases h
  obtain ⟨-, rfl, hw⟩ := frame_eq_ok hframe
  exact ⟨inner.bytes, ⟨(LittleEndian.encode_decode _).symm, LittleEndian.decode_lt _⟩, hw⟩

theorem spends_items {item : Reader α} {G : α → List UInt8 → Prop} (h : Spends item G) (n : Nat)
    (acc : Array α) : Spends (items item n acc) fun as bs => ∃ xs rows, as = acc ++ xs.toArray ∧
      xs.length = n ∧ bs = rows.flatten ∧ List.Forall₂ G xs rows := by
  induction n generalizing acc with
  | zero => exact Spends.pure ⟨[], [], by simp, rfl, rfl, .nil⟩
  | succ n ih =>
    refine h.bind fun x row hx w as w' has => ?_
    obtain ⟨bs, ⟨xs, rows, rfl, rfl, rfl, hrows⟩, hw⟩ := ih (acc.push x) has
    exact ⟨_, ⟨x :: xs, row :: rows, by simp, rfl, rfl, .cons hx hrows⟩, hw⟩

theorem spends_vector : Spends (vector u32) fun ns bs => ∃ count rows, bs = count ++ rows.flatten ∧
    Encodes .unsigned 32 count ns.size ∧ List.Forall₂ SpellsIndex ns.toList rows := by
  refine spends_u32.bind fun n count hcount w as w' has => ?_
  obtain ⟨bs, ⟨xs, rows, rfl, hn, rfl, hrows⟩, hw⟩ := spends_items spends_u32 n.toNat #[] has
  refine ⟨_, ⟨count, rows, rfl, ?_, by simpa using hrows⟩, hw⟩
  simpa [SpellsIndex, hn] using hcount

theorem spends_blockType : Spends blockType fun type bs => Encodes .signed 33 bs type.number := by
  refine (spends_signed (by decide)).bind fun n bs hn => ?_
  have hgive {type : BlockType} (htype : type.number = n) :
      Spends (pure type) fun type ys => Encodes .signed 33 (bs ++ ys) type.number :=
    Spends.pure (by rwa [List.append_nil, htype])
  split
  · rename_i hpos
    have hlt := hn.inRange.2
    refine hgive ?_
    rw [BlockType.number, UInt32.toNat_ofNat_of_lt', Int.toNat_of_nonneg hpos]
    rw [Int.toNat_lt hpos]
    exact_mod_cast hlt
  repeat' split
  all_goals first
    | exact hgive (Eq.symm ‹_›)
    | exact Spends.throw _ _

theorem spends_constant (t : ValueType) :
    Spends (constant t) fun v bs => v.type = t ∧ v.Spelled bs := by
  cases t with
  | i32 =>
    refine (spends_signed (by decide)).map fun n bs hn => ⟨rfl, ?_⟩
    rwa [Value.Spelled, BitVec.toInt_ofInt_eq_self (by decide) hn.inRange.1 hn.inRange.2]
  | i64 =>
    refine (spends_signed (by decide)).map fun n bs hn => ⟨rfl, ?_⟩
    rwa [Value.Spelled, BitVec.toInt_ofInt_eq_self (by decide) hn.inRange.1 hn.inRange.2]
  | f32 =>
    refine (spends_word 4).map fun n bs hn => ⟨rfl, ?_⟩
    have hlt : n < 2 ^ 32 := hn.2
    rw [Value.Spelled, BitVec.toNat_ofNat, Nat.mod_eq_of_lt hlt]
    exact hn.1
  | f64 =>
    refine (spends_word 8).map fun n bs hn => ⟨rfl, ?_⟩
    have hlt : n < 2 ^ 64 := hn.2
    rw [Value.Spelled, BitVec.toNat_ofNat, Nat.mod_eq_of_lt hlt]
    exact hn.1

theorem spends_zeroByte : Spends zeroByte fun _ bs => bs = [0x00] := by
  refine spends_byte.bind fun b bs hb => ?_
  split
  · exact Spends.throw _ _
  · rename_i hzero
    exact Spends.pure (by simp [hb, Decidable.of_not_not hzero])

theorem spends_pair {f : UInt32 → UInt32 → β} {H : β → List UInt8 → Prop}
    (h : ∀ m n xs ys, SpellsIndex m xs → SpellsIndex n ys → H (f m n) (xs ++ ys)) :
    Spends (do
      let m ← u32
      let n ← u32
      return f m n) H :=
  spends_u32.bind fun m xs hm => spends_u32.map fun n ys hn => h m n xs ys hm hn

theorem spends_memArg : Spends memArg fun arg bs =>
    ∃ xs ys, bs = xs ++ ys ∧ SpellsIndex arg.align xs ∧ SpellsIndex arg.offset ys :=
  spends_pair fun _ _ xs ys hm hn => ⟨xs, ys, rfl, hm, hn⟩

/-- The immediates that an opcode is read with are those of an instruction that
    has the opcode. -/
theorem spends_immediates (op : Opcode) :
    Spends (immediates op) fun t bs => t.opcode = op ∧ t.Immediates bs := by
  cases op with
  | block | loop | if_ => exact spends_blockType.map fun _ _ h => ⟨rfl, h⟩
  | br | brIf | call | localGet | localSet | localTee | globalGet | globalSet =>
    exact spends_u32.map fun _ _ h => ⟨rfl, h⟩
  | brTable =>
    refine spends_vector.bind fun ns xs hns => spends_u32.map fun n ys hn => ⟨rfl, ?_⟩
    obtain ⟨count, rows, rfl, hcount, hrows⟩ := hns
    exact ⟨count, rows, ys, List.append_assoc _ _ _, hcount, hrows, hn⟩
  | callIndirect => exact spends_pair fun _ _ xs ys hm hn => ⟨rfl, xs, ys, rfl, hm, hn⟩
  | load | store => exact spends_memArg.map fun _ _ h => ⟨rfl, h⟩
  | memorySize | memoryGrow => exact spends_zeroByte.map fun _ _ h => ⟨rfl, h⟩
  | const t => exact (spends_constant t).map fun _ _ h => ⟨congrArg Opcode.const h.1, h.2⟩
  | _ => exact Spends.pure ⟨rfl, rfl⟩

end Reader

/-- A byte has one opcode. -/
theorem Opcode.byte_of_ofByte? {b : UInt8} {op : Opcode} (h : ofByte? b = some op) :
    op.byte = b ∧ op ≠ .intUnary .w32 .extend32S := by
  have hall : ∀ entry ∈ table,
      entry.2.byte = entry.1 ∧ entry.2 ≠ .intUnary .w32 .extend32S := by decide +kernel
  obtain ⟨front, back, htable, -⟩ := List.lookup_eq_some_iff.mp h
  exact hall (b, op) (by simp [htable])

namespace Reader

theorem Exact.offset_eq {r : Reader α} (h : Exact r) {w w' : Window} {a : α} (hr : r w = .ok a w')
    {taken : List UInt8} (htaken : w.bytes = taken ++ w'.bytes) :
    w'.offset = w.offset + taken.length := by
  have hread := (h.spans hr htaken).reads w'.bytes w.offset
  rw [← htaken] at hread
  have hend : w' = ⟨w'.bytes, w.offset + taken.length⟩ :=
    (EStateM.Result.ok.inj (hr.symm.trans hread)).2
  exact congrArg Window.offset hend

theorem spends_token : Spends token Token.Spelled := by
  intro w t w' h
  obtain ⟨start, v, hstart, h⟩ := bind_eq_ok_iff.mp h
  cases hstart
  refine spends_byte.bind (fun b xs hb => ?_) h
  subst hb
  split
  · rename_i op hop
    intro w t w' h
    obtain ⟨bs, ⟨rfl, himm⟩, hw⟩ := spends_immediates op h
    obtain ⟨hbyte, hne⟩ := Opcode.byte_of_ofByte? hop
    exact ⟨bs, ⟨hne, bs, congrArg (· :: bs) hbyte.symm, himm⟩, hw⟩
  · exact Spends.throw _ _

/-- Rows of instructions are read from their spellings and from nothing else. -/
theorem row_iff {w w' : Window} {ts : List Token} :
    Row w ts w' ↔ ∃ front, Spelling ts front ∧ w.bytes = front ++ w'.bytes ∧
      w'.offset = w.offset + front.length := by
  constructor
  · intro h
    induction h with
    | nil w => exact ⟨[], ⟨[], rfl, .nil⟩, rfl, rfl⟩
    | cons ht _ ih =>
      obtain ⟨bs, hspelled, hbytes⟩ := spends_token ht
      have hoffset := exact_token.offset_eq ht hbytes
      obtain ⟨front, ⟨pieces, rfl, hpieces⟩, hbytes', hoffset'⟩ := ih
      refine ⟨bs ++ pieces.flatten, ⟨bs :: pieces, rfl, .cons hspelled hpieces⟩, ?_, ?_⟩
      · rw [hbytes, hbytes', List.append_assoc]
      · rw [hoffset', hoffset, List.length_append, Nat.add_assoc]
  · rintro ⟨front, ⟨pieces, rfl, hpieces⟩, hbytes, hoffset⟩
    induction hpieces generalizing w with
    | nil =>
      obtain rfl : w = w' := by
        cases w
        cases w'
        simp_all
      exact .nil w
    | @cons t bs ts pieces hspelled _ ih =>
      obtain ⟨bytes, offset⟩ := w
      rw [List.flatten_cons, List.append_assoc] at hbytes
      subst hbytes
      refine .cons (reads_token hspelled _ _) (ih rfl ?_)
      rw [hoffset, List.flatten_cons, List.length_append, Nat.add_assoc]

end Reader

end Format

end Wasm
