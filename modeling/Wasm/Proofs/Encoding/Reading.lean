import Wasm.Format.Section
import Wasm.Proofs.Encoding.Leb128

/-!
# Reading back

A reader reads bytes as a value if it takes exactly these from the front of
whatever it is given and returns the value. Such readers compose along the
bytes. Here are the encodings of numbers, names, vectors and types, each read
back by its reader.
-/

namespace Wasm

/-- Numbers of `n` bytes are below this. -/
def LittleEndian.bound : Nat → Nat
  | 0 => 1
  | n + 1 => 256 * bound n

theorem LittleEndian.decode_lt (bs : List UInt8) : decode bs < bound bs.length := by
  induction bs with
  | nil => exact Nat.one_pos
  | cons b bs ih =>
    have hb := b.toNat_lt
    simp only [decode, List.length_cons, bound]
    omega

theorem LittleEndian.decode_encode_of_lt {n x : Nat} (h : x < bound n) :
    decode (encode n x) = x := by
  induction n generalizing x with
  | zero =>
    simp only [bound] at h
    simp only [encode, decode]
    omega
  | succ n ih =>
    simp only [bound] at h
    rw [encode, decode, ih (by omega), UInt8.toNat_ofNat']
    omega

namespace Format

variable {α β σ : Type}

-- ---------------------------------------------------------------------------
-- Readers
-- ---------------------------------------------------------------------------

/-- The reader takes exactly the bytes, whatever follows them, and returns the
    value. -/
def Reader.Reads (r : Reader α) (bytes : List UInt8) (v : α) : Prop :=
  ∀ rest offset, r ⟨bytes ++ rest, offset⟩ = .ok v ⟨rest, offset + bytes.length⟩

namespace Reader

theorem Reads.pure (v : α) : Reads (pure v) [] v := fun _ _ => rfl

theorem Reads.bind {a : Reader α} {f : α → Reader β} {xs ys : List UInt8} {x : α} {y : β}
    (ha : Reads a xs x) (hf : Reads (f x) ys y) : Reads (a >>= f) (xs ++ ys) y := by
  intro rest offset
  have hfirst := ha (ys ++ rest) offset
  rw [← List.append_assoc] at hfirst
  simp only [Bind.bind, EStateM.bind, hfirst]
  rw [hf, List.length_append, Nat.add_assoc]

/-- A reader after which no more bytes are taken. -/
theorem Reads.last {a : Reader α} {f : α → Reader β} {xs : List UInt8} {x : α} {y : β}
    (ha : Reads a xs x) (hf : Reads (f x) [] y) : Reads (a >>= f) xs y := by
  have hread := ha.bind hf
  rw [List.append_nil] at hread
  exact hread

theorem Reads.map {a : Reader α} {xs : List UInt8} {x : α} (ha : Reads a xs x) (f : α → β) :
    Reads (a >>= fun x => Pure.pure (f x)) xs (f x) := ha.last (Reads.pure (f x))

theorem reads_byte (b : UInt8) : Reads byte [b] b := fun _ _ => rfl

/-- A reader that looks at one byte first. -/
theorem Reads.byte {f : UInt8 → Reader β} {b : UInt8} {ys : List UInt8} {y : β}
    (hf : Reads (f b) ys y) : Reads (byte >>= f) (b :: ys) y := (reads_byte b).bind hf

/-- A reader that looks at its offset first. -/
theorem Reads.of_offset {f : Nat → Reader β} {ys : List UInt8} {y : β}
    (hf : ∀ offset, Reads (f offset) ys y) : Reads (offset >>= f) ys y :=
  fun rest offset => hf offset rest offset

/-- A reader that first counts the bytes, of which there may be more. -/
theorem Reads.of_remaining {f : Nat → Reader β} {ys : List UInt8} {y : β}
    (hf : ∀ n, ys.length ≤ n → Reads (f n) ys y) : Reads (remaining >>= f) ys y := by
  intro rest offset
  have hlength : ys.length ≤ (ys ++ rest).length := by
    rw [List.length_append]
    omega
  exact hf _ hlength rest offset

theorem get_bind (f : Window → Reader β) (w : Window) : (get >>= f) w = f w w := rfl

theorem frame_append (bs rest : List UInt8) (offset : Nat) :
    frame bs.length ⟨bs ++ rest, offset⟩ = .ok ⟨bs, offset⟩ ⟨rest, offset + bs.length⟩ := by
  have hfront : Window.take ⟨bs ++ rest, offset⟩ bs.length = ⟨bs, offset⟩ := by simp [Window.take]
  have hrest : Window.drop ⟨bs ++ rest, offset⟩ bs.length = ⟨rest, offset + bs.length⟩ := by
    simp [Window.drop]
  simp only [frame, get_bind, hfront, hrest, Nat.lt_irrefl, if_false]
  rfl

theorem reads_bytes (bs : List UInt8) : Reads (bytes bs.length) bs bs := by
  intro rest offset
  simp only [bytes, Bind.bind, EStateM.bind, frame_append]
  rfl

theorem reads_word {n x : Nat} (h : x < LittleEndian.bound n) :
    Reads (word n) (LittleEndian.encode n x) x := by
  have hbytes := reads_bytes (LittleEndian.encode n x)
  rw [LittleEndian.length_encode] at hbytes
  have hword := hbytes.map LittleEndian.decode
  rw [LittleEndian.decode_encode_of_lt h] at hword
  exact hword

/-- The reader takes all the bytes there are and returns the value. -/
def ReadsAll (r : Reader α) (bytes : List UInt8) (v : α) : Prop :=
  ∀ offset, r ⟨bytes, offset⟩ = .ok v ⟨[], offset + bytes.length⟩

theorem Reads.all {r : Reader α} {bytes : List UInt8} {v : α} (h : Reads r bytes v) :
    ReadsAll r bytes v := by
  intro offset
  have hread := h [] offset
  rw [List.append_nil] at hread
  exact hread

theorem Reads.bindAll {a : Reader α} {f : α → Reader β} {xs ys : List UInt8} {x : α} {y : β}
    (ha : Reads a xs x) (hf : ReadsAll (f x) ys y) : ReadsAll (a >>= f) (xs ++ ys) y := by
  intro offset
  simp only [Bind.bind, EStateM.bind, ha ys offset]
  rw [hf, List.length_append, Nat.add_assoc]

-- ---------------------------------------------------------------------------
-- Numbers
-- ---------------------------------------------------------------------------

theorem reads_groups {bits : Nat} {fits : UInt8 → Bool} {bs : List UInt8}
    (h : ∀ rest, Leb128.split bits fits (bs ++ rest) = .ok bs) :
    Reads (groups bits fits) bs bs := by
  intro rest offset
  have hrest : Window.drop ⟨bs ++ rest, offset⟩ bs.length = ⟨rest, offset + bs.length⟩ := by
    simp [Window.drop]
  simp only [groups, get_bind, h rest, hrest]
  rfl

theorem reads_size {n : Nat} (h : n < UInt32.size) :
    Reads u32 (Leb128.encode n) (UInt32.ofNat n) := by
  have hgroups := (reads_groups (Leb128.split_encode h)).map Leb128.value
  rw [Leb128.value_encode] at hgroups
  exact hgroups.map UInt32.ofNat

theorem reads_u32 (n : UInt32) : Reads u32 (Leb128.encode n.toNat) n := by
  have hsize := reads_size n.toNat_lt_size
  rw [UInt32.ofNat_toNat] at hsize
  exact hsize

theorem reads_signed {n : Int} {bits k half : Nat} (hlength : Leb128.maxLength bits = k + 1)
    (hlast : 1 <<< (Leb128.lastBits bits - 1) ≤ 64)
    (hhalf : Leb128.span (1 <<< (Leb128.lastBits bits - 1)) k = half) (hlo : -(half : Int) ≤ n)
    (hhi : n < half) : Reads (signed bits) (Leb128.encodeSigned n) n := by
  subst hhalf
  have hgroups := (reads_groups (Leb128.split_encodeSigned hlength hlast hlo hhi)).map
    Leb128.signedValue
  rw [Leb128.signedValue_encodeSigned] at hgroups
  exact hgroups

/-- A signed number of one more bit than an index has. -/
theorem reads_s33 {n : Int} (hlo : -(UInt32.size : Int) ≤ n) (hhi : n < UInt32.size) :
    Reads (signed 33) (Leb128.encodeSigned n) n :=
  @reads_signed n 33 4 UInt32.size rfl (by decide) rfl hlo hhi

-- ---------------------------------------------------------------------------
-- Vectors and names
-- ---------------------------------------------------------------------------

theorem reads_items {item : Reader α} {encode : σ → List UInt8} {value : σ → α} {xs : List σ}
    (h : ∀ x ∈ xs, Reads item (encode x) (value x)) (acc : Array α) :
    Reads (items item xs.length acc) (xs.flatMap encode) (acc ++ xs.map value) := by
  induction xs generalizing acc with
  | nil => simpa [items] using Reads.pure acc
  | cons x xs ih =>
    have hx := h x List.mem_cons_self
    have hxs := ih (fun y hy => h y (List.mem_cons_of_mem x hy)) (acc.push (value x))
    rw [List.flatMap_cons, List.length_cons, items]
    simpa using hx.bind hxs

end Reader

/-- A count and so many items. -/
def encodeVector (encode : α → List UInt8) (xs : List α) : List UInt8 :=
  Leb128.encode xs.length ++ xs.flatMap encode

namespace Reader

theorem length_le_flatMap {encode : α → List UInt8} (h : ∀ x, encode x ≠ []) (xs : List α) :
    xs.length ≤ (xs.flatMap encode).length := by
  induction xs with
  | nil => exact Nat.le_refl _
  | cons x xs ih =>
    have hx : 0 < (encode x).length := List.length_pos_iff.mpr (h x)
    rw [List.flatMap_cons, List.length_append, List.length_cons]
    omega

theorem length_item_le {encode : α → List UInt8} {xs : List α} {x : α} (hx : x ∈ xs) :
    (encode x).length ≤ (xs.flatMap encode).length := by
  obtain ⟨before, after, rfl⟩ := List.append_of_mem hx
  rw [List.flatMap_append, List.flatMap_cons, List.length_append, List.length_append]
  omega

/-- A vector whose items take some bytes, and which is not too long as a whole,
    has no more items than can be counted. What is read of each item need not
    be all of it. -/
theorem reads_vectorOf {item : Reader α} {encode : σ → List UInt8} {value : σ → α} {xs : List σ}
    (hne : ∀ x, encode x ≠ []) (hlength : (encodeVector encode xs).length < UInt32.size)
    (h : ∀ x ∈ xs, (encode x).length < UInt32.size → Reads item (encode x) (value x)) :
    Reads (vector item) (encodeVector encode xs) (xs.map value).toArray := by
  rw [encodeVector, List.length_append] at hlength
  have hcount := length_le_flatMap hne xs
  have hitems : Reads (items item xs.length #[]) (xs.flatMap encode)
      ((#[] : Array α) ++ xs.map value) := by
    refine reads_items (fun x hx => h x hx ?_) #[]
    have hitem : (encode x).length ≤ (xs.flatMap encode).length := length_item_le hx
    omega
  have hsize : xs.length < UInt32.size := by omega
  refine (reads_size hsize).bind ?_
  rw [UInt32.toNat_ofNat_of_lt' hsize]
  simpa using hitems

theorem reads_vector {item : Reader α} {encode : α → List UInt8} {xs : List α}
    (hne : ∀ x, encode x ≠ []) (hlength : (encodeVector encode xs).length < UInt32.size)
    (h : ∀ x ∈ xs, (encode x).length < UInt32.size → Reads item (encode x) x) :
    Reads (vector item) (encodeVector encode xs) xs.toArray := by
  have hread := reads_vectorOf hne hlength h
  rw [List.map_id'] at hread
  exact hread

end Reader

def encodeIndices (ns : List UInt32) : List UInt8 :=
  encodeVector (fun n => Leb128.encode n.toNat) ns

theorem Reader.reads_indices {ns : List UInt32} (h : (encodeIndices ns).length < UInt32.size) :
    Reads (vector u32) (encodeIndices ns) ns.toArray :=
  reads_vector (fun _ => Leb128.encode_ne_nil _) h fun n _ _ => reads_u32 n

def encodeName (s : String) : List UInt8 :=
  Leb128.encode s.toUTF8.data.toList.length ++ s.toUTF8.data.toList

/-- A name is read behind any encoding of its length. -/
theorem Reader.Reads.name {s : String} {size : List UInt8} {n : UInt32} (hsize : Reads u32 size n)
    (hn : n.toNat = s.toUTF8.data.toList.length) :
    Reads name (size ++ s.toUTF8.data.toList) s := by
  have hutf8 : String.fromUTF8? s.toUTF8.data.toList.toByteArray = some s := by
    have hbytes : s.toUTF8.data.toList.toByteArray = s.toUTF8 := by
      apply ByteArray.ext
      simp
    rw [hbytes]
    exact dif_pos s.isValidUTF8
  refine hsize.bind ?_
  rw [hn]
  refine Reads.of_offset fun offset => (reads_bytes _).last ?_
  rw [hutf8]
  exact Reads.pure s

theorem Reader.reads_name {s : String} (h : (encodeName s).length < UInt32.size) :
    Reads name (encodeName s) s := by
  rw [encodeName, List.length_append] at h
  have hsize : s.toUTF8.data.toList.length < UInt32.size := by omega
  exact (reads_size hsize).name (UInt32.toNat_ofNat_of_lt' hsize)

end Format

-- ---------------------------------------------------------------------------
-- Types
-- ---------------------------------------------------------------------------

def ValueType.byte : ValueType → UInt8
  | i32 => 0x7F
  | i64 => 0x7E
  | f32 => 0x7D
  | f64 => 0x7C

/-- A block type is written as a signed number. The one-byte forms are the
    numbers below zero. -/
def BlockType.encode : BlockType → List UInt8
  | empty => [0x40]
  | value t => [t.byte]
  | func type => Leb128.encodeSigned type.toNat

def FuncType.encode (t : FuncType) : List UInt8 :=
  0x60 :: (Format.encodeVector (fun t => [t.byte]) t.params ++
    Format.encodeVector (fun t => [t.byte]) t.results)

def Limits.encode (l : Limits) : List UInt8 :=
  match l.max with
  | none => 0x00 :: Leb128.encode l.min.toNat
  | some max => 0x01 :: (Leb128.encode l.min.toNat ++ Leb128.encode max.toNat)

def GlobalType.encode (g : GlobalType) : List UInt8 :=
  [g.type.byte, if g.mutable then 0x01 else 0x00]

namespace Format.Reader

theorem reads_valueType (t : ValueType) : Reads valueType [t.byte] t := by
  cases t <;> exact Reads.byte (Reads.pure _)

theorem reads_blockType (t : BlockType) : Reads blockType t.encode t := by
  -- The forms of one byte are small numbers below zero.
  have hform : ∀ (n : Int) {f : Int → Reader BlockType} {b : UInt8} {t : BlockType},
      -64 ≤ n ∧ n < 64 → b = UInt8.ofNat (n % 128).toNat → f n = pure t →
      Reads (signed 33 >>= f) [b] t := by
    intro n f b t hn hb hf
    have hread := @reads_s33 n (by simp [UInt32.size]; omega) (by simp [UInt32.size]; omega)
    rw [Leb128.encodeSigned, if_pos hn, ← hb] at hread
    exact hread.last (hf ▸ Reads.pure t)
  cases t with
  | empty => exact hform (-64) (by decide) rfl rfl
  | value t =>
    cases t with
    | i32 => exact hform (-1) (by decide) rfl rfl
    | i64 => exact hform (-2) (by decide) rfl rfl
    | f32 => exact hform (-3) (by decide) rfl rfl
    | f64 => exact hform (-4) (by decide) rfl rfl
  | func type =>
    have hlt := type.toNat_lt_size
    have hread := @reads_s33 type.toNat (by omega) (by omega)
    refine hread.last ?_
    rw [if_pos (by omega), Int.toNat_natCast, UInt32.ofNat_toNat]
    exact Reads.pure _

theorem reads_funcType {t : FuncType} (h : t.encode.length < UInt32.size) :
    Reads funcType t.encode t := by
  have hbyte : ∀ t : ValueType, [t.byte] ≠ [] := fun t => List.cons_ne_nil _ _
  rw [FuncType.encode, List.length_cons, List.length_append] at h
  have htypes : ∀ ts : List ValueType,
      (encodeVector (fun t => [t.byte]) ts).length < UInt32.size →
      Reads (vector valueType) (encodeVector (fun t => [t.byte]) ts) ts.toArray :=
    fun ts hts => reads_vector hbyte hts fun t _ _ => reads_valueType t
  exact Reads.byte ((htypes _ (by omega)).bind ((htypes _ (by omega)).map _))

theorem reads_limits (l : Limits) : Reads limits l.encode l := by
  obtain ⟨min, _ | max⟩ := l
  · exact Reads.byte ((reads_u32 min).map _)
  · exact Reads.byte ((reads_u32 min).bind ((reads_u32 max).map _))

theorem reads_globalType (g : GlobalType) : Reads globalType g.encode g := by
  obtain ⟨type, mutable⟩ := g
  refine (reads_valueType type).bind ?_
  cases mutable <;> exact Reads.byte (Reads.pure _)

end Format.Reader

end Wasm
