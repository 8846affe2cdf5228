import Wasm.Proofs.Format.Numbers

/-!
# Single reads

The values that are read from a window, from a byte to a name. How many bytes
a read wants can be told from the window, and only a window with fewer makes it
find the end. A value is made of the wanted bytes alone. A read that fails
leaves the window as it was, unless it is one of a name, which is made of two.
-/

namespace Wasm

-- ---------------------------------------------------------------------------
-- Sizes of numbers
-- ---------------------------------------------------------------------------

namespace Leb128

variable {bits : Nat} {bytes gs : List UInt8}

/-- How many bytes a number wants: those up to the first with a clear top bit,
    but no more than its width permits. -/
def extent (bits : Nat) (bytes : List UInt8) : Nat :=
  min ((bytes.takeWhile (128 ≤ ·)).length + 1) (maxLength bits)

theorem extent_of_encoding? (h : encoding? (maxLength bits) bytes = some gs) :
    extent bits bytes = gs.length := by
  obtain ⟨⟨front, last, rfl, hfront, hlast⟩, ⟨rest, rfl⟩, hlength⟩ := encoding?_eq_some_iff.mp h
  have htake : (front ++ [last] ++ rest).takeWhile (128 ≤ ·) = front := by
    rw [List.append_assoc, List.takeWhile_append_of_pos (by simpa using hfront)]
    simp [hlast]
  rw [List.length_append, List.length_singleton] at hlength ⊢
  rw [extent, htake, Nat.min_eq_left hlength]

/-- Without an end of the number, all the bytes there are belong to it. -/
theorem extent_of_unterminated (h : encoding? (maxLength bits) bytes = none) :
    extent bits bytes = min (bytes.length + 1) (maxLength bits) := by
  have hall := encoding?_eq_none_iff.mp h
  have hfront : (bytes.take (maxLength bits)).length ≤ (bytes.takeWhile (128 ≤ ·)).length := by
    conv_rhs => rw [← List.take_append_drop (maxLength bits) bytes]
    rw [List.takeWhile_append_of_pos (by simpa using hall), List.length_append]
    exact Nat.le_add_right _ _
  have hle : (bytes.takeWhile (128 ≤ ·)).length ≤ bytes.length :=
    (List.takeWhile_prefix _).length_le
  rw [List.length_take] at hfront
  rw [extent]
  omega

/-- The bytes end inside the number just when it wants more than there are. -/
theorem split_eq_truncated_iff (bits : Nat) (fits : UInt8 → Bool) (bytes : List UInt8) :
    split bits fits bytes = .error .truncated ↔ bytes.length < extent bits bytes := by
  cases hencoding : encoding? (maxLength bits) bytes with
  | none =>
    rw [split, hencoding, extent_of_unterminated hencoding]
    by_cases hlength : bytes.length < maxLength bits
    · simp [hlength]
    · simp [hlength]
  | some gs =>
    obtain ⟨-, hfront, -⟩ := encoding?_eq_some_iff.mp hencoding
    rw [split, hencoding, extent_of_encoding? hencoding]
    refine iff_of_false ?_ (not_lt.mpr hfront.length_le)
    dsimp only
    split <;> simp

end Leb128

namespace Format

-- ---------------------------------------------------------------------------
-- Parts of windows
-- ---------------------------------------------------------------------------

namespace Window

theorem length_drop (w : Window) (n : Nat) :
    (w.drop n).bytes.length = w.bytes.length - n := List.length_drop

theorem offset_drop (w : Window) (n : Nat) : (w.drop n).offset = w.offset + n := rfl

theorem length_take {w : Window} {n : Nat} (h : n ≤ w.bytes.length) :
    (w.take n).bytes.length = n := List.length_take_of_le h

theorem drop_drop (w : Window) (m n : Nat) : (w.drop m).drop n = w.drop (m + n) := by
  simp only [drop, List.drop_drop, Nat.add_assoc]

/-- A part of a part. -/
theorem take_drop_take {w : Window} {l m n : Nat} (h : m + n ≤ l) :
    ((w.take l).drop m).take n = (w.drop m).take n := by
  have hn : min n (l - m) = n := by omega
  simp only [take, drop, List.drop_take, List.take_take, hn]

/-- What is taken off the front does not move the end. -/
theorem stop_drop {w : Window} {n : Nat} (h : n ≤ w.bytes.length) : (w.drop n).stop = w.stop := by
  rw [stop, stop, length_drop, offset_drop]
  omega

end Window

namespace Reader

open Leb128

variable {α β : Type} {r : Reader α} {w w' : Window} {n : Nat} {v : α} {e : Error}
  {Refused : Error → Prop}

-- ---------------------------------------------------------------------------
-- What a reader wants
-- ---------------------------------------------------------------------------

/-- The reader wants the first `n` bytes of the window. It finds the window's
    end if there are fewer, and takes or refuses them if not. -/
structure Wants (r : Reader α) (w : Window) (n : Nat) (Refused : Error → Prop) : Prop where
  ok : ∀ v w', r w = .ok v w' → n ≤ w.bytes.length ∧ w' = w.drop n
  error : ∀ e w', r w = .error e w' →
    w.bytes.length < n ∧ e = .unexpectedEnd w.stop ∨ n ≤ w.bytes.length ∧ Refused e

/-- Where it fails, the reader leaves the window as it was. -/
def Atomic (r : Reader α) : Prop := ∀ ⦃w e w'⦄, r w = .error e w' → w' = w

theorem Wants.of_ok (hn : n ≤ w.bytes.length) (h : r w = .ok v (w.drop n)) :
    Wants r w n Refused where
  ok v' w' hv := by
    rw [h] at hv
    cases hv
    exact ⟨hn, rfl⟩
  error e w' he := by
    rw [h] at he
    cases he

theorem Wants.of_error (h : r w = .error e w')
    (he : w.bytes.length < n ∧ e = .unexpectedEnd w.stop ∨ n ≤ w.bytes.length ∧ Refused e) :
    Wants r w n Refused where
  ok v w' hv := by
    rw [h] at hv
    cases hv
  error e' w' he' := by
    rw [h] at he'
    cases he'
    exact he

theorem map_eq_error {f : α → β} (h : (do return f (← r) : Reader β) w = .error e w') :
    r w = .error e w' := by
  cases hr : r w with
  | ok a v =>
    rw [bind_eq_of_ok hr] at h
    cases h
  | error e' v =>
    rw [bind_eq_error hr] at h
    cases h
    rfl

theorem Wants.map (h : Wants r w n Refused) (f : α → β) :
    Wants (do return f (← r)) w n Refused where
  ok v w' hv := by
    obtain ⟨a, w₁, ha, hpure⟩ := bind_eq_ok_iff.mp hv
    cases hpure
    exact h.ok a w' ha
  error e w' he := h.error e w' (map_eq_error he)

theorem Atomic.map (h : Atomic r) (f : α → β) : Atomic (do return f (← r)) :=
  fun _ _ _ he => h (map_eq_error he)

/-- An exact reader returns the same value wherever the bytes that it took
    stand. -/
theorem Exact.eq_ok_of_take_eq (h : Exact r) (hn : n ≤ w.bytes.length)
    (hok : r w = .ok v (w.drop n)) {u : Window} (htake : u.bytes.take n = w.bytes.take n) :
    r u = .ok v (u.drop n) := by
  have hspans : Spans r (w.bytes.take n) v :=
    h.spans hok (List.take_append_drop n w.bytes).symm
  have hread := hspans.reads (u.bytes.drop n) u.offset
  rw [List.length_take_of_le hn, ← htake, List.take_append_drop] at hread
  exact hread

-- ---------------------------------------------------------------------------
-- Bytes and words
-- ---------------------------------------------------------------------------

theorem frame_of_lt (h : w.bytes.length < n) :
    frame n w = .error (.unexpectedEnd w.stop) w := frame_short h w.offset

theorem wants_frame (n : Nat) (w : Window) : Wants (frame n) w n fun _ => False := by
  rcases Nat.lt_or_ge w.bytes.length n with hlt | hle
  · exact .of_error (frame_of_lt hlt) (.inl ⟨hlt, rfl⟩)
  · exact .of_ok hle (frame_of_le hle)

theorem atomic_frame (n : Nat) : Atomic (frame n) := by
  intro w e w' h
  rcases Nat.lt_or_ge w.bytes.length n with hlt | hle
  · rw [frame_of_lt hlt] at h
    cases h
    rfl
  · rw [frame_of_le hle] at h
    cases h

/-- A byte is what a run of one byte holds. -/
theorem byte_eq_frame : byte = do return (← frame 1).bytes.headD 0 := by
  funext w
  obtain ⟨bytes, start⟩ := w
  cases bytes <;> rfl

theorem wants_byte (w : Window) : Wants byte w 1 fun _ => False :=
  byte_eq_frame ▸ (wants_frame 1 w).map _

theorem atomic_byte : Atomic byte := byte_eq_frame ▸ (atomic_frame 1).map _

theorem bytes_of_lt (h : w.bytes.length < n) :
    bytes n w = .error (.unexpectedEnd w.stop) w := bind_eq_error (frame_of_lt h) _

theorem bytes_of_le (h : n ≤ w.bytes.length) :
    bytes n w = .ok (w.bytes.take n) (w.drop n) := bind_eq_of_ok (frame_of_le h) _

theorem wants_bytes (n : Nat) (w : Window) : Wants (bytes n) w n fun _ => False :=
  (wants_frame n w).map _

theorem atomic_bytes (n : Nat) : Atomic (bytes n) := (atomic_frame n).map _

theorem wants_word (n : Nat) (w : Window) : Wants (word n) w n fun _ => False :=
  (wants_bytes n w).map _

theorem atomic_word (n : Nat) : Atomic (word n) := (atomic_bytes n).map _

-- ---------------------------------------------------------------------------
-- Numbers
-- ---------------------------------------------------------------------------

theorem wants_groups (bits : Nat) (fits : UInt8 → Bool) (w : Window) :
    Wants (groups bits fits) w (extent bits w.bytes) (· = .numberOverflow w.offset) := by
  have hgroups := groups_eq_split bits fits w
  cases hsplit : split bits fits w.bytes with
  | ok gs =>
    obtain ⟨hencoding, -⟩ := of_split_eq_ok hsplit
    obtain ⟨-, hfront, -⟩ := encoding?_eq_some_iff.mp hencoding
    rw [extent_of_encoding? hencoding]
    rw [hsplit] at hgroups
    exact .of_ok hfront.length_le hgroups
  | error d =>
    have hshort := split_eq_truncated_iff bits fits w.bytes
    rw [hsplit] at hgroups hshort
    cases d with
    | truncated => exact .of_error hgroups (.inl ⟨hshort.mp rfl, rfl⟩)
    | overflow => exact .of_error hgroups (.inr ⟨not_lt.mp (mt hshort.mpr nofun), rfl⟩)

theorem atomic_groups (bits : Nat) (fits : UInt8 → Bool) : Atomic (groups bits fits) := by
  intro w e w' h
  rw [groups_eq_split] at h
  split at h <;> cases h <;> rfl

theorem wants_unsigned (bits : Nat) (w : Window) :
    Wants (unsigned bits) w (extent bits w.bytes) (· = .numberOverflow w.offset) :=
  (wants_groups bits _ w).map _

theorem atomic_unsigned (bits : Nat) : Atomic (unsigned bits) := (atomic_groups bits _).map _

theorem wants_signed (bits : Nat) (w : Window) :
    Wants (signed bits) w (extent bits w.bytes) (· = .numberOverflow w.offset) :=
  (wants_groups bits _ w).map _

theorem atomic_signed (bits : Nat) : Atomic (signed bits) := (atomic_groups bits _).map _

theorem wants_u32 (w : Window) :
    Wants u32 w (extent 32 w.bytes) (· = .numberOverflow w.offset) :=
  (wants_unsigned 32 w).map _

theorem atomic_u32 : Atomic u32 := (atomic_unsigned 32).map _

-- ---------------------------------------------------------------------------
-- Names
-- ---------------------------------------------------------------------------

/-- How many bytes a name wants: those of its length and, once that can be
    read, as many as it says. -/
def nameExtent (bytes : List UInt8) : Nat :=
  extent 32 bytes + match u32 ⟨bytes, 0⟩ with
    | .ok length _ => length.toNat
    | .error _ _ => 0

theorem u32_drop {length : UInt32} (h : u32 w = .ok length w') :
    extent 32 w.bytes ≤ w.bytes.length ∧ w' = w.drop (extent 32 w.bytes) :=
  (wants_u32 w).ok length w' h

/-- Where a window stands does not matter for a number. -/
theorem u32_move {length : UInt32} (h : u32 w = .ok length w') (offset : Nat) :
    ∃ v, u32 ⟨w.bytes, offset⟩ = .ok length v := by
  obtain ⟨hle, rfl⟩ := u32_drop h
  exact ⟨_, exact_u32.eq_ok_of_take_eq hle h (u := ⟨w.bytes, offset⟩) rfl⟩

theorem nameExtent_of_ok {length : UInt32} (h : u32 w = .ok length w') :
    nameExtent w.bytes = extent 32 w.bytes + length.toNat := by
  obtain ⟨v, hv⟩ := u32_move h 0
  rw [nameExtent, hv]

theorem nameExtent_of_error (h : u32 w = .error e w') :
    nameExtent w.bytes = extent 32 w.bytes := by
  rw [nameExtent]
  cases hu32 : u32 ⟨w.bytes, 0⟩ with
  | ok length v =>
    obtain ⟨v', hv'⟩ := u32_move hu32 w.offset
    rw [h] at hv'
    cases hv'
  | error => rfl

/-- What becomes of a name: its length is no number, the bytes end before it
    does, they are no text, or it is read. -/
inductive NameOutcome (w : Window) : EStateM.Result Error Window String → Prop where
  | noLength {e : Error} (hlength : u32 w = .error e w) : NameOutcome w (.error e w)
  | short {length : UInt32} (hlength : u32 w = .ok length (w.drop (extent 32 w.bytes)))
      (hlt : w.bytes.length < nameExtent w.bytes) :
      NameOutcome w (.error (.unexpectedEnd w.stop) (w.drop (extent 32 w.bytes)))
  | noText {length : UInt32} (hlength : u32 w = .ok length (w.drop (extent 32 w.bytes)))
      (hle : nameExtent w.bytes ≤ w.bytes.length) :
      NameOutcome w (.error (.invalidUtf8 (w.offset + extent 32 w.bytes))
        (w.drop (nameExtent w.bytes)))
  | read {s : String} (hle : nameExtent w.bytes ≤ w.bytes.length) :
      NameOutcome w (.ok s (w.drop (nameExtent w.bytes)))

theorem name_outcome (w : Window) : NameOutcome w (name w) := by
  cases hu32 : u32 w with
  | error e v =>
    obtain rfl := atomic_u32 hu32
    rw [name, bind_eq_error hu32]
    exact .noLength hu32
  | ok length v =>
    obtain ⟨hle, rfl⟩ := u32_drop hu32
    have hextent := nameExtent_of_ok hu32
    have hleft := w.length_drop (extent 32 w.bytes)
    rw [name_of_u32 hu32]
    rcases Nat.lt_or_ge (w.drop (extent 32 w.bytes)).bytes.length length.toNat with hlt | hge
    · rw [bind_eq_error (bytes_of_lt hlt), Window.stop_drop hle]
      exact .short hu32 (by omega)
    · have hall : nameExtent w.bytes ≤ w.bytes.length := by omega
      rw [bind_eq_of_ok (bytes_of_le hge), Window.drop_drop, ← hextent]
      cases String.fromUTF8? _ with
      | none => exact .noText hu32 hall
      | some s => exact .read hall

theorem wants_name (w : Window) :
    Wants name w (nameExtent w.bytes) fun e => e = .numberOverflow w.offset ∨
      e = .invalidUtf8 (w.offset + extent 32 w.bytes) where
  ok s w' h := by
    have houtcome := name_outcome w
    rw [h] at houtcome
    cases houtcome with
    | read hall => exact ⟨hall, rfl⟩
  error e w' h := by
    have houtcome := name_outcome w
    rw [h] at houtcome
    cases houtcome with
    | noLength hlength =>
      rw [nameExtent_of_error hlength]
      exact ((wants_u32 w).error e w hlength).imp_right fun hrefused => hrefused.imp_right .inl
    | short hlength hlt => exact .inl ⟨hlt, rfl⟩
    | noText hlength hall => exact .inr ⟨hall, .inr rfl⟩

theorem name_error_drop (h : name w = .error e w') : ∃ n ≤ w.bytes.length, w' = w.drop n := by
  have houtcome := name_outcome w
  rw [h] at houtcome
  cases houtcome with
  | noLength => exact ⟨0, Nat.zero_le _, rfl⟩
  | short hlength => exact ⟨_, (u32_drop hlength).1, rfl⟩
  | noText _ hall => exact ⟨_, hall, rfl⟩

end Reader

-- ---------------------------------------------------------------------------
-- Kinds of reads
-- ---------------------------------------------------------------------------

/-- What can be read from a window. -/
inductive Read where
  | byte
  | word
  | bytes (n : Nat)
  | unsigned32
  | unsigned64
  | signed32
  | signed64
  | signed33
  | float32
  | float64
  | name
deriving DecidableEq

namespace Read

def Result : Read → Type
  | byte => UInt8
  | word => Nat
  | bytes _ => List UInt8
  | unsigned32 => UInt32
  | unsigned64 => Nat
  | signed32 | signed64 | signed33 => Int
  | float32 => BitVec 32
  | float64 => BitVec 64
  | name => String

def reader : (k : Read) → Reader k.Result
  | byte => Reader.byte
  | word => Reader.word 4
  | bytes n => Reader.bytes n
  | unsigned32 => Reader.u32
  | unsigned64 => Reader.unsigned 64
  | signed32 => Reader.signed 32
  | signed64 => Reader.signed 64
  | signed33 => Reader.signed 33
  | float32 => (do return BitVec.ofNat 32 (← Reader.word 4) : Reader (BitVec 32))
  | float64 => (do return BitVec.ofNat 64 (← Reader.word 8) : Reader (BitVec 64))
  | name => Reader.name

/-- How many bytes the read wants, given those there are. -/
def extent : Read → List UInt8 → Nat
  | byte, _ => 1
  | word, _ | float32, _ => 4
  | float64, _ => 8
  | bytes n, _ => n
  | unsigned32, bs | signed32, bs => Leb128.extent 32 bs
  | unsigned64, bs | signed64, bs => Leb128.extent 64 bs
  | signed33, bs => Leb128.extent 33 bs
  | name, bs => Reader.nameExtent bs

/-- Why the read may fail with all the bytes it wants. -/
def Refused (k : Read) (w : Window) (e : Error) : Prop :=
  match k with
  | byte | word | bytes _ | float32 | float64 => False
  | unsigned32 | unsigned64 | signed32 | signed64 | signed33 => e = .numberOverflow w.offset
  | name => e = .numberOverflow w.offset ∨ e = .invalidUtf8 (w.offset + Leb128.extent 32 w.bytes)

open Reader

theorem reader_wants (k : Read) (w : Window) :
    Wants k.reader w (k.extent w.bytes) (k.Refused w) := by
  cases k with
  | byte => exact wants_byte w
  | word => exact wants_word 4 w
  | bytes n => exact wants_bytes n w
  | unsigned32 => exact wants_u32 w
  | unsigned64 => exact wants_unsigned 64 w
  | signed32 => exact wants_signed 32 w
  | signed64 => exact wants_signed 64 w
  | signed33 => exact wants_signed 33 w
  | float32 => exact (wants_word 4 w).map _
  | float64 => exact (wants_word 8 w).map _
  | name => exact wants_name w

theorem reader_exact (k : Read) : Exact k.reader := by
  cases k with
  | byte => exact exact_byte
  | word => exact exact_word 4
  | bytes n => exact exact_bytes n
  | unsigned32 => exact exact_u32
  | unsigned64 => exact exact_unsigned 64
  | signed32 => exact exact_signed 32
  | signed64 => exact exact_signed 64
  | signed33 => exact exact_signed 33
  | float32 => exact (exact_word 4).map _
  | float64 => exact (exact_word 8).map _
  | name => exact exact_name

theorem reader_atomic {k : Read} (h : k ≠ .name) : Atomic k.reader := by
  cases k with
  | byte => exact atomic_byte
  | word => exact atomic_word 4
  | bytes n => exact atomic_bytes n
  | unsigned32 => exact atomic_u32
  | unsigned64 => exact atomic_unsigned 64
  | signed32 => exact atomic_signed 32
  | signed64 => exact atomic_signed 64
  | signed33 => exact atomic_signed 33
  | float32 => exact (atomic_word 4).map _
  | float64 => exact (atomic_word 8).map _
  | name => exact absurd rfl h

/-- A read that fails may have passed bytes, but only such as there were. -/
theorem error_drop {k : Read} {w w' : Window} {e : Error} (h : k.reader w = .error e w') :
    ∃ n ≤ w.bytes.length, w' = w.drop n := by
  by_cases hname : k = .name
  · subst hname
    exact name_error_drop h
  · exact ⟨0, Nat.zero_le _, reader_atomic hname h⟩

/-- The end of the window is found for want of bytes only. -/
theorem not_refused_unexpectedEnd (k : Read) (w : Window) (offset : Nat) :
    ¬ k.Refused w (.unexpectedEnd offset) := by
  cases k <;> simp [Refused]

end Read

end Format

end Wasm
