import Mathlib.Algebra.GroupWithZero.Nat
import Mathlib.Data.List.Basic
import Mathlib.Data.List.Infix

/-!
# Byte strings

Fixed-width little-endian numbers, byte strings of a fixed length, and reading fields out of
a concatenation.
-/

abbrev Bytes := List UInt8

namespace Bytes

/-! ## Little-endian numbers -/

/-- The low `width` bytes of a number, least significant first. -/
def ofNatLE : (width : Nat) → Nat → Bytes
  | 0, _ => []
  | width + 1, n => UInt8.ofNat n :: ofNatLE width (n / 256)

/-- The number whose bytes these are, least significant first. -/
def toNatLE : Bytes → Nat
  | [] => 0
  | b :: bs => b.toNat + 256 * toNatLE bs

@[simp] theorem length_ofNatLE (width n : Nat) : (ofNatLE width n).length = width := by
  induction width generalizing n with
  | zero => rfl
  | succ width ih => simp [ofNatLE, ih]

theorem toNatLE_ofNatLE (width n : Nat) : toNatLE (ofNatLE width n) = n % 256 ^ width := by
  induction width generalizing n with
  | zero => simp [ofNatLE, toNatLE, Nat.mod_one]
  | succ width ih =>
    have low : (UInt8.ofNat n).toNat = n % 256 := by simp
    rw [ofNatLE, toNatLE, ih, low, Nat.pow_succ, Nat.mul_comm (256 ^ width) 256, Nat.mod_mul]

theorem toNatLE_lt (bs : Bytes) : toNatLE bs < 256 ^ bs.length := by
  induction bs with
  | nil => simp [toNatLE]
  | cons b bs ih =>
    have hb : b.toNat < 256 := b.toNat_lt
    simp only [toNatLE, List.length_cons, Nat.pow_succ]
    omega

theorem ofNatLE_toNatLE (bs : Bytes) : ofNatLE bs.length (toNatLE bs) = bs := by
  induction bs with
  | nil => rfl
  | cons b bs ih =>
    have hb : b.toNat < 256 := b.toNat_lt
    have low : UInt8.ofNat (b.toNat + 256 * toNatLE bs) = b := by
      apply UInt8.toNat.inj
      simp only [UInt8.toNat_ofNat']
      omega
    have high : (b.toNat + 256 * toNatLE bs) / 256 = toNatLE bs := by omega
    simp only [List.length_cons, toNatLE, ofNatLE, low, high, ih]

/-- `u32::to_le_bytes`. -/
def ofU32 (n : UInt32) : Bytes := ofNatLE 4 n.toNat

/-- `u32::from_le_bytes`. -/
def toU32 (bs : Bytes) : UInt32 := UInt32.ofNat (toNatLE bs)

/-- `u64::to_le_bytes`. -/
def ofU64 (n : UInt64) : Bytes := ofNatLE 8 n.toNat

/-- `u64::from_le_bytes`. -/
def toU64 (bs : Bytes) : UInt64 := UInt64.ofNat (toNatLE bs)

/-- `u16::to_le_bytes` of a length cast to `u16`. -/
def ofU16 (n : UInt16) : Bytes := ofNatLE 2 n.toNat

/-- `u16::from_le_bytes`. -/
def toU16 (bs : Bytes) : UInt16 := UInt16.ofNat (toNatLE bs)

@[simp] theorem length_ofU16 (n : UInt16) : (ofU16 n).length = 2 := length_ofNatLE 2 _
@[simp] theorem length_ofU32 (n : UInt32) : (ofU32 n).length = 4 := length_ofNatLE 4 _
@[simp] theorem length_ofU64 (n : UInt64) : (ofU64 n).length = 8 := length_ofNatLE 8 _

@[simp] theorem toU16_ofU16 (n : UInt16) : toU16 (ofU16 n) = n := by
  apply UInt16.toNat.inj
  have := n.toNat_lt
  simp only [toU16, ofU16, toNatLE_ofNatLE, UInt16.toNat_ofNat']
  omega

@[simp] theorem toU32_ofU32 (n : UInt32) : toU32 (ofU32 n) = n := by
  apply UInt32.toNat.inj
  have := n.toNat_lt
  simp only [toU32, ofU32, toNatLE_ofNatLE, UInt32.toNat_ofNat']
  omega

@[simp] theorem toU64_ofU64 (n : UInt64) : toU64 (ofU64 n) = n := by
  apply UInt64.toNat.inj
  have := n.toNat_lt
  simp only [toU64, ofU64, toNatLE_ofNatLE, UInt64.toNat_ofNat']
  omega

theorem ofU16_toU16 {bs : Bytes} (h : bs.length = 2) : ofU16 (toU16 bs) = bs := by
  have bound := toNatLE_lt bs
  rw [h] at bound
  rw [ofU16, toU16, UInt16.toNat_ofNat_of_lt' bound, ← h, ofNatLE_toNatLE]

theorem ofU32_toU32 {bs : Bytes} (h : bs.length = 4) : ofU32 (toU32 bs) = bs := by
  have bound := toNatLE_lt bs
  rw [h] at bound
  rw [ofU32, toU32, UInt32.toNat_ofNat_of_lt' bound, ← h, ofNatLE_toNatLE]

theorem ofU64_toU64 {bs : Bytes} (h : bs.length = 8) : ofU64 (toU64 bs) = bs := by
  have bound := toNatLE_lt bs
  rw [h] at bound
  rw [ofU64, toU64, UInt64.toNat_ofNat_of_lt' bound, ← h, ofNatLE_toNatLE]

/-! ## Fields of a concatenation -/

/-- The `count` bytes from `start` on, as many of them as there are. -/
def slice (bs : Bytes) (start count : Nat) : Bytes := (bs.drop start).take count

theorem length_slice {bs : Bytes} {start count : Nat} (h : start + count ≤ bs.length) :
    (slice bs start count).length = count := by
  simp only [slice, List.length_take, List.length_drop]
  omega

/-- The next field and what follows it. -/
theorem drop_eq_slice_append (bs : Bytes) (start count : Nat) :
    bs.drop start = slice bs start count ++ bs.drop (start + count) := by
  rw [slice, ← List.drop_drop, List.take_append_drop]

theorem slice_append_left {as bs : Bytes} {start count : Nat} (h : start + count ≤ as.length) :
    slice (as ++ bs) start count = slice as start count := by
  simp only [slice]
  rw [List.drop_append_of_le_length (by omega),
    List.take_append_of_le_length (by simp only [List.length_drop]; omega)]

theorem slice_append_right {as bs : Bytes} {start count : Nat} (h : as.length ≤ start) :
    slice (as ++ bs) start count = slice bs (start - as.length) count := by
  simp only [slice, List.drop_append, List.drop_eq_nil_of_le h, List.nil_append]

theorem slice_take {bs : Bytes} {start count size : Nat} (h : start + count ≤ size) :
    slice (bs.take size) start count = slice bs start count := by
  simp only [slice, List.drop_take, List.take_take]
  rw [Nat.min_eq_left (by omega)]

theorem slice_zero_length (bs : Bytes) : slice bs 0 bs.length = bs := by
  simp [slice]

/-- The field `bs` of `as ++ bs ++ cs`. -/
theorem slice_field {as bs cs : Bytes} {start count : Nat} (hs : as.length = start)
    (hc : bs.length = count) : slice (as ++ (bs ++ cs)) start count = bs := by
  subst hs hc
  rw [slice_append_right (Nat.le_refl _), Nat.sub_self, slice_append_left (by omega),
    slice_zero_length]

/-- The field at the front of `bs ++ cs`. -/
theorem slice_first {bs cs : Bytes} {count : Nat} (hc : bs.length = count) :
    slice (bs ++ cs) 0 count = bs := by
  subst hc
  simp [slice]

theorem drop_field {as bs : Bytes} {start : Nat} (hs : as.length = start) :
    (as ++ bs).drop start = bs := by
  subst hs; exact List.drop_left

theorem take_field {as bs : Bytes} {count : Nat} (hs : as.length = count) :
    (as ++ bs).take count = as := by
  subst hs; exact List.take_left

/-- `read_exact`: the first `count` bytes and the rest, if there are that many. -/
def splitExact (count : Nat) (bs : Bytes) : Option (Bytes × Bytes) :=
  if count ≤ bs.length then some (bs.take count, bs.drop count) else none

theorem splitExact_append {as bs : Bytes} {count : Nat} (h : as.length = count) :
    splitExact count (as ++ bs) = some (as, bs) := by
  subst h
  simp [splitExact]

/-! ## Overwriting from a position -/

/-- The contents of a file after `new` was written at `pos`; a gap reads as zeros. -/
def writeAt (old : Bytes) (pos : Nat) (new : Bytes) : Bytes :=
  old.take pos ++ List.replicate (pos - old.length) 0 ++ new ++ old.drop (pos + new.length)

@[simp] theorem writeAt_end (old new : Bytes) : writeAt old old.length new = old ++ new := by
  simp [writeAt]

theorem writeAt_end' {old : Bytes} {pos : Nat} (h : pos = old.length) (new : Bytes) :
    writeAt old pos new = old ++ new := by
  subst h; exact writeAt_end old new

/-- Writing on where the last write ended. -/
theorem writeAt_writeAt {old : Bytes} {pos : Nat} (h : pos ≤ old.length) (new more : Bytes) :
    writeAt (writeAt old pos new) (pos + new.length) more = writeAt old pos (new ++ more) := by
  have gap : pos - old.length = 0 := by omega
  have front : (old.take pos ++ new).length = pos + new.length := by
    rw [List.length_append, List.length_take]
    omega
  simp only [writeAt, gap, List.replicate_zero, List.append_nil]
  have full : pos + new.length - (old.take pos ++ new ++ old.drop (pos + new.length)).length = 0 := by
    rw [List.length_append, front]
    omega
  rw [full, List.replicate_zero, List.append_nil, ← front, List.take_left, List.drop_append,
    List.drop_eq_nil_iff.2 (Nat.le_add_right _ _), List.nil_append, List.drop_drop, front,
    List.length_append]
  simp [Nat.add_assoc]

end Bytes

/-- A byte string of a fixed length: an identifier, a digest, a key or a nonce. -/
@[ext] structure FixedBytes (n : Nat) where
  bytes : Bytes
  length_eq : bytes.length = n
  deriving DecidableEq

namespace FixedBytes

variable {n : Nat}

attribute [simp] length_eq

/-- `n` bytes of a string, padded with zeros where it is too short. -/
def ofBytes (n : Nat) (bs : Bytes) : FixedBytes n :=
  ⟨bs.take n ++ List.replicate (n - bs.length) 0, by simp; omega⟩

@[simp] theorem ofBytes_bytes (x : FixedBytes n) : ofBytes n x.bytes = x := by
  apply FixedBytes.ext
  simp [ofBytes, List.take_of_length_le (Nat.le_of_eq x.length_eq)]

theorem bytes_ofBytes {bs : Bytes} (h : bs.length = n) : (ofBytes n bs).bytes = bs := by
  simp [ofBytes, h, List.take_of_length_le (Nat.le_of_eq h)]

/-- Lexicographic order, as for a byte array. -/
instance : Ord (FixedBytes n) := ⟨fun x y => compare x.bytes y.bytes⟩

theorem compare_def (x y : FixedBytes n) : compare x y = compare x.bytes y.bytes := rfl

instance : Std.TransOrd (FixedBytes n) where
  eq_swap {x y} := Std.OrientedOrd.eq_swap (a := x.bytes) (b := y.bytes)
  isLE_trans {x y z} h h' :=
    Std.TransOrd.isLE_trans (a := x.bytes) (b := y.bytes) (c := z.bytes) h h'

instance : Std.LawfulEqOrd (FixedBytes n) where
  compare_self {x} := Std.ReflOrd.compare_self (a := x.bytes)
  eq_of_compare {x y} h :=
    FixedBytes.ext (Std.LawfulEqOrd.eq_of_compare (a := x.bytes) (b := y.bytes) h)

end FixedBytes
