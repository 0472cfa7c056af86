import OosLite.Env

/-!
# A concrete environment

The record checksum as it is, a compressor that stores its input in one raw block, as the real
one does where nothing can be gained, and digests from a table. The store is not encrypted.
-/

namespace OosLite.Reference

/-- Go on with a number once it is computed. -/
def force {α : Type} (n : Nat) (next : Nat → α) : α :=
  match n with
  | 0 => next 0
  | m + 1 => next (m + 1)

/-- One bit of the reflected CRC-32 polynomial division. -/
def crcBit (crc : Nat) : Nat :=
  if crc % 2 = 1 then (crc / 2) ^^^ 0xEDB88320 else crc / 2

def crcBits : (count : Nat) → (crc : Nat) → Nat
  | 0, crc => crc
  | count + 1, crc => force (crcBit crc) (crcBits count)

def crcBytes : Bytes → (crc : Nat) → Nat
  | [], crc => crc
  | b :: bs, crc => force (crcBits 8 (crc ^^^ b.toNat)) (crcBytes bs)

/-- CRC-32. -/
def crc32 (bytes : Bytes) : UInt32 := UInt32.ofNat (crcBytes bytes 0xFFFFFFFF ^^^ 0xFFFFFFFF)

example : crc32 [49, 50, 51, 52, 53, 54, 55, 56, 57] = 0xCBF43926 := by decide +kernel

/-- A frame header without a content size. -/
def zstdHeader : Bytes := [0x28, 0xB5, 0x2F, 0xFD, 0x00, 0x58]

/-- One raw block, the last of its frame. -/
def zstdEncode (data : Bytes) : Option Bytes :=
  if data.length < 2 ^ 17 then
    some (zstdHeader ++ Bytes.ofNatLE 3 (8 * data.length + 1) ++ data)
  else none

def zstdDecode (packed : Bytes) : Option Bytes :=
  if packed.take 6 = zstdHeader then some (packed.drop 9) else none

theorem zstdDecode_zstdEncode (data packed : Bytes) (h : zstdEncode data = some packed) :
    zstdDecode packed = some data := by
  rw [zstdEncode] at h
  split at h
  · cases h
    have front : (zstdHeader ++ Bytes.ofNatLE 3 (8 * data.length + 1) ++ data).take 6 =
        zstdHeader := by
      rw [List.append_assoc]
      exact Bytes.take_field rfl
    rw [zstdDecode, if_pos front, Bytes.drop_field (by simp [zstdHeader])]
  · cases h

/-- The digest the table has for some bytes. -/
def blake3 (table : List (Bytes × FixedBytes 32)) (data : Bytes) : FixedBytes 32 :=
  ((table.find? fun row => row.1 = data).map Prod.snd).getD (FixedBytes.ofBytes 32 data)

/-- The crates, with the digests of the bytes that matter. The cipher is not used. -/
def crates (table : List (Bytes × FixedBytes 32)) : Crates where
  blake3 := blake3 table
  crc32 := crc32
  zstdEncode := zstdEncode
  zstdDecode := zstdDecode
  zstdDecode_zstdEncode := zstdDecode_zstdEncode
  encrypt _ _ _ message := message ++ List.replicate 16 0
  decrypt _ _ _ cipher := some (cipher.take (cipher.length - 16))
  decrypt_encrypt _ _ _ message := by simp
  length_encrypt _ _ _ message := by simp
  fastcdc data := min data.length (256 * 1024)
  fastcdc_bounds data nonempty := by
    have := List.length_pos_iff.2 nonempty
    omega

def env (table : List (Bytes × FixedBytes 32)) : Env := { crates table with vaultKey := none }

end OosLite.Reference
