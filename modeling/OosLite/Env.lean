import OosLite.Error
import OosLite.Lib.Text

/-!
# The environment

What the store takes from other crates, with what it relies on, and the identifiers made from
it. The record checksum, the digest, the compressor, the cipher and the cut points of the
chunker are functions the rest of the model does not look into.
-/

namespace OosLite

/-- `ChunkId`: the BLAKE3 digest of a chunk. -/
abbrev ChunkId := FixedBytes 32

instance : Std.TransOrd ChunkId := inferInstanceAs (Std.TransOrd (FixedBytes 32))

/-- `ObjectId`: time stamp and counter, 16 bytes. -/
abbrev ObjectId := FixedBytes 16

instance : Std.TransOrd ObjectId := inferInstanceAs (Std.TransOrd (FixedBytes 16))

abbrev Nonce := FixedBytes 24

/-- `VaultKey`, of which only the master key matters here. -/
abbrev VaultKey := FixedBytes 32

/-- The functions of other crates. -/
structure Crates where
  /-- `blake3::hash`. -/
  blake3 : Bytes → FixedBytes 32
  /-- `crc32fast::hash`. -/
  crc32 : Bytes → UInt32
  /-- `zstd::encode_all(_, 3)`. -/
  zstdEncode : Bytes → Option Bytes
  /-- `zstd::decode_all`. -/
  zstdDecode : Bytes → Option Bytes
  /-- What the compressor writes, the decompressor reads back. -/
  zstdDecode_zstdEncode : ∀ data packed, zstdEncode data = some packed →
    zstdDecode packed = some data
  /-- `XChaCha20Poly1305::encrypt`: key, nonce, associated data, message. -/
  encrypt : VaultKey → Nonce → Bytes → Bytes → Bytes
  /-- `XChaCha20Poly1305::decrypt`. -/
  decrypt : VaultKey → Nonce → Bytes → Bytes → Option Bytes
  /-- Under the same key, nonce and associated data the message comes back. -/
  decrypt_encrypt : ∀ key nonce aad message,
    decrypt key nonce aad (encrypt key nonce aad message) = some message
  /-- The tag adds 16 bytes. -/
  length_encrypt : ∀ key nonce aad message,
    (encrypt key nonce aad message).length = message.length + 16
  /-- The length of the first chunk `FastCDC::new(_, MIN, TARGET, MAX)` cuts. -/
  fastcdc : Bytes → Nat
  /-- The first chunk is not empty, and no longer than the data or `MAX_CHUNK_SIZE`. -/
  fastcdc_bounds : ∀ data, data ≠ [] →
    0 < fastcdc data ∧ fastcdc data ≤ data.length ∧ fastcdc data ≤ 256 * 1024

/-- The crates, and the key of the store if it is encrypted. -/
structure Env extends Crates where
  vaultKey : Option VaultKey

variable (env : Env)

/-- `ChunkId::from_data`. -/
def ChunkId.fromData (data : Bytes) : ChunkId := env.blake3 data

/-- `ChunkId::to_hex`. -/
def ChunkId.toHex (id : ChunkId) : String := Text.hex id.bytes

/-- `ObjectId::to_hex`. -/
def ObjectId.toHex (id : ObjectId) : String := Text.hex id.bytes

/-- `str::parse::<ObjectId>`; its callers ask only whether there is one. -/
def ObjectId.parse (s : String) : Option ObjectId :=
  let s := Text.utf8 (Text.trim s)
  if s.length ≠ 32 then none
  else (Text.ofHex s).map (FixedBytes.ofBytes 16)

theorem ObjectId.parse_toHex (id : ObjectId) : ObjectId.parse id.toHex = some id := by
  have len : (Text.utf8 (Text.hex id.bytes)).length = 32 := by
    rw [Text.length_utf8_hex, id.length_eq]
  simp only [ObjectId.parse, ObjectId.toHex, Text.trim_hex, len, Text.ofHex_hex, ne_eq,
    not_true_eq_false, if_false, Option.map_some, FixedBytes.ofBytes_bytes]

/-- `VaultKey::encrypt_chunk`. -/
def VaultKey.encryptChunk (key : VaultKey) (plaintext : Bytes) (nonce : Nonce) (aad : Bytes) :
    Bytes :=
  env.encrypt key nonce aad plaintext

/-- `VaultKey::decrypt_chunk`. -/
def VaultKey.decryptChunk (key : VaultKey) (ciphertextAndTag : Bytes) (nonce : Nonce)
    (aad : Bytes) : Result Bytes :=
  match env.decrypt key nonce aad ciphertextAndTag with
  | some message => .ok message
  | none => .error (.decryptionFailed
      "Poly1305 authentication failed (chunk data was tampered with or the decryption key is incorrect)")

@[simp] theorem VaultKey.decryptChunk_encryptChunk (key : VaultKey) (message : Bytes)
    (nonce : Nonce) (aad : Bytes) :
    key.decryptChunk env (key.encryptChunk env message nonce aad) nonce aad = .ok message := by
  simp [decryptChunk, encryptChunk, env.decrypt_encrypt]

@[simp] theorem VaultKey.length_encryptChunk (key : VaultKey) (message : Bytes) (nonce : Nonce)
    (aad : Bytes) : (key.encryptChunk env message nonce aad).length = message.length + 16 :=
  env.length_encrypt key nonce aad message

end OosLite
