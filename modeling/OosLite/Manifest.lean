import OosLite.Env
import OosLite.Lib.Checked

/-!
# Manifests

The ordered chunk list of one file version, and its binary form.
-/

namespace OosLite

/-- `b"OOSM"`. -/
def manifestMagic : Bytes := [79, 79, 83, 77]

def manifestVersion : UInt32 := 1

def manifestHeaderSize : Nat := 4 + 4 + 8 + 32 + 8 + 4

structure Manifest where
  totalSize : UInt64
  contentHash : FixedBytes 32
  createdAt : UInt64
  chunks : List ChunkId
  deriving DecidableEq

namespace Manifest

variable (env : Env)

/-- `content_id`. -/
def contentId (m : Manifest) : String := Text.hex m.contentHash.bytes

@[simp] theorem length_contentId (m : Manifest) : (Text.utf8 m.contentId).length = 64 := by
  simp [contentId]

/-- `to_bytes` up to its checksum. -/
def body (m : Manifest) : Bytes :=
  manifestMagic ++ Bytes.ofU32 manifestVersion ++ Bytes.ofU64 m.totalSize ++ m.contentHash.bytes ++
    Bytes.ofU64 m.createdAt ++ Bytes.ofU32 (UInt32.ofNat m.chunks.length) ++
    m.chunks.flatMap FixedBytes.bytes

/-- `to_bytes`. -/
def toBytes (m : Manifest) : Bytes := m.body ++ Bytes.ofU32 (env.crc32 m.body)

/-- The loop of `from_bytes`: so many chunk identifiers from the front of the bytes. -/
def readChunks : Nat → Bytes → List ChunkId
  | 0, _ => []
  | count + 1, bytes => FixedBytes.ofBytes 32 (bytes.take 32) :: readChunks count (bytes.drop 32)

/-- `from_bytes`. -/
def fromBytes (bytes : Bytes) : Result Manifest := do
  if bytes.length < manifestHeaderSize + 4 then throw (.internal "Manifest bytes too small")
  let storedCrc := Bytes.toU32 (bytes.drop (bytes.length - 4))
  let actualCrc := env.crc32 (bytes.take (bytes.length - 4))
  if storedCrc ≠ actualCrc then throw (.checksumMismatch "manifest" storedCrc actualCrc)
  if Bytes.slice bytes 0 4 ≠ manifestMagic then throw (.internal "Invalid manifest magic")
  let version := Bytes.toU32 (Bytes.slice bytes 4 4)
  if version ≠ manifestVersion then
    throw (.internal s!"Unsupported manifest version: {version}")
  let totalSize := Bytes.toU64 (Bytes.slice bytes 8 8)
  let contentHash := FixedBytes.ofBytes 32 (Bytes.slice bytes 16 32)
  let createdAt := Bytes.toU64 (Bytes.slice bytes 48 8)
  let numChunks := (Bytes.toU32 (Bytes.slice bytes 56 4)).toNat
  let expectedLen := manifestHeaderSize + numChunks * 32 + 4
  if bytes.length ≠ expectedLen then
    throw (.internal s!"Manifest length mismatch: expected {expectedLen}, got {bytes.length}")
  return { totalSize, contentHash, createdAt, chunks := readChunks numChunks (bytes.drop 60) }

/-- The loop of `from_bytes` with its offsets, where an access out of bounds is a panic. -/
def readChunksChecked (bytes : Bytes) : Nat → Nat → Checked OosLiteError (List ChunkId)
  | 0, _ => pure []
  | count + 1, offset => do
    let id ← Checked.field bytes offset 32
    let chunks ← readChunksChecked bytes count (← Checked.add offset 32)
    return FixedBytes.ofBytes 32 id :: chunks

/-- `from_bytes` with its offsets. A `ChunkId` takes 32 bytes. -/
def fromBytesChecked (bytes : Bytes) : Checked OosLiteError Manifest := do
  if bytes.length < manifestHeaderSize + 4 then throw (.internal "Manifest bytes too small")
  let stop ← Checked.sub bytes.length 4
  let storedCrc ← Checked.array 4 (← Checked.slice bytes stop bytes.length)
  let storedCrc := Bytes.toU32 storedCrc
  let actualCrc := env.crc32 (← Checked.slice bytes 0 stop)
  if storedCrc ≠ actualCrc then throw (.checksumMismatch "manifest" storedCrc actualCrc)
  if (← Checked.slice bytes 0 4) ≠ manifestMagic then throw (.internal "Invalid manifest magic")
  let version ← Checked.field bytes 4 4
  let version := Bytes.toU32 version
  if version ≠ manifestVersion then
    throw (.internal s!"Unsupported manifest version: {version}")
  let totalSize ← Checked.field bytes 8 8
  let contentHash ← Checked.field bytes 16 32
  let createdAt ← Checked.field bytes 48 8
  let numChunks ← Checked.field bytes 56 4
  let numChunks := (Bytes.toU32 numChunks).toNat
  let expectedLen ← Checked.add manifestHeaderSize (← Checked.mul numChunks 32)
  let expectedLen ← Checked.add expectedLen 4
  if bytes.length ≠ expectedLen then
    throw (.internal s!"Manifest length mismatch: expected {expectedLen}, got {bytes.length}")
  Checked.withCapacity numChunks 32
  let chunks ← readChunksChecked bytes numChunks manifestHeaderSize
  return { totalSize := Bytes.toU64 totalSize, contentHash := FixedBytes.ofBytes 32 contentHash
           createdAt := Bytes.toU64 createdAt, chunks }

theorem length_flatMap_bytes (ids : List ChunkId) :
    (ids.flatMap FixedBytes.bytes).length = ids.length * 32 := by
  induction ids with
  | nil => rfl
  | cons id ids ih => simp [ih]; omega

theorem length_toBytes (m : Manifest) :
    (m.toBytes env).length = manifestHeaderSize + m.chunks.length * 32 + 4 := by
  simp only [toBytes, body, List.length_append, length_flatMap_bytes, Bytes.length_ofU32,
    Bytes.length_ofU64, FixedBytes.length_eq, manifestMagic, manifestHeaderSize, List.length_cons,
    List.length_nil]

theorem readChunks_flatMap (ids : List ChunkId) (rest : Bytes) :
    readChunks ids.length (ids.flatMap FixedBytes.bytes ++ rest) = ids := by
  induction ids with
  | nil => rfl
  | cons id ids ih =>
    rw [List.length_cons, List.flatMap_cons, List.append_assoc, readChunks,
      Bytes.take_field id.length_eq, Bytes.drop_field id.length_eq, FixedBytes.ofBytes_bytes, ih]

/-- A manifest whose chunks the count field can number comes back from its binary form. -/
theorem fromBytes_toBytes {m : Manifest} (h : m.chunks.length < 2 ^ 32) :
    fromBytes env (m.toBytes env) = .ok m := by
  have count : (UInt32.ofNat m.chunks.length).toNat = m.chunks.length :=
    UInt32.toNat_ofNat_of_lt' h
  obtain ⟨crc, hcrc⟩ : ∃ crc, crc = Bytes.ofU32 (env.crc32 m.body) := ⟨_, rfl⟩
  have bytes : m.toBytes env = manifestMagic ++ (Bytes.ofU32 manifestVersion ++
      (Bytes.ofU64 m.totalSize ++ (m.contentHash.bytes ++ (Bytes.ofU64 m.createdAt ++
        (Bytes.ofU32 (UInt32.ofNat m.chunks.length) ++
          (m.chunks.flatMap FixedBytes.bytes ++ crc)))))) := by
    simp [toBytes, body, hcrc, List.append_assoc]
  have bodyLength : (m.toBytes env).length - 4 = m.body.length := by
    simp [toBytes]
  have f₀ : Bytes.slice (m.toBytes env) 0 4 = manifestMagic := by
    rw [bytes]; exact Bytes.slice_first rfl
  have f₁ : Bytes.slice (m.toBytes env) 4 4 = Bytes.ofU32 manifestVersion := by
    rw [bytes]; exact Bytes.slice_field rfl (by simp)
  have f₂ : Bytes.slice (m.toBytes env) 8 8 = Bytes.ofU64 m.totalSize := by
    rw [bytes, ← List.append_assoc]; exact Bytes.slice_field (by simp [manifestMagic]) (by simp)
  have f₃ : Bytes.slice (m.toBytes env) 16 32 = m.contentHash.bytes := by
    rw [bytes, ← List.append_assoc, ← List.append_assoc]
    exact Bytes.slice_field (by simp [manifestMagic]) (by simp)
  have f₄ : Bytes.slice (m.toBytes env) 48 8 = Bytes.ofU64 m.createdAt := by
    rw [bytes, ← List.append_assoc, ← List.append_assoc, ← List.append_assoc]
    exact Bytes.slice_field (by simp [manifestMagic]) (by simp)
  have f₅ : Bytes.slice (m.toBytes env) 56 4 =
      Bytes.ofU32 (UInt32.ofNat m.chunks.length) := by
    rw [bytes, ← List.append_assoc, ← List.append_assoc, ← List.append_assoc, ← List.append_assoc]
    exact Bytes.slice_field (by simp [manifestMagic]) (by simp)
  have f₆ : (m.toBytes env).drop 60 = m.chunks.flatMap FixedBytes.bytes ++ crc := by
    rw [bytes, ← List.append_assoc, ← List.append_assoc, ← List.append_assoc,
      ← List.append_assoc, ← List.append_assoc]
    exact Bytes.drop_field (by simp [manifestMagic])
  have tail : (m.toBytes env).drop ((m.toBytes env).length - 4) = crc := by
    rw [bodyLength, toBytes, List.drop_left, hcrc]
  have front : (m.toBytes env).take ((m.toBytes env).length - 4) = m.body := by
    rw [bodyLength, toBytes, List.take_left]
  have size := length_toBytes env m
  have big : ¬ (m.toBytes env).length < manifestHeaderSize + 4 := by omega
  rw [fromBytes, if_neg big]
  simp only [tail, front, f₀, f₁, f₂, f₃, f₄, f₅, f₆, hcrc, Bytes.toU32_ofU32,
    Bytes.toU64_ofU64, count]
  simp only [size, readChunks_flatMap, FixedBytes.ofBytes_bytes, ne_eq,
    not_true_eq_false, if_false]
  rfl

end Manifest

end OosLite
