import OosLite.Env
import OosLite.Lib.Framing

/-!
# Segment files

A segment file is a header of 32 bytes and one record after the other. A record is a header,
of 80 bytes now and of 56 in older files, and the stored payload of one chunk.
-/

namespace OosLite

/-- `b"OOSS"`. -/
def segmentMagic : Bytes := [79, 79, 83, 83]

def segmentVersion : UInt32 := 3

def segmentHeaderSize : Nat := 32

/-- `b"OOSR"`. -/
def recordMagicV2 : Bytes := [79, 79, 83, 82]

/-- `b"OSR3"`. -/
def recordMagicV3 : Bytes := [79, 83, 82, 51]

def recordHeaderSizeV2 : Nat := 56

def recordHeaderSizeV3 : Nat := 80

/-- `RECORD_HEADER_SIZE`. -/
def recordHeaderSize : Nat := recordHeaderSizeV3

def defaultMaxSegmentSize : Nat := 256 * 1024 * 1024

inductive CompressionCodec where
  | none
  | zstd
  deriving DecidableEq

def CompressionCodec.toU8 : CompressionCodec → UInt8
  | .none => 0
  | .zstd => 1

inductive EncryptionScheme where
  | none
  | xChaCha20Poly1305
  deriving DecidableEq

def EncryptionScheme.toU8 : EncryptionScheme → UInt8
  | .none => 0
  | .xChaCha20Poly1305 => 1

/-- What `read_exact` reports at the end of a file. -/
def eofError : OosLiteError := .io .unexpectedEof "failed to fill whole buffer"

structure SegmentHeader where
  segmentId : Nat
  createdAt : UInt64
  deriving DecidableEq

namespace SegmentHeader

/-- `write_to`. -/
def toBytes (h : SegmentHeader) : Bytes :=
  segmentMagic ++ Bytes.ofU32 segmentVersion ++ Bytes.ofNatLE 8 h.segmentId ++
    Bytes.ofU64 h.createdAt ++ List.replicate 8 0

/-- `read_from`, on the contents of a file. -/
def readFrom (file : Bytes) : Result SegmentHeader :=
  if file.length < segmentHeaderSize then .error eofError
  else if Bytes.slice file 0 4 ≠ segmentMagic then
    .error (.corruptedSegment 0 "Invalid segment magic header")
  else
    let version := Bytes.toU32 (Bytes.slice file 4 4)
    if version ≠ segmentVersion ∧ version ≠ 2 ∧ version ≠ 1 then
      .error (.corruptedSegment 4 s!"Unsupported segment version: {version}")
    else .ok { segmentId := Bytes.toNatLE (Bytes.slice file 8 8)
               createdAt := Bytes.toU64 (Bytes.slice file 16 8) }

@[simp] theorem length_toBytes (h : SegmentHeader) : h.toBytes.length = segmentHeaderSize := by
  simp [toBytes, segmentMagic, segmentHeaderSize]

/-- A written header is accepted, whatever follows. -/
theorem readFrom_toBytes (h : SegmentHeader) (rest : Bytes) :
    ∃ h', readFrom (h.toBytes ++ rest) = .ok h' := by
  have bytes : h.toBytes ++ rest = segmentMagic ++ (Bytes.ofU32 segmentVersion ++
      (Bytes.ofNatLE 8 h.segmentId ++ (Bytes.ofU64 h.createdAt ++
        (List.replicate 8 0 ++ rest)))) := by
    simp only [toBytes, List.append_assoc]
  have f₀ : Bytes.slice (h.toBytes ++ rest) 0 4 = segmentMagic := by
    rw [bytes]; exact Bytes.slice_first rfl
  have f₁ : Bytes.slice (h.toBytes ++ rest) 4 4 = Bytes.ofU32 segmentVersion := by
    rw [bytes]; exact Bytes.slice_field rfl (by simp)
  have long : ¬ (h.toBytes ++ rest).length < segmentHeaderSize := by simp
  rw [readFrom, if_neg long, if_neg (not_not_intro f₀)]
  simp only [f₁, Bytes.toU32_ofU32]
  rw [if_neg (by simp)]
  exact ⟨_, rfl⟩

end SegmentHeader

/-- `RecordHeader`. -/
structure RecordHeader where
  chunkId : ChunkId
  compressionCodec : CompressionCodec
  encryptionScheme : EncryptionScheme
  rawLen : UInt32
  payloadLen : UInt32
  payloadCrc : UInt32
  nonce : Nonce
  headerSize : Nat
  deriving DecidableEq

namespace RecordHeader

variable (env : Env)

/-- `new`. -/
def new (chunkId : ChunkId) (compressionCodec : CompressionCodec)
    (encryptionScheme : EncryptionScheme) (rawLen : UInt32) (storedPayload : Bytes)
    (nonce : Nonce) : RecordHeader where
  chunkId := chunkId
  compressionCodec := compressionCodec
  encryptionScheme := encryptionScheme
  rawLen := rawLen
  payloadLen := UInt32.ofNat storedPayload.length
  payloadCrc := env.crc32 storedPayload
  nonce := nonce
  headerSize := recordHeaderSizeV3

/-- `aad`. -/
def aad (h : RecordHeader) : Bytes :=
  h.chunkId.bytes ++ [h.compressionCodec.toU8, h.encryptionScheme.toU8] ++ Bytes.ofU32 h.rawLen ++
    Bytes.ofU32 h.payloadLen

/-- `write_to` up to the header checksum. -/
def body (h : RecordHeader) : Bytes :=
  recordMagicV3 ++ h.chunkId.bytes ++ [h.compressionCodec.toU8] ++ [h.encryptionScheme.toU8] ++
    [0, 0] ++ Bytes.ofU32 h.rawLen ++ Bytes.ofU32 h.payloadLen ++ Bytes.ofU32 h.payloadCrc ++
    h.nonce.bytes

/-- `write_to`. -/
def toBytes (h : RecordHeader) : Bytes := h.body ++ Bytes.ofU32 (env.crc32 h.body)

/-- The codec byte of a header. -/
def readCodec (b : UInt8) : Result CompressionCodec :=
  if b = 0 then .ok .none
  else if b = 1 then .ok .zstd
  else .error (.io .invalidData ("Unsupported compression codec 0x" ++ Text.hex [b]))

/-- The scheme byte of a header. -/
def readScheme (b : UInt8) : Result EncryptionScheme :=
  if b = 0 then .ok .none
  else if b = 1 then .ok .xChaCha20Poly1305
  else .error (.io .invalidData ("Unsupported encryption scheme 0x" ++ Text.hex [b]))

/-- The branch of `read_from` for the header of 80 bytes. -/
def readV3 (r : Bytes) : Result (Option RecordHeader) :=
  if r.length < recordHeaderSizeV3 then .error eofError
  else if env.crc32 (r.take 76) ≠ Bytes.toU32 (Bytes.slice r 76 4) then
    .error (.io .invalidData
      "Record header checksum mismatch (partial write or corrupted record)")
  else do
    let compressionCodec ← readCodec ((Bytes.slice r 36 1).headD 0)
    let encryptionScheme ← readScheme ((Bytes.slice r 37 1).headD 0)
    return some
      { chunkId := FixedBytes.ofBytes 32 (Bytes.slice r 4 32)
        compressionCodec := compressionCodec
        encryptionScheme := encryptionScheme
        rawLen := Bytes.toU32 (Bytes.slice r 40 4)
        payloadLen := Bytes.toU32 (Bytes.slice r 44 4)
        payloadCrc := Bytes.toU32 (Bytes.slice r 48 4)
        nonce := FixedBytes.ofBytes 24 (Bytes.slice r 52 24)
        headerSize := recordHeaderSizeV3 }

/-- The branch of `read_from` for the older header of 56 bytes. -/
def readV2 (r : Bytes) : Result (Option RecordHeader) :=
  if r.length < recordHeaderSizeV2 then .error eofError
  else if env.crc32 (r.take 52) ≠ Bytes.toU32 (Bytes.slice r 52 4) then
    .error (.io .invalidData "Legacy v2 record header checksum mismatch")
  else do
    let compressionCodec ← readCodec ((Bytes.slice r 36 1).headD 0)
    return some
      { chunkId := FixedBytes.ofBytes 32 (Bytes.slice r 4 32)
        compressionCodec := compressionCodec
        encryptionScheme := .none
        rawLen := Bytes.toU32 (Bytes.slice r 40 4)
        payloadLen := Bytes.toU32 (Bytes.slice r 44 4)
        payloadCrc := Bytes.toU32 (Bytes.slice r 48 4)
        nonce := FixedBytes.ofBytes 24 []
        headerSize := recordHeaderSizeV2 }

/-- `read_from`, on the bytes from the position of the file on. -/
def readFrom (r : Bytes) : Result (Option RecordHeader) :=
  if r.length < 4 then .ok none
  else if r.take 4 = recordMagicV3 then readV3 env r
  else if r.take 4 = recordMagicV2 then readV2 env r
  else .error (.io .invalidData s!"Invalid record magic: {(r.take 4).map UInt8.toNat}")

end RecordHeader

/-- `ChunkLocation`. -/
structure ChunkLocation where
  segmentId : Nat
  recordOffset : Nat
  payloadOffset : Nat
  payloadLen : UInt32
  rawLen : UInt32
  deriving DecidableEq

/-! ## What a chunk is stored as -/

section Stored

variable (env : Env)

/-- The compressed form of a chunk, if it is shorter by a twentieth at least. -/
def compress (data : Bytes) : Bytes × CompressionCodec :=
  match env.zstdEncode data with
  | some comp => if comp.length < data.length * 95 / 100 then (comp, .zstd) else (data, .none)
  | none => (data, .none)

/-- The stored payload of a chunk, with its codec, its scheme and its nonce. -/
def finalPayload (chunkId : ChunkId) (data : Bytes) (nonce : Nonce) :
    Bytes × CompressionCodec × EncryptionScheme × Nonce :=
  let (compressed, codec) := compress env data
  match env.vaultKey with
  | some vk =>
    let dummy : RecordHeader :=
      { chunkId, compressionCodec := codec, encryptionScheme := .xChaCha20Poly1305
        rawLen := UInt32.ofNat data.length, payloadLen := UInt32.ofNat (compressed.length + 16)
        payloadCrc := 0, nonce, headerSize := recordHeaderSizeV3 }
    (vk.encryptChunk env compressed nonce dummy.aad, codec, .xChaCha20Poly1305, nonce)
  | none => (compressed, codec, .none, FixedBytes.ofBytes 24 [])

/-- The header and the payload of the record that stores a chunk. -/
def chunkRecord (chunkId : ChunkId) (data : Bytes) (nonce : Nonce) : RecordHeader × Bytes :=
  let (payload, codec, scheme, nonce) := finalPayload env chunkId data nonce
  (RecordHeader.new env chunkId codec scheme (UInt32.ofNat data.length) payload nonce, payload)

/-- The length of the stored payload of a chunk. -/
def storedLen (data : Bytes) : Nat :=
  (compress env data).1.length + if env.vaultKey.isSome then 16 else 0

/-- The cryptographic layer of `read_chunk`. -/
def decryptPayload (header : RecordHeader) (storedPayload : Bytes) : Result Bytes :=
  match header.encryptionScheme with
  | .none => .ok storedPayload
  | .xChaCha20Poly1305 => match env.vaultKey with
    | none => .error .passwordRequired
    | some vk => vk.decryptChunk env storedPayload header.nonce header.aad

/-- The compression layer of `read_chunk`. -/
def decompress (recordOffset : Nat) (chunkId : ChunkId) (codec : CompressionCodec)
    (payload : Bytes) : Result Bytes :=
  match codec with
  | .none => .ok payload
  | .zstd => match env.zstdDecode payload with
    | some raw => .ok raw
    | none => .error (.corruptedSegment recordOffset
        ("Failed to decompress zstd chunk " ++ chunkId.toHex))

/-- The part of `read_chunk` that checks and decodes the payload. -/
def readPayload (file : Bytes) (chunkId : ChunkId) (location : ChunkLocation)
    (header : RecordHeader) : Result Bytes :=
  let storedPayload := Bytes.slice file (location.recordOffset + header.headerSize)
    header.payloadLen.toNat
  let actualCrc := env.crc32 storedPayload
  if header.payloadLen ≠ location.payloadLen then
    .error (.corruptedSegment location.recordOffset
      s!"Record payload length mismatch: index {location.payloadLen}, header {header.payloadLen}")
  else if header.payloadLen.toNat > defaultMaxSegmentSize then
    .error (.corruptedSegment location.recordOffset
      s!"Record payload length {header.payloadLen} exceeds maximum segment size {defaultMaxSegmentSize}")
  else if location.recordOffset + recordHeaderSize + header.payloadLen.toNat > file.length then
    .error (.corruptedSegment location.recordOffset
      s!"Record total size (offset {location.recordOffset} + payload {header.payloadLen}) exceeds segment file length {file.length}")
  else if header.payloadCrc ≠ actualCrc then
    .error (.checksumMismatch chunkId.toHex header.payloadCrc actualCrc)
  else do
    let decrypted ← decryptPayload env header storedPayload
    let rawBytes ← decompress env location.recordOffset chunkId header.compressionCodec decrypted
    if ChunkId.fromData env rawBytes ≠ chunkId then
      .error (.internal ("Content-addressed hash mismatch for chunk " ++ chunkId.toHex ++
        ": actual is " ++ (ChunkId.fromData env rawBytes).toHex))
    else .ok rawBytes

/-- `read_chunk`, on the contents of the segment file. -/
def readRecord (file : Bytes) (chunkId : ChunkId) (location : ChunkLocation) : Result Bytes :=
  if location.recordOffset + recordHeaderSize > file.length then
    .error (.corruptedSegment location.recordOffset "Record offset exceeds segment file length")
  else do
    match ← RecordHeader.readFrom env (file.drop location.recordOffset) with
    | none => .error (.corruptedSegment location.recordOffset
        "Unexpected EOF while reading record header")
    | some header => readPayload env file chunkId location header

end Stored

/-! ## Scanning a segment -/

/-- Why a scan of a segment stops before its end. -/
inductive SegmentStop where
  | incompletePayload
  | payloadMismatch
  | noHeader
  | invalid (error : OosLiteError)
  deriving DecidableEq

/-- What the loop of `recover_and_index` makes of the bytes from an offset on. -/
def nextRecord (env : Env) (r : Bytes) : Framing.Verdict RecordHeader SegmentStop :=
  match RecordHeader.readFrom env r with
  | .ok (some header) =>
    let recordLen := header.headerSize + header.payloadLen.toNat
    if recordLen > r.length then .stop .incompletePayload
    else if env.crc32 (Bytes.slice r header.headerSize header.payloadLen.toNat) ≠ header.payloadCrc
    then .stop .payloadMismatch
    else .item header recordLen
  | .ok none => .stop .noHeader
  | .error e => .stop (.invalid e)

/-! ## Round trip -/

namespace RecordHeader

variable {env : Env}

@[simp] theorem length_body (h : RecordHeader) : h.body.length = 76 := by
  simp [body, recordMagicV3]

@[simp] theorem length_toBytes (h : RecordHeader) : (h.toBytes env).length = recordHeaderSizeV3 := by
  simp [toBytes, recordHeaderSizeV3]

/-- The fields of a header that was written, whatever follows. -/
theorem readFrom_toBytes {h : RecordHeader} (v3 : h.headerSize = recordHeaderSizeV3)
    (rest : Bytes) : readFrom env (h.toBytes env ++ rest) = .ok (some h) := by
  obtain ⟨r, hr⟩ : ∃ r, r = h.toBytes env ++ rest := ⟨_, rfl⟩
  have whole : r = h.body ++ (Bytes.ofU32 (env.crc32 h.body) ++ rest) := by
    rw [hr, toBytes, List.append_assoc]
  have bytes : r = recordMagicV3 ++ (h.chunkId.bytes ++ ([h.compressionCodec.toU8] ++
      ([h.encryptionScheme.toU8] ++ ([0, 0] ++ (Bytes.ofU32 h.rawLen ++ (Bytes.ofU32 h.payloadLen ++
        (Bytes.ofU32 h.payloadCrc ++ (h.nonce.bytes ++
          (Bytes.ofU32 (env.crc32 h.body) ++ rest))))))))) := by
    rw [whole]
    simp only [body, List.append_assoc]
  have f₀ : r.take 4 = recordMagicV3 := by rw [bytes]; exact Bytes.take_field rfl
  have f₁ : Bytes.slice r 4 32 = h.chunkId.bytes := by
    rw [bytes]; exact Bytes.slice_field rfl (by simp)
  have f₂ : Bytes.slice r 36 1 = [h.compressionCodec.toU8] := by
    rw [bytes, ← List.append_assoc]; exact Bytes.slice_field (by simp [recordMagicV3]) rfl
  have f₃ : Bytes.slice r 37 1 = [h.encryptionScheme.toU8] := by
    rw [bytes, ← List.append_assoc, ← List.append_assoc]
    exact Bytes.slice_field (by simp [recordMagicV3]) rfl
  have f₄ : Bytes.slice r 40 4 = Bytes.ofU32 h.rawLen := by
    rw [bytes, ← List.append_assoc, ← List.append_assoc, ← List.append_assoc, ← List.append_assoc]
    exact Bytes.slice_field (by simp [recordMagicV3]) (by simp)
  have f₅ : Bytes.slice r 44 4 = Bytes.ofU32 h.payloadLen := by
    rw [bytes, ← List.append_assoc, ← List.append_assoc, ← List.append_assoc, ← List.append_assoc,
      ← List.append_assoc]
    exact Bytes.slice_field (by simp [recordMagicV3]) (by simp)
  have f₆ : Bytes.slice r 48 4 = Bytes.ofU32 h.payloadCrc := by
    rw [bytes, ← List.append_assoc, ← List.append_assoc, ← List.append_assoc, ← List.append_assoc,
      ← List.append_assoc, ← List.append_assoc]
    exact Bytes.slice_field (by simp [recordMagicV3]) (by simp)
  have f₇ : Bytes.slice r 52 24 = h.nonce.bytes := by
    rw [bytes, ← List.append_assoc, ← List.append_assoc, ← List.append_assoc, ← List.append_assoc,
      ← List.append_assoc, ← List.append_assoc, ← List.append_assoc]
    exact Bytes.slice_field (by simp [recordMagicV3]) (by simp)
  have f₈ : Bytes.slice r 76 4 = Bytes.ofU32 (env.crc32 h.body) := by
    rw [whole]; exact Bytes.slice_field (by simp) (by simp)
  have f₉ : r.take 76 = h.body := by rw [whole]; exact Bytes.take_field (by simp)
  have long : ¬ r.length < recordHeaderSizeV3 := by
    rw [hr, List.length_append, length_toBytes]; omega
  have longer : ¬ r.length < 4 := by
    have := (by decide : 4 ≤ recordHeaderSizeV3)
    omega
  have codec : readCodec h.compressionCodec.toU8 = .ok h.compressionCodec := by
    cases h.compressionCodec <;> rfl
  have scheme : readScheme h.encryptionScheme.toU8 = .ok h.encryptionScheme := by
    cases h.encryptionScheme <;> rfl
  rw [← hr, readFrom, if_neg longer, if_pos f₀, readV3, if_neg long, f₉, f₈, Bytes.toU32_ofU32,
    if_neg (not_not_intro rfl)]
  simp only [f₁, f₂, f₃, f₄, f₅, f₆, f₇, Bytes.toU32_ofU32, List.headD_cons, codec, scheme,
    FixedBytes.ofBytes_bytes, bind, Except.bind]
  rw [← v3]
  rfl

/-- Only the bytes of the header matter. -/
theorem readV3_congr {r r' : Bytes} (same : r'.take recordHeaderSizeV3 = r.take recordHeaderSizeV3)
    (long : recordHeaderSizeV3 ≤ r.length) (long' : recordHeaderSizeV3 ≤ r'.length) :
    readV3 env r' = readV3 env r := by
  have field (start count : Nat) (h : start + count ≤ recordHeaderSizeV3) :
      Bytes.slice r' start count = Bytes.slice r start count := by
    rw [← Bytes.slice_take h, same, Bytes.slice_take h]
  have front : r'.take 76 = r.take 76 := by
    simpa [List.take_take, recordHeaderSizeV3] using congrArg (List.take 76) same
  rw [readV3, readV3, if_neg (Nat.not_lt.2 long), if_neg (Nat.not_lt.2 long'), front,
    field 76 4 (by decide), field 36 1 (by decide), field 37 1 (by decide), field 4 32 (by decide),
    field 40 4 (by decide), field 44 4 (by decide), field 48 4 (by decide), field 52 24 (by decide)]

/-- Only the bytes of the header matter. -/
theorem readV2_congr {r r' : Bytes} (same : r'.take recordHeaderSizeV2 = r.take recordHeaderSizeV2)
    (long : recordHeaderSizeV2 ≤ r.length) (long' : recordHeaderSizeV2 ≤ r'.length) :
    readV2 env r' = readV2 env r := by
  have field (start count : Nat) (h : start + count ≤ recordHeaderSizeV2) :
      Bytes.slice r' start count = Bytes.slice r start count := by
    rw [← Bytes.slice_take h, same, Bytes.slice_take h]
  have front : r'.take 52 = r.take 52 := by
    simpa [List.take_take, recordHeaderSizeV2] using congrArg (List.take 52) same
  rw [readV2, readV2, if_neg (Nat.not_lt.2 long), if_neg (Nat.not_lt.2 long'), front,
    field 52 4 (by decide), field 36 1 (by decide), field 4 32 (by decide),
    field 40 4 (by decide), field 44 4 (by decide), field 48 4 (by decide)]

theorem readV3_eq_some {r : Bytes} {h : RecordHeader} (ok : readV3 env r = .ok (some h)) :
    recordHeaderSizeV3 ≤ r.length ∧ h.headerSize = recordHeaderSizeV3 := by
  rw [readV3] at ok
  split at ok
  · cases ok
  · rename_i long
    split at ok
    · cases ok
    · obtain ⟨_, -, ok⟩ := Result.bind_eq_ok.1 ok
      obtain ⟨_, -, ok⟩ := Result.bind_eq_ok.1 ok
      cases ok
      exact ⟨Nat.le_of_not_lt long, rfl⟩

theorem readV2_eq_some {r : Bytes} {h : RecordHeader} (ok : readV2 env r = .ok (some h)) :
    recordHeaderSizeV2 ≤ r.length ∧ h.headerSize = recordHeaderSizeV2 := by
  rw [readV2] at ok
  split at ok
  · cases ok
  · rename_i long
    split at ok
    · cases ok
    · obtain ⟨_, -, ok⟩ := Result.bind_eq_ok.1 ok
      cases ok
      exact ⟨Nat.le_of_not_lt long, rfl⟩

/-- A header is its bytes: whatever begins with them has this header, and what stops before their
end has none yet. -/
theorem readFrom_eq_some {r : Bytes} {h : RecordHeader} (ok : readFrom env r = .ok (some h)) :
    4 ≤ r.length ∧ 4 ≤ h.headerSize ∧ h.headerSize ≤ r.length ∧ h.headerSize ≤ recordHeaderSizeV3 ∧
      ∀ r' : Bytes, 4 ≤ r'.length → r'.take 4 = r.take 4 →
        (r'.length < h.headerSize → readFrom env r' = .error eofError) ∧
        (h.headerSize ≤ r'.length → r'.take h.headerSize = r.take h.headerSize →
          readFrom env r' = .ok (some h)) := by
  rw [readFrom] at ok
  split at ok
  · cases ok
  · rename_i long
    split at ok
    · rename_i v3
      obtain ⟨long', size⟩ := readV3_eq_some ok
      refine ⟨Nat.le_of_not_lt long, size ▸ by decide, size ▸ long', Nat.le_of_eq size,
        fun r' four magic => ⟨fun short => ?_, fun enough same => ?_⟩⟩
      · rw [readFrom, if_neg (Nat.not_lt.2 four), if_pos (magic.trans v3), readV3,
          if_pos (size ▸ short)]
      · rw [size] at enough same
        rw [readFrom, if_neg (Nat.not_lt.2 four), if_pos (magic.trans v3),
          readV3_congr same long' enough, ok]
    · rename_i v3
      split at ok
      · rename_i v2
        obtain ⟨long', size⟩ := readV2_eq_some ok
        refine ⟨Nat.le_of_not_lt long, size ▸ by decide, size ▸ long', size ▸ by decide,
          fun r' four magic => ⟨fun short => ?_, fun enough same => ?_⟩⟩
        · rw [readFrom, if_neg (Nat.not_lt.2 four), if_neg (magic ▸ v3), if_pos (magic.trans v2),
            readV2, if_pos (size ▸ short)]
        · rw [size] at enough same
          rw [readFrom, if_neg (Nat.not_lt.2 four), if_neg (magic ▸ v3), if_pos (magic.trans v2),
            readV2_congr same long' enough, ok]
      · cases ok

end RecordHeader

/-- The stops that recovery repairs at the end of the newest segment. -/
def SegmentStop.repairable : SegmentStop → Bool
  | .incompletePayload | .noHeader => true
  | .invalid (.io .unexpectedEof _) => true
  | .payloadMismatch | .invalid _ => false

theorem nextRecord_eq_item {env : Env} {r : Bytes} {h : RecordHeader} {size : Nat}
    (item : nextRecord env r = .item h size) : RecordHeader.readFrom env r = .ok (some h) ∧
      size = h.headerSize + h.payloadLen.toNat ∧ size ≤ r.length := by
  rw [nextRecord] at item
  split at item
  · rename_i header read
    simp only at item
    split at item
    · cases item
    · split at item
      · cases item
      · rename_i fits _
        cases item
        exact ⟨read, rfl, Nat.le_of_not_lt fits⟩
  · cases item
  · cases item

/-- The front of a record, of either form, is something recovery repairs. -/
theorem repairable_of_torn {env : Env} {bytes tail : Bytes} {h : RecordHeader}
    (record : Framing.IsFrame (nextRecord env) bytes h) (part : tail <+: bytes)
    (short : tail.length < bytes.length) :
    ∃ reason, nextRecord env tail = .stop reason ∧ reason.repairable = true := by
  have item := record.parse_append []
  rw [List.append_nil] at item
  obtain ⟨read, size, -⟩ := nextRecord_eq_item item
  obtain ⟨four, -, fits, -, depends⟩ := RecordHeader.readFrom_eq_some read
  have front (count : Nat) (h : count ≤ tail.length) : tail.take count = bytes.take count := by
    obtain ⟨rest, rfl⟩ := part
    rw [List.take_append_of_le_length h]
  by_cases tiny : tail.length < 4
  · rw [nextRecord, RecordHeader.readFrom, if_pos tiny]
    exact ⟨_, rfl, rfl⟩
  obtain ⟨early, whole⟩ := depends tail (Nat.le_of_not_lt tiny) (front 4 (Nat.le_of_not_lt tiny))
  by_cases header : tail.length < h.headerSize
  · rw [nextRecord, early header]
    exact ⟨_, rfl, rfl⟩
  · have enough := Nat.le_of_not_lt header
    rw [nextRecord, whole enough (front _ enough)]
    simp only
    rw [if_pos (by omega)]
    exact ⟨_, rfl, rfl⟩

section Records

variable {env : Env}

/-- A record whose header describes its payload. -/
structure IsRecord (env : Env) (header : RecordHeader) (payload : Bytes) : Prop where
  v3 : header.headerSize = recordHeaderSizeV3
  len : header.payloadLen.toNat = payload.length
  crc : header.payloadCrc = env.crc32 payload

theorem IsRecord.slice {header : RecordHeader} {payload : Bytes} (h : IsRecord env header payload)
    (rest : Bytes) : Bytes.slice (header.toBytes env ++ (payload ++ rest)) header.headerSize
      header.payloadLen.toNat = payload := by
  rw [h.v3, h.len]
  exact Bytes.slice_field (by simp) rfl

/-- A written record is a frame of its segment. -/
theorem IsRecord.isFrame {header : RecordHeader} {payload : Bytes}
    (h : IsRecord env header payload) :
    Framing.IsFrame (nextRecord env) (header.toBytes env ++ payload) header := by
  refine ⟨fun empty => ?_, fun rest => ?_⟩
  · have := congrArg List.length empty
    rw [List.length_append, RecordHeader.length_toBytes, List.length_nil] at this
    simp only [recordHeaderSizeV3] at this
    omega
  · have fits : ¬ header.headerSize + header.payloadLen.toNat >
        (header.toBytes env ++ (payload ++ rest)).length := by
      rw [h.v3, h.len, List.length_append, List.length_append, RecordHeader.length_toBytes]
      omega
    rw [List.append_assoc, nextRecord, RecordHeader.readFrom_toBytes h.v3]
    simp only
    rw [if_neg fits, h.slice, if_neg (not_not_intro h.crc.symm), h.v3, h.len, List.length_append,
      RecordHeader.length_toBytes]

/-- The bytes of the record that stores a chunk. -/
def chunkRecordBytes (env : Env) (chunkId : ChunkId) (data : Bytes) (nonce : Nonce) : Bytes :=
  (chunkRecord env chunkId data nonce).1.toBytes env ++ (chunkRecord env chunkId data nonce).2

/-- A chunk whose stored form `read_chunk` accepts. -/
def Fits (env : Env) (data : Bytes) : Prop := storedLen env data ≤ defaultMaxSegmentSize

theorem length_compress_le (data : Bytes) : (compress env data).1.length ≤ data.length := by
  rw [compress]
  split
  · split
    · dsimp only
      omega
    · exact Nat.le_refl _
  · exact Nat.le_refl _

/-- Compressing makes no chunk longer, encrypting by no more than its tag. -/
theorem fits_of_length_le {data : Bytes} (h : data.length + 16 ≤ defaultMaxSegmentSize) :
    Fits env data := by
  have := @length_compress_le env data
  rw [Fits, storedLen]
  split <;> omega

@[simp] theorem length_finalPayload (chunkId : ChunkId) (data : Bytes) (nonce : Nonce) :
    (finalPayload env chunkId data nonce).1.length = storedLen env data := by
  cases key : env.vaultKey <;> simp [finalPayload, storedLen, key]

theorem length_chunkRecord_payload (chunkId : ChunkId) (data : Bytes) (nonce : Nonce) :
    (chunkRecord env chunkId data nonce).2.length = storedLen env data :=
  length_finalPayload chunkId data nonce

@[simp] theorem chunkRecord_chunkId (chunkId : ChunkId) (data : Bytes) (nonce : Nonce) :
    (chunkRecord env chunkId data nonce).1.chunkId = chunkId := rfl

theorem isRecord_chunkRecord (chunkId : ChunkId) {data : Bytes} (nonce : Nonce)
    (fits : Fits env data) :
    IsRecord env (chunkRecord env chunkId data nonce).1 (chunkRecord env chunkId data nonce).2 where
  v3 := rfl
  len := by
    have : storedLen env data < UInt32.size := by
      have := fits
      simp only [Fits, defaultMaxSegmentSize] at this
      simp only [UInt32.size]
      omega
    change (UInt32.ofNat (finalPayload env chunkId data nonce).1.length).toNat =
      (finalPayload env chunkId data nonce).1.length
    rw [length_finalPayload]
    exact UInt32.toNat_ofNat_of_lt' this
  crc := rfl

theorem decompress_compress (recordOffset : Nat) (chunkId : ChunkId) (data : Bytes) :
    decompress env recordOffset chunkId (compress env data).2 (compress env data).1 =
      .ok data := by
  rw [compress]
  cases packed : env.zstdEncode data with
  | none => rfl
  | some comp =>
    simp only
    split
    · simp only [decompress, env.zstdDecode_zstdEncode data comp packed]
    · rfl

theorem compressionCodec_chunkRecord (chunkId : ChunkId) (data : Bytes) (nonce : Nonce) :
    (chunkRecord env chunkId data nonce).1.compressionCodec = (compress env data).2 := by
  cases key : env.vaultKey <;> simp [chunkRecord, finalPayload, RecordHeader.new, key]

/-- Decryption gives back the compressed form: the header that authenticates it is the one the
payload was encrypted under. -/
theorem decryptPayload_chunkRecord (chunkId : ChunkId) (data : Bytes) (nonce : Nonce) :
    decryptPayload env (chunkRecord env chunkId data nonce).1
      (chunkRecord env chunkId data nonce).2 = .ok (compress env data).1 := by
  cases key : env.vaultKey with
  | none => simp [decryptPayload, chunkRecord, finalPayload, RecordHeader.new, key]
  | some vk =>
    have aad : (chunkRecord env chunkId data nonce).1.aad = RecordHeader.aad
        { chunkId, compressionCodec := (compress env data).2
          encryptionScheme := .xChaCha20Poly1305, rawLen := UInt32.ofNat data.length
          payloadLen := UInt32.ofNat ((compress env data).1.length + 16), payloadCrc := 0, nonce
          headerSize := recordHeaderSizeV3 } := by
      simp [chunkRecord, finalPayload, RecordHeader.new, RecordHeader.aad, key]
    rw [decryptPayload, aad]
    simp [chunkRecord, finalPayload, RecordHeader.new, key]

/-- The chunk that was stored is the chunk that is read, wherever its record lies. -/
theorem readRecord_chunkRecordBytes {data : Bytes} (nonce : Nonce) (fits : Fits env data)
    (before after : Bytes) {location : ChunkLocation} (offset : location.recordOffset = before.length)
    (len : location.payloadLen =
      (chunkRecord env (ChunkId.fromData env data) data nonce).1.payloadLen) :
    readRecord env (before ++ (chunkRecordBytes env (ChunkId.fromData env data) data nonce ++ after))
      (ChunkId.fromData env data) location = .ok data := by
  obtain ⟨id, hid⟩ : ∃ id, id = ChunkId.fromData env data := ⟨_, rfl⟩
  rw [← hid] at len ⊢
  have isRecord := isRecord_chunkRecord id nonce fits
  obtain ⟨h, hh⟩ : ∃ h, h = (chunkRecord env id data nonce).1 := ⟨_, rfl⟩
  obtain ⟨payload, hp⟩ : ∃ p, p = (chunkRecord env id data nonce).2 := ⟨_, rfl⟩
  rw [← hh, ← hp] at isRecord
  have bytes : chunkRecordBytes env id data nonce = h.toBytes env ++ payload := by rw [hh, hp]; rfl
  have small : payload.length ≤ defaultMaxSegmentSize := by
    rw [hp]
    exact (length_finalPayload id data nonce).trans_le fits
  obtain ⟨file, hfile⟩ : ∃ file, file = before ++ (chunkRecordBytes env id data nonce ++ after) :=
    ⟨_, rfl⟩
  have size : file.length = before.length + (recordHeaderSizeV3 + payload.length + after.length) := by
    rw [hfile, bytes]
    simp only [List.length_append, RecordHeader.length_toBytes]
  have rest : file.drop before.length = h.toBytes env ++ (payload ++ after) := by
    rw [hfile, List.drop_left, bytes, List.append_assoc]
  have stored : Bytes.slice file (before.length + h.headerSize) h.payloadLen.toNat = payload := by
    rw [isRecord.v3, isRecord.len, hfile, bytes, List.append_assoc, ← List.append_assoc before]
    exact Bytes.slice_field (by simp) rfl
  have c₁ : ¬ before.length + recordHeaderSize > file.length := by
    rw [size, recordHeaderSize]; omega
  have c₂ : ¬ h.payloadLen.toNat > defaultMaxSegmentSize := by rw [isRecord.len]; omega
  have c₃ : ¬ before.length + recordHeaderSize + h.payloadLen.toNat > file.length := by
    rw [size, isRecord.len, recordHeaderSize]; omega
  have c₄ : h.payloadLen = location.payloadLen := by rw [len, hh]
  rw [← hfile, readRecord]
  simp only [offset]
  rw [if_neg c₁, rest, RecordHeader.readFrom_toBytes isRecord.v3]
  simp only [bind, Except.bind]
  rw [readPayload]
  simp only [offset]
  rw [if_neg (not_not_intro c₄), if_neg c₂, if_neg c₃, stored, if_neg (not_not_intro isRecord.crc)]
  -- decryption and decompression undo what `chunkRecord` did
  have plain : decryptPayload env h payload = .ok (compress env data).1 := by
    rw [hh, hp]
    exact decryptPayload_chunkRecord id data nonce
  have raw : decompress env before.length id h.compressionCodec (compress env data).1 =
      .ok data := by
    rw [hh, compressionCodec_chunkRecord]
    exact decompress_compress _ id data
  rw [plain]
  simp only [bind, Except.bind]
  rw [raw]
  simp only
  rw [← hid, if_neg (not_not_intro rfl)]

/-- `read_chunk` gives nothing but data with the right digest. -/
theorem fromData_of_readRecord {file d : Bytes} {c : ChunkId} {location : ChunkLocation}
    (ok : readRecord env file c location = .ok d) : ChunkId.fromData env d = c := by
  rw [readRecord] at ok
  split at ok
  · cases ok
  obtain ⟨header, -, ok⟩ := Result.bind_eq_ok.1 ok
  cases header with
  | none => cases ok
  | some header =>
    simp only [readPayload] at ok
    split at ok
    · cases ok
    split at ok
    · cases ok
    split at ok
    · cases ok
    split at ok
    · cases ok
    obtain ⟨_, -, ok⟩ := Result.bind_eq_ok.1 ok
    obtain ⟨_, -, ok⟩ := Result.bind_eq_ok.1 ok
    split at ok
    · cases ok
    · rename_i same
      cases ok
      exact not_not.1 same

end Records

end OosLite
