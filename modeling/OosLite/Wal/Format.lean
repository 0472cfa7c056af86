import OosLite.Manifest
import OosLite.Lib.Framing

/-!
# Log records

The binary form of a write-ahead log record: a header of 21 bytes with the checksum of the
payload, and the payload, encrypted in an encrypted store.
-/

namespace OosLite

/-- `b"OOSW"`. -/
def walMagic : Bytes := [79, 79, 83, 87]

def walHeaderSize : Nat := 4 + 8 + 1 + 4 + 4

inductive WalRecordType where
  | putObject
  | checkpoint
  | encryptedPutObject
  deriving DecidableEq

namespace WalRecordType

def toU8 : WalRecordType → UInt8
  | .putObject => 1
  | .checkpoint => 2
  | .encryptedPutObject => 3

/-- `try_from`. -/
def tryFrom (val : UInt8) : Result WalRecordType :=
  if val = 1 then .ok .putObject
  else if val = 2 then .ok .checkpoint
  else if val = 3 then .ok .encryptedPutObject
  else .error (.walRecovery s!"Unknown WAL record type: {val}")

@[simp] theorem tryFrom_toU8 (t : WalRecordType) : tryFrom t.toU8 = .ok t := by
  cases t <;> rfl

end WalRecordType

structure WalPutPayload where
  name : String
  objectId : ObjectId
  version : UInt32
  manifest : Manifest
  chunks : List (ChunkId × Bytes)
  deriving DecidableEq

inductive WalRecordPayload where
  | putObject (put : WalPutPayload)
  | checkpoint (lsn : UInt64)
  deriving DecidableEq

structure WalRecord where
  lsn : UInt64
  payload : WalRecordPayload
  deriving DecidableEq

variable (env : Env)

/-- `checked_add` on `usize`. -/
def checkedAdd (a b : Nat) : Result Nat :=
  if a + b < 2 ^ 64 then .ok (a + b) else .error (.walRecovery "WAL payload size overflow")

/-- The loop of `checked_put_payload_len` over the chunk lengths. -/
def addChunkLens : Nat → List Nat → Result Nat
  | total, [] => .ok total
  | total, chunkLen :: rest => do
    if 2 ^ 32 ≤ chunkLen then
      throw (.walRecovery s!"WAL chunk is too large: {chunkLen} bytes exceeds u32 limit")
    let total ← checkedAdd total (32 + 4)
    let total ← checkedAdd total chunkLen
    addChunkLens total rest

/-- `checked_put_payload_len`. -/
def checkedPutPayloadLen (nameLen manifestLen : Nat) (chunkLengths : List Nat)
    (encrypted : Bool) : Result Nat := do
  let total ← checkedAdd 2 nameLen
  let total ← checkedAdd total (16 + 4 + 4)
  let total ← checkedAdd total manifestLen
  let total ← checkedAdd total 4
  let total ← addChunkLens total chunkLengths
  let total ← if encrypted then checkedAdd total (24 + 16) else .ok total
  if 2 ^ 32 ≤ total then
    throw (.walRecovery s!"WAL payload is too large: {total} bytes exceeds u32 limit")
  return total

namespace WalPutPayload

/-- One chunk with its identifier and length. -/
def chunkBytes (c : ChunkId × Bytes) : Bytes :=
  c.1.bytes ++ Bytes.ofU32 (UInt32.ofNat c.2.length) ++ c.2

/-- The payload of a put before encryption. -/
def toBytes (put : WalPutPayload) : Bytes :=
  Bytes.ofU16 (UInt16.ofNat (Text.utf8 put.name).length) ++ Text.utf8 put.name ++
    put.objectId.bytes ++ Bytes.ofU32 put.version ++
    Bytes.ofU32 (UInt32.ofNat (put.manifest.toBytes env).length) ++ put.manifest.toBytes env ++
    Bytes.ofU32 (UInt32.ofNat put.chunks.length) ++ put.chunks.flatMap chunkBytes

/-- The loop of `decode_with_vault` over the chunks of a put. -/
def readChunks : Nat → Bytes → Result (List (ChunkId × Bytes))
  | 0, _ => .ok []
  | count + 1, bytes => do
    if bytes.length < 36 then throw (.walRecovery "Truncated WAL chunk entry")
    let chunkId := FixedBytes.ofBytes 32 (Bytes.slice bytes 0 32)
    let dataLen := (Bytes.toU32 (Bytes.slice bytes 32 4)).toNat
    let bytes := bytes.drop 36
    if bytes.length < dataLen then
      throw (.walRecovery
        s!"WAL chunk data length {dataLen} exceeds remaining payload {bytes.length}")
    let chunks ← readChunks count (bytes.drop dataLen)
    return (chunkId, bytes.take dataLen) :: chunks

/-- The branch of `decode_with_vault` for puts. -/
def fromBytes (bytes : Bytes) : Result WalPutPayload := do
  if bytes.length < 2 then throw (.walRecovery "Truncated WAL name length")
  let nameLen := (Bytes.toU16 (bytes.take 2)).toNat
  let bytes := bytes.drop 2
  if bytes.length < nameLen then
    throw (.walRecovery
      s!"WAL name length {nameLen} exceeds remaining payload {bytes.length}")
  match Text.fromUtf8 (bytes.take nameLen) with
  | none => throw (.walRecovery "Invalid UTF-8 in WAL name")
  | some name =>
    let bytes := bytes.drop nameLen
    if bytes.length < 16 + 4 + 4 then throw (.walRecovery "Truncated WAL object header")
    let objectId := FixedBytes.ofBytes 16 (Bytes.slice bytes 0 16)
    let version := Bytes.toU32 (Bytes.slice bytes 16 4)
    let manifestLen := (Bytes.toU32 (Bytes.slice bytes 20 4)).toNat
    let bytes := bytes.drop 24
    if bytes.length < manifestLen then
      throw (.walRecovery
        s!"WAL manifest length {manifestLen} exceeds remaining payload {bytes.length}")
    let manifest ← Manifest.fromBytes env (bytes.take manifestLen)
    let bytes := bytes.drop manifestLen
    if bytes.length < 4 then throw (.walRecovery "Truncated WAL chunk count")
    let chunkCount := (Bytes.toU32 (bytes.take 4)).toNat
    let bytes := bytes.drop 4
    if chunkCount > bytes.length / 36 then
      throw (.walRecovery
        s!"WAL chunk count {chunkCount} exceeds payload capacity (remaining: {bytes.length} bytes)")
    let chunks ← readChunks chunkCount bytes
    return { name, objectId, version, manifest, chunks }

end WalPutPayload

namespace WalRecord

/-- The associated data of an encrypted record. -/
def aad (lsn : UInt64) (recordType : WalRecordType) : Bytes :=
  Bytes.ofU64 lsn ++ [recordType.toU8]

/-- A record around its final payload. -/
def frame (lsn : UInt64) (recordType : WalRecordType) (payload : Bytes) : Bytes :=
  walMagic ++ Bytes.ofU64 lsn ++ [recordType.toU8] ++ Bytes.ofU32 (UInt32.ofNat payload.length) ++
    Bytes.ofU32 (env.crc32 payload) ++ payload

/-- `encode_put`; `nonce` is what the random generator gives for an encrypted record. -/
def encodePut (lsn : UInt64) (put : WalPutPayload) (nonce : Nonce) : Result Bytes := do
  let nameLen := (Text.utf8 put.name).length
  if 2 ^ 16 ≤ nameLen then
    throw (.walRecovery s!"WAL name is too long: {nameLen} bytes exceeds u16 limit")
  let manifestLen := (put.manifest.toBytes env).length
  if 2 ^ 32 ≤ manifestLen then
    throw (.walRecovery s!"WAL manifest is too large: {manifestLen} bytes exceeds u32 limit")
  let chunkCount := put.chunks.length
  if 2 ^ 32 ≤ chunkCount then
    throw (.walRecovery s!"WAL chunk count {chunkCount} exceeds u32 limit")
  let chunkLengths := put.chunks.map fun c => c.2.length
  let _ ← checkedPutPayloadLen nameLen manifestLen chunkLengths false
  let _ ← checkedPutPayloadLen nameLen manifestLen chunkLengths env.vaultKey.isSome
  let payloadBuf := put.toBytes env
  let (recordType, finalPayload) := match env.vaultKey with
    | some vk => (WalRecordType.encryptedPutObject,
        nonce.bytes ++ vk.encryptChunk env payloadBuf nonce (aad lsn .encryptedPutObject))
    | none => (WalRecordType.putObject, payloadBuf)
  if 2 ^ 32 ≤ finalPayload.length then
    throw (.walRecovery
      s!"WAL payload is too large: {finalPayload.length} bytes exceeds u32 limit")
  return frame env lsn recordType finalPayload

/-- `encode_with_vault`. -/
def encodeWithVault (record : WalRecord) (nonce : Nonce) : Result Bytes :=
  match record.payload with
  | .putObject put => encodePut env record.lsn put nonce
  | .checkpoint lsn => .ok (frame env record.lsn .checkpoint (Bytes.ofU64 lsn))

/-- The plaintext of a payload. -/
def decrypt (lsn : UInt64) (payload : Bytes) : Result Bytes :=
  match env.vaultKey with
  | none => .error .passwordRequired
  | some vk =>
    if payload.length < 24 + 16 then .error (.walRecovery "Encrypted WAL payload too short")
    else vk.decryptChunk env (payload.drop 24) (FixedBytes.ofBytes 24 (payload.take 24))
      (aad lsn .encryptedPutObject)

/-- What a payload of each type says. -/
def readPayload (lsn : UInt64) (recordType : WalRecordType) (payload : Bytes) :
    Result WalRecordPayload :=
  match recordType with
  | .encryptedPutObject => do
    let plaintext ← decrypt env lsn payload
    return .putObject (← WalPutPayload.fromBytes env plaintext)
  | .putObject => return .putObject (← WalPutPayload.fromBytes env payload)
  | .checkpoint =>
    if payload.length < 8 then .error (.walRecovery "Truncated WAL checkpoint LSN")
    else .ok (.checkpoint (Bytes.toU64 (payload.take 8)))

/-- `decode_with_vault`: the record at the front of the bytes, and its size. -/
def decode (buf : Bytes) : Result (WalRecord × Nat) := do
  if buf.length < walHeaderSize then throw (.walRecovery "Buffer too short for WAL header")
  if Bytes.slice buf 0 4 ≠ walMagic then throw (.walRecovery "Invalid WAL magic bytes")
  let lsn := Bytes.toU64 (Bytes.slice buf 4 8)
  let recordType ← WalRecordType.tryFrom ((Bytes.slice buf 12 1).headD 0)
  let payloadLen := (Bytes.toU32 (Bytes.slice buf 13 4)).toNat
  let expectedCrc := Bytes.toU32 (Bytes.slice buf 17 4)
  let totalSize := walHeaderSize + payloadLen
  if buf.length < totalSize then throw (.walRecovery "Incomplete WAL payload")
  let payloadSlice := Bytes.slice buf walHeaderSize payloadLen
  let actualCrc := env.crc32 payloadSlice
  if actualCrc ≠ expectedCrc then
    throw (.checksumMismatch s!"WAL LSN {lsn}" expectedCrc actualCrc)
  let payload ← readPayload env lsn recordType payloadSlice
  return ({ lsn, payload }, totalSize)

/-! ## Round trip -/

section Frame

variable {env}

theorem length_frame (lsn : UInt64) (t : WalRecordType) (payload : Bytes) :
    (frame env lsn t payload).length = walHeaderSize + payload.length := by
  simp only [frame, walMagic, walHeaderSize, List.length_append, Bytes.length_ofU32,
    Bytes.length_ofU64, List.length_cons, List.length_nil]

theorem frame_eq (lsn : UInt64) (t : WalRecordType) (payload rest : Bytes) :
    frame env lsn t payload ++ rest = walMagic ++ (Bytes.ofU64 lsn ++ ([t.toU8] ++
      (Bytes.ofU32 (UInt32.ofNat payload.length) ++ (Bytes.ofU32 (env.crc32 payload) ++
        (payload ++ rest))))) := by
  simp only [frame, List.append_assoc]

/-- What the header of a framed payload says, whatever of the frame follows. -/
theorem decode_frame {lsn : UInt64} {t : WalRecordType} {payload : Bytes}
    (fits : payload.length < 2 ^ 32) (rest : Bytes) :
    decode env (frame env lsn t payload ++ rest) =
      (readPayload env lsn t payload).map fun p =>
        (⟨lsn, p⟩, (frame env lsn t payload).length) := by
  have len : (UInt32.ofNat payload.length).toNat = payload.length := UInt32.toNat_ofNat_of_lt' fits
  obtain ⟨buf, hbuf⟩ : ∃ buf, buf = frame env lsn t payload ++ rest := ⟨_, rfl⟩
  have bytes := hbuf.trans (frame_eq lsn t payload rest)
  have f₀ : Bytes.slice buf 0 4 = walMagic := by rw [bytes]; exact Bytes.slice_first rfl
  have f₁ : Bytes.slice buf 4 8 = Bytes.ofU64 lsn := by
    rw [bytes]; exact Bytes.slice_field rfl (by simp)
  have f₂ : Bytes.slice buf 12 1 = [t.toU8] := by
    rw [bytes, ← List.append_assoc]; exact Bytes.slice_field (by simp [walMagic]) rfl
  have f₃ : Bytes.slice buf 13 4 = Bytes.ofU32 (UInt32.ofNat payload.length) := by
    rw [bytes, ← List.append_assoc, ← List.append_assoc]
    exact Bytes.slice_field (by simp [walMagic]) (by simp)
  have f₄ : Bytes.slice buf 17 4 = Bytes.ofU32 (env.crc32 payload) := by
    rw [bytes, ← List.append_assoc, ← List.append_assoc, ← List.append_assoc]
    exact Bytes.slice_field (by simp [walMagic]) (by simp)
  have f₅ : Bytes.slice buf walHeaderSize payload.length = payload := by
    rw [bytes, ← List.append_assoc, ← List.append_assoc, ← List.append_assoc,
      ← List.append_assoc]
    exact Bytes.slice_field (by simp [walMagic, walHeaderSize]) rfl
  have size : buf.length = walHeaderSize + payload.length + rest.length := by
    rw [hbuf, List.length_append, length_frame]
  have big : ¬ buf.length < walHeaderSize := by omega
  have whole : ¬ buf.length < walHeaderSize + payload.length := by omega
  rw [← hbuf, decode, if_neg big]
  simp only [f₀, f₁, f₂, f₃, f₄, f₅, List.headD_cons, WalRecordType.tryFrom_toU8, len, if_neg whole,
    Bytes.toU64_ofU64, Bytes.toU32_ofU32, ne_eq, not_true_eq_false, if_false, bind, Except.bind]
  rw [length_frame]
  cases readPayload env lsn t payload <;> rfl

end Frame

end WalRecord

namespace WalPutPayload

variable {env}

variable (env) in
/-- The lengths the binary form has room for. -/
structure Fits (put : WalPutPayload) : Prop where
  name : (Text.utf8 put.name).length < 2 ^ 16
  manifest : (put.manifest.toBytes env).length < 2 ^ 32
  count : put.chunks.length < 2 ^ 32
  chunks : ∀ c ∈ put.chunks, c.2.length < 2 ^ 32

theorem Fits.manifestChunks {put : WalPutPayload} (h : Fits env put) :
    put.manifest.chunks.length < 2 ^ 32 := by
  have := h.manifest
  rw [Manifest.length_toBytes] at this
  omega

theorem length_flatMap_chunkBytes (cs : List (ChunkId × Bytes)) :
    36 * cs.length ≤ (cs.flatMap chunkBytes).length := by
  induction cs with
  | nil => simp
  | cons c cs ih =>
    simp only [List.flatMap_cons, chunkBytes, List.length_append, List.length_cons,
      FixedBytes.length_eq, Bytes.length_ofU32] at ih ⊢
    omega

theorem readChunks_flatMap {cs : List (ChunkId × Bytes)}
    (h : ∀ c ∈ cs, c.2.length < 2 ^ 32) (rest : Bytes) :
    readChunks cs.length (cs.flatMap chunkBytes ++ rest) = .ok cs := by
  induction cs with
  | nil => rfl
  | cons c cs ih =>
    have len : (UInt32.ofNat c.2.length).toNat = c.2.length :=
      UInt32.toNat_ofNat_of_lt' (h c (by simp))
    obtain ⟨tail, htail⟩ : ∃ tail, tail = cs.flatMap chunkBytes ++ rest := ⟨_, rfl⟩
    have bytes : (c :: cs).flatMap chunkBytes ++ rest = c.1.bytes ++
        (Bytes.ofU32 (UInt32.ofNat c.2.length) ++ (c.2 ++ tail)) := by
      simp [chunkBytes, htail, List.append_assoc]
    have f₀ : Bytes.slice ((c :: cs).flatMap chunkBytes ++ rest) 0 32 = c.1.bytes := by
      rw [bytes]; exact Bytes.slice_first (by simp)
    have f₁ : Bytes.slice ((c :: cs).flatMap chunkBytes ++ rest) 32 4 =
        Bytes.ofU32 (UInt32.ofNat c.2.length) := by
      rw [bytes]; exact Bytes.slice_field (by simp) (by simp)
    have f₂ : ((c :: cs).flatMap chunkBytes ++ rest).drop 36 = c.2 ++ tail := by
      rw [bytes, ← List.append_assoc]; exact Bytes.drop_field (by simp)
    have size : ¬ ((c :: cs).flatMap chunkBytes ++ rest).length < 36 := by
      have := length_flatMap_chunkBytes (c :: cs)
      rw [List.length_cons] at this
      rw [List.length_append]
      omega
    have later := ih fun d hd => h d (List.mem_cons_of_mem _ hd)
    have room : ¬ (c.2 ++ tail).length < c.2.length := by simp
    rw [← htail] at later
    rw [List.length_cons, readChunks, if_neg size]
    simp only [f₀, f₁, f₂, Bytes.toU32_ofU32, len, if_neg room, List.take_left, List.drop_left,
      later, FixedBytes.ofBytes_bytes]
    rfl

/-- A put that fits comes back from its binary form, whatever follows it. -/
theorem fromBytes_toBytes_append {put : WalPutPayload} (h : Fits env put) (rest : Bytes) :
    fromBytes env (put.toBytes env ++ rest) = .ok put := by
  have nameLen : (UInt16.ofNat (Text.utf8 put.name).length).toNat = (Text.utf8 put.name).length :=
    UInt16.toNat_ofNat_of_lt' h.name
  have manifestLen : (UInt32.ofNat (put.manifest.toBytes env).length).toNat =
      (put.manifest.toBytes env).length := UInt32.toNat_ofNat_of_lt' h.manifest
  have count : (UInt32.ofNat put.chunks.length).toNat = put.chunks.length :=
    UInt32.toNat_ofNat_of_lt' h.count
  obtain ⟨cs, hcs⟩ : ∃ cs, cs = put.chunks.flatMap chunkBytes ++ rest := ⟨_, rfl⟩
  obtain ⟨m, hm⟩ : ∃ m, m = put.manifest.toBytes env := ⟨_, rfl⟩
  obtain ⟨buf, hbuf⟩ : ∃ buf, buf = put.toBytes env ++ rest := ⟨_, rfl⟩
  -- what is left after each field
  obtain ⟨rest₂, h₂⟩ : ∃ r, r = Bytes.ofU32 (UInt32.ofNat put.chunks.length) ++ cs := ⟨_, rfl⟩
  obtain ⟨rest₁, h₁⟩ : ∃ r, r = put.objectId.bytes ++ (Bytes.ofU32 put.version ++
      (Bytes.ofU32 (UInt32.ofNat m.length) ++ (m ++ rest₂))) := ⟨_, rfl⟩
  have bytes : buf = Bytes.ofU16 (UInt16.ofNat (Text.utf8 put.name).length) ++
      (Text.utf8 put.name ++ rest₁) := by
    simp only [hbuf, toBytes, h₁, h₂, hm, hcs, List.append_assoc]
  have nameSize : ¬ buf.length < 2 := by
    simp only [bytes, List.length_append, Bytes.length_ofU16]
    omega
  have head : buf.take 2 = Bytes.ofU16 (UInt16.ofNat (Text.utf8 put.name).length) := by
    rw [bytes]; exact Bytes.take_field (by simp)
  have after : buf.drop 2 = Text.utf8 put.name ++ rest₁ := by
    rw [bytes]; exact Bytes.drop_field (by simp)
  have room₀ : ¬ (Text.utf8 put.name ++ rest₁).length < (Text.utf8 put.name).length := by simp
  have room₁ : ¬ rest₁.length < 16 + 4 + 4 := by
    simp only [h₁, List.length_append, FixedBytes.length_eq, Bytes.length_ofU32]
    omega
  have f₀ : Bytes.slice rest₁ 0 16 = put.objectId.bytes := by
    rw [h₁]; exact Bytes.slice_first (by simp)
  have f₁ : Bytes.slice rest₁ 16 4 = Bytes.ofU32 put.version := by
    rw [h₁]; exact Bytes.slice_field (by simp) (by simp)
  have f₂ : Bytes.slice rest₁ 20 4 = Bytes.ofU32 (UInt32.ofNat m.length) := by
    rw [h₁, ← List.append_assoc]; exact Bytes.slice_field (by simp) (by simp)
  have f₃ : rest₁.drop 24 = m ++ rest₂ := by
    rw [h₁, ← List.append_assoc, ← List.append_assoc]; exact Bytes.drop_field (by simp)
  have room₂ : ¬ (m ++ rest₂).length < m.length := by simp
  have room₃ : ¬ rest₂.length < 4 := by simp [h₂]
  have f₄ : rest₂.take 4 = Bytes.ofU32 (UInt32.ofNat put.chunks.length) := by
    rw [h₂]; exact Bytes.take_field (by simp)
  have f₅ : rest₂.drop 4 = cs := by rw [h₂]; exact Bytes.drop_field (by simp)
  have room₄ : ¬ put.chunks.length > cs.length / 36 := by
    have := length_flatMap_chunkBytes put.chunks
    rw [hcs, List.length_append]
    omega
  have manifest := Manifest.fromBytes_toBytes env h.manifestChunks
  have chunks := readChunks_flatMap h.chunks rest
  rw [← hm] at manifest manifestLen
  rw [← hcs] at chunks
  rw [← hbuf, fromBytes, if_neg nameSize]
  simp only [head, after, Bytes.toU16_ofU16, nameLen, if_neg room₀, List.take_left, List.drop_left,
    Text.fromUtf8_utf8, if_neg room₁, f₀, f₁, f₂, f₃, Bytes.toU32_ofU32, manifestLen,
    if_neg room₂, manifest, bind, Except.bind, if_neg room₃, f₄, f₅, count, if_neg room₄, chunks,
    FixedBytes.ofBytes_bytes]
  rfl

/-- A put that fits comes back from its binary form. -/
theorem fromBytes_toBytes {put : WalPutPayload} (h : Fits env put) :
    fromBytes env (put.toBytes env) = .ok put := by
  have back := fromBytes_toBytes_append h []
  rwa [List.append_nil] at back

end WalPutPayload

namespace WalRecord

variable {env}

theorem addChunkLens_ok {total n : Nat} {lens : List Nat} (h : addChunkLens total lens = .ok n) :
    ∀ len ∈ lens, len < 2 ^ 32 := by
  induction lens generalizing total with
  | nil => simp
  | cons len lens ih =>
    rw [addChunkLens] at h
    by_cases big : 2 ^ 32 ≤ len
    · rw [if_pos big] at h
      cases h
    · rw [if_neg big] at h
      obtain ⟨t, -, h⟩ := Result.bind_eq_ok.1 h
      obtain ⟨u, -, h⟩ := Result.bind_eq_ok.1 h
      intro k hk
      rcases List.mem_cons.1 hk with rfl | hk
      · omega
      · exact ih h k hk

theorem checkedPutPayloadLen_ok {nameLen manifestLen n : Nat} {lens : List Nat} {encrypted : Bool}
    (h : checkedPutPayloadLen nameLen manifestLen lens encrypted = .ok n) :
    ∀ len ∈ lens, len < 2 ^ 32 := by
  simp only [checkedPutPayloadLen, Result.bind_eq_ok] at h
  obtain ⟨_, -, _, -, _, -, _, -, _, added, -⟩ := h
  exact addChunkLens_ok added

theorem decrypt_encrypted {vk : VaultKey} (h : env.vaultKey = some vk) (lsn : UInt64)
    (nonce : Nonce) (plaintext : Bytes) :
    decrypt env lsn (nonce.bytes ++ vk.encryptChunk env plaintext nonce
      (aad lsn .encryptedPutObject)) = .ok plaintext := by
  have long : ¬ (nonce.bytes ++ vk.encryptChunk env plaintext nonce
      (aad lsn .encryptedPutObject)).length < 24 + 16 := by
    simp only [List.length_append, FixedBytes.length_eq, VaultKey.length_encryptChunk]
    omega
  simp only [decrypt, h, if_neg long, Bytes.take_field nonce.length_eq,
    Bytes.drop_field nonce.length_eq, FixedBytes.ofBytes_bytes,
    VaultKey.decryptChunk_encryptChunk]

/-- What an encoded put is: a frame, and the put is what its payload reads as. -/
theorem encodePut_ok {lsn : UInt64} {put : WalPutPayload} {nonce : Nonce} {bytes : Bytes}
    (h : encodePut env lsn put nonce = .ok bytes) :
    ∃ t payload, bytes = frame env lsn t payload ∧ payload.length < 2 ^ 32 ∧
      readPayload env lsn t payload = .ok (.putObject put) := by
  rw [encodePut] at h
  by_cases name : 2 ^ 16 ≤ (Text.utf8 put.name).length
  · rw [if_pos name] at h
    cases h
  by_cases manifest : 2 ^ 32 ≤ (put.manifest.toBytes env).length
  · rw [if_neg name, if_pos manifest] at h
    cases h
  by_cases count : 2 ^ 32 ≤ put.chunks.length
  · rw [if_neg name, if_neg manifest, if_pos count] at h
    cases h
  rw [if_neg name, if_neg manifest, if_neg count] at h
  obtain ⟨_, plain, h⟩ := Result.bind_eq_ok.1 h
  obtain ⟨_, -, h⟩ := Result.bind_eq_ok.1 h
  have fits : WalPutPayload.Fits env put :=
    { name := Nat.lt_of_not_le name
      manifest := Nat.lt_of_not_le manifest
      count := Nat.lt_of_not_le count
      chunks := fun c hc => checkedPutPayloadLen_ok plain _ (List.mem_map.2 ⟨c, hc, rfl⟩) }
  have back := WalPutPayload.fromBytes_toBytes fits
  cases key : env.vaultKey with
  | none =>
    simp only [key] at h
    by_cases large : 2 ^ 32 ≤ (put.toBytes env).length
    · rw [if_pos large] at h
      cases h
    · rw [if_neg large] at h
      cases h
      exact ⟨.putObject, _, rfl, Nat.lt_of_not_le large, by rw [readPayload, back]; rfl⟩
  | some vk =>
    simp only [key] at h
    by_cases large : 2 ^ 32 ≤ (nonce.bytes ++ vk.encryptChunk env (put.toBytes env) nonce
        (aad lsn .encryptedPutObject)).length
    · rw [if_pos large] at h
      cases h
    · rw [if_neg large] at h
      cases h
      refine ⟨.encryptedPutObject, _, rfl, Nat.lt_of_not_le large, ?_⟩
      rw [readPayload, decrypt_encrypted key]
      simp only [bind, Except.bind, back]
      rfl

/-- What an encoded record is, likewise. -/
theorem encodeWithVault_ok {record : WalRecord} {nonce : Nonce} {bytes : Bytes}
    (h : encodeWithVault env record nonce = .ok bytes) :
    ∃ t payload, bytes = frame env record.lsn t payload ∧ payload.length < 2 ^ 32 ∧
      readPayload env record.lsn t payload = .ok record.payload := by
  obtain ⟨lsn, put | checkpoint⟩ := record
  · exact encodePut_ok h
  · cases h
    refine ⟨.checkpoint, Bytes.ofU64 checkpoint, rfl, by simp, ?_⟩
    have whole : ¬ (Bytes.ofU64 checkpoint).length < 8 := by simp
    have field : (Bytes.ofU64 checkpoint).take 8 = Bytes.ofU64 checkpoint :=
      List.take_of_length_le (by simp)
    rw [readPayload, if_neg whole, field, Bytes.toU64_ofU64]

/-- An encoded put reads back, whatever follows it. -/
theorem decode_encodePut {lsn : UInt64} {put : WalPutPayload} {nonce : Nonce} {bytes : Bytes}
    (h : encodePut env lsn put nonce = .ok bytes) (rest : Bytes) :
    decode env (bytes ++ rest) = .ok (⟨lsn, .putObject put⟩, bytes.length) := by
  obtain ⟨t, payload, rfl, fits, reads⟩ := encodePut_ok h
  rw [decode_frame fits, reads]
  rfl

end WalRecord

/-! ## Scanning a log -/

/-- Why a scan of the log stops before its end. -/
inductive WalStop where
  | partialHeader
  | badMagic
  | failed (error : OosLiteError)
  deriving DecidableEq

/-- What both loops over the log make of the bytes from an offset on. -/
def WalRecord.next (remaining : Bytes) : Framing.Verdict WalRecord WalStop :=
  if remaining.length < walHeaderSize then .stop .partialHeader
  else if Bytes.slice remaining 0 4 ≠ walMagic then .stop .badMagic
  else match WalRecord.decode env remaining with
    | .ok (record, consumed) => .item record consumed
    | .error e => .stop (.failed e)

namespace WalRecord

variable {env}

/-- A framed payload that reads is a frame of the log. -/
theorem isFrame_frame {lsn : UInt64} {t : WalRecordType} {payload : Bytes} {p : WalRecordPayload}
    (fits : payload.length < 2 ^ 32) (reads : readPayload env lsn t payload = .ok p) :
    Framing.IsFrame (next env) (frame env lsn t payload) ⟨lsn, p⟩ := by
  have size := @length_frame env lsn t payload
  refine ⟨fun empty => ?_, fun rest => ?_⟩
  · rw [empty, List.length_nil] at size
    simp only [walHeaderSize] at size
    omega
  · have long : ¬ (frame env lsn t payload ++ rest).length < walHeaderSize := by
      rw [List.length_append, size]
      omega
    have magic : Bytes.slice (frame env lsn t payload ++ rest) 0 4 = walMagic := by
      rw [frame_eq]
      exact Bytes.slice_first rfl
    rw [next, if_neg long, if_neg (not_not_intro magic), decode_frame fits, reads]
    rfl

/-- An encoded record is a frame of the log. -/
theorem isFrame_encodeWithVault {record : WalRecord} {nonce : Nonce} {bytes : Bytes}
    (h : encodeWithVault env record nonce = .ok bytes) :
    Framing.IsFrame (next env) bytes record := by
  obtain ⟨t, payload, rfl, fits, reads⟩ := encodeWithVault_ok h
  exact isFrame_frame fits reads

/-- An encoded put is a frame of the log. -/
theorem isFrame_encodePut {lsn : UInt64} {put : WalPutPayload} {nonce : Nonce} {bytes : Bytes}
    (h : encodePut env lsn put nonce = .ok bytes) :
    Framing.IsFrame (next env) bytes ⟨lsn, .putObject put⟩ :=
  @isFrame_encodeWithVault env ⟨lsn, .putObject put⟩ nonce bytes h

/-- A record that decodes lies within the bytes, and what follows it does not matter. -/
theorem decode_take {buf : Bytes} {record : WalRecord} {size : Nat}
    (h : decode env buf = .ok (record, size)) :
    walHeaderSize ≤ size ∧ size ≤ buf.length ∧
      ∀ rest, decode env (buf.take size ++ rest) = .ok (record, size) := by
  rw [decode] at h
  by_cases header : buf.length < walHeaderSize
  · rw [if_pos header] at h
    cases h
  by_cases magic : Bytes.slice buf 0 4 = walMagic
  case neg =>
    rw [if_neg header, if_pos magic] at h
    cases h
  rw [if_neg header, if_neg (not_not_intro magic)] at h
  obtain ⟨t, type, h⟩ := Result.bind_eq_ok.1 h
  simp only at h
  obtain ⟨n, hn⟩ : ∃ n, n = (Bytes.toU32 (Bytes.slice buf 13 4)).toNat := ⟨_, rfl⟩
  rw [← hn] at h
  by_cases whole : buf.length < walHeaderSize + n
  · rw [if_pos whole] at h
    cases h
  rw [if_neg whole] at h
  by_cases crc : env.crc32 (Bytes.slice buf walHeaderSize n) = Bytes.toU32 (Bytes.slice buf 17 4)
  case neg =>
    rw [if_pos crc] at h
    cases h
  rw [if_neg (not_not_intro crc)] at h
  obtain ⟨p, reads, h⟩ := Result.bind_eq_ok.1 h
  cases h
  have fits := Nat.le_of_not_lt whole
  refine ⟨by omega, fits, fun rest => ?_⟩
  have taken : (buf.take (walHeaderSize + n)).length = walHeaderSize + n := by
    rw [List.length_take, Nat.min_eq_left fits]
  have field : ∀ start count, start + count ≤ walHeaderSize + n →
      Bytes.slice (buf.take (walHeaderSize + n) ++ rest) start count =
        Bytes.slice buf start count := by
    intro start count le
    have inner := @Bytes.slice_append_left (buf.take (walHeaderSize + n))
      (buf.drop (walHeaderSize + n)) start count (by omega)
    rw [List.take_append_drop] at inner
    rw [inner]
    exact Bytes.slice_append_left (by omega)
  have long : ¬ (buf.take (walHeaderSize + n) ++ rest).length < walHeaderSize := by
    rw [List.length_append, taken]
    omega
  have long' : ¬ (buf.take (walHeaderSize + n) ++ rest).length < walHeaderSize + n := by
    rw [List.length_append, taken]
    omega
  have le : ∀ k, k ≤ walHeaderSize → k ≤ walHeaderSize + n := fun k hk => by omega
  rw [decode, if_neg long]
  simp only [field 0 4 (le _ (by decide)), field 4 8 (le _ (by decide)),
    field 12 1 (le _ (by decide)), field 13 4 (le _ (by decide)), field 17 4 (le _ (by decide)),
    magic, type, ← hn, if_neg long', field walHeaderSize n (Nat.le_refl _), crc, reads, ne_eq,
    not_true_eq_false, if_false, bind, Except.bind]
  rfl

/-- The log loops look at nothing behind the record they find. -/
theorem local_next : Framing.Local (next env) := by
  intro bs record size h
  rw [next] at h
  by_cases header : bs.length < walHeaderSize
  · rw [if_pos header] at h
    cases h
  by_cases magic : Bytes.slice bs 0 4 = walMagic
  case neg =>
    rw [if_neg header, if_pos magic] at h
    cases h
  rw [if_neg header, if_neg (not_not_intro magic)] at h
  cases decoded : decode env bs with
  | error e =>
    rw [decoded] at h
    cases h
  | ok r =>
    obtain ⟨record', size'⟩ := r
    rw [decoded] at h
    cases h
    obtain ⟨big, fits, again⟩ := decode_take decoded
    have taken : (bs.take size).length = size := by rw [List.length_take, Nat.min_eq_left fits]
    have h₄ : 4 ≤ walHeaderSize := by decide
    have front : Bytes.slice (bs.take size) 0 4 = walMagic := by
      rw [← magic]
      have inner := @Bytes.slice_append_left (bs.take size) (bs.drop size) 0 4 (by omega)
      rw [List.take_append_drop] at inner
      exact inner.symm
    refine ⟨fits, fun empty => ?_, fun rest => ?_⟩
    · rw [empty, List.length_nil] at taken
      have := (by decide : 0 < walHeaderSize)
      omega
    · have long : ¬ (bs.take size ++ rest).length < walHeaderSize := by
        rw [List.length_append, taken]
        omega
      have magic' : Bytes.slice (bs.take size ++ rest) 0 4 = walMagic := by
        rw [Bytes.slice_append_left (by omega)]
        exact front
      rw [next, if_neg long, if_neg (not_not_intro magic'), again, taken]

/-- What the log loops make of part of a frame at the end of the log. -/
theorem next_part_frame {lsn : UInt64} {t : WalRecordType} {payload tail : Bytes}
    (fits : payload.length < 2 ^ 32) (part : tail <+: frame env lsn t payload)
    (short : tail.length < (frame env lsn t payload).length) :
    next env tail = .stop (if tail.length < walHeaderSize then .partialHeader
      else .failed (.walRecovery "Incomplete WAL payload")) := by
  have size := @length_frame env lsn t payload
  by_cases header : tail.length < walHeaderSize
  · rw [next, if_pos header, if_pos header]
  obtain ⟨rest, hrest⟩ := part
  have len : (UInt32.ofNat payload.length).toNat = payload.length := UInt32.toNat_ofNat_of_lt' fits
  have bytes := hrest.trans ((List.append_nil _).symm.trans (frame_eq lsn t payload []))
  -- the header fields lie within the part that is there
  have field : ∀ start count, start + count ≤ walHeaderSize →
      Bytes.slice tail start count = Bytes.slice (tail ++ rest) start count :=
    fun start count h => (Bytes.slice_append_left (by omega)).symm
  have f₀ : Bytes.slice tail 0 4 = walMagic := by
    rw [field 0 4 (by decide), bytes]; exact Bytes.slice_first rfl
  have f₂ : Bytes.slice tail 12 1 = [t.toU8] := by
    rw [field 12 1 (by decide), bytes, ← List.append_assoc]
    exact Bytes.slice_field (by simp [walMagic]) rfl
  have f₃ : Bytes.slice tail 13 4 = Bytes.ofU32 (UInt32.ofNat payload.length) := by
    rw [field 13 4 (by decide), bytes, ← List.append_assoc, ← List.append_assoc]
    exact Bytes.slice_field (by simp [walMagic]) (by simp)
  have incomplete : tail.length < walHeaderSize + payload.length := by omega
  rw [next, if_neg header, if_neg (not_not_intro f₀), decode, if_neg header]
  simp only [f₀, f₂, f₃, List.headD_cons, WalRecordType.tryFrom_toU8, Bytes.toU32_ofU32, len,
    if_pos incomplete, ne_eq, not_true_eq_false, if_false, bind, Except.bind]
  rw [if_neg header]
  rfl

/-- What they make of part of an encoded record there. -/
theorem next_part_encodeWithVault {record : WalRecord} {nonce : Nonce} {bytes tail : Bytes}
    (h : encodeWithVault env record nonce = .ok bytes) (part : tail <+: bytes)
    (short : tail.length < bytes.length) :
    next env tail = .stop (if tail.length < walHeaderSize then .partialHeader
      else .failed (.walRecovery "Incomplete WAL payload")) := by
  obtain ⟨t, payload, rfl, fits, -⟩ := encodeWithVault_ok h
  exact next_part_frame fits part short

end WalRecord

end OosLite
