import OosLite.Wal.Format

/-!
# The codec of log records

What an encoded put looks like byte for byte, when a put can be encoded, and that the size the
encoder predicts is the size it writes.
-/

namespace OosLite

variable {env : Env}

namespace WalPutPayload

/-- The chunks of a put one after the other, each behind its identifier and its length. -/
def ChunksLaidOut : List (ChunkId × Bytes) → Bytes → Prop
  | [], bytes => bytes = []
  | (chunkId, chunkData) :: chunks, bytes => ∃ (dataLen : UInt32) (rest : Bytes),
      dataLen.toNat = chunkData.length ∧
      bytes = chunkId.bytes ++ (Bytes.ofU32 dataLen ++ (chunkData ++ rest)) ∧
      ChunksLaidOut chunks rest

variable (env) in
/-- The fields of a put one after the other, each length field with the true length. -/
def LaidOut (put : WalPutPayload) (bytes : Bytes) : Prop :=
  ∃ (nameLen : UInt16) (manifestLen chunkCount : UInt32) (rest : Bytes),
    nameLen.toNat = (Text.utf8 put.name).length ∧
    manifestLen.toNat = (put.manifest.toBytes env).length ∧
    chunkCount.toNat = put.chunks.length ∧
    bytes = Bytes.ofU16 nameLen ++ Text.utf8 put.name ++ put.objectId.bytes ++
      Bytes.ofU32 put.version ++ Bytes.ofU32 manifestLen ++ put.manifest.toBytes env ++
      Bytes.ofU32 chunkCount ++ rest ∧
    ChunksLaidOut put.chunks rest

theorem chunksLaidOut_flatMap {chunks : List (ChunkId × Bytes)}
    (fits : ∀ c ∈ chunks, c.2.length < 2 ^ 32) :
    ChunksLaidOut chunks (chunks.flatMap chunkBytes) := by
  induction chunks with
  | nil => rfl
  | cons c chunks ih =>
    have len : (UInt32.ofNat c.2.length).toNat = c.2.length :=
      UInt32.toNat_ofNat_of_lt' (fits c List.mem_cons_self)
    have later := ih fun d hd => fits d (List.mem_cons_of_mem c hd)
    refine ⟨UInt32.ofNat c.2.length, _, len, ?_, later⟩
    simp only [List.flatMap_cons, chunkBytes, List.append_assoc]

theorem Fits.laidOut {put : WalPutPayload} (fits : Fits env put) :
    LaidOut env put (put.toBytes env) :=
  ⟨_, _, _, _, UInt16.toNat_ofNat_of_lt' fits.name, UInt32.toNat_ofNat_of_lt' fits.manifest,
    UInt32.toNat_ofNat_of_lt' fits.count, rfl, chunksLaidOut_flatMap fits.chunks⟩

/-- The room the chunks of a put take. -/
def chunksSize (chunkLengths : List Nat) : Nat := (chunkLengths.map (36 + ·)).sum

theorem length_flatMap_chunkBytes_eq (chunks : List (ChunkId × Bytes)) :
    (chunks.flatMap chunkBytes).length = chunksSize (chunks.map fun c => c.2.length) := by
  induction chunks with
  | nil => rfl
  | cons c chunks ih =>
    simp only [List.flatMap_cons, List.length_append, ih, chunkBytes, FixedBytes.length_eq,
      Bytes.length_ofU32, chunksSize, List.map_cons, List.sum_cons]

theorem length_toBytes (put : WalPutPayload) :
    (put.toBytes env).length = 2 + (Text.utf8 put.name).length + (16 + 4 + 4) +
      (put.manifest.toBytes env).length + 4 + chunksSize (put.chunks.map fun c => c.2.length) := by
  simp only [toBytes, List.length_append, Bytes.length_ofU16, Bytes.length_ofU32,
    FixedBytes.length_eq, length_flatMap_chunkBytes_eq]

end WalPutPayload

namespace WalRecord

open WalPutPayload

/-! ## The predicted size -/

theorem checkedAdd_ok {a b : Nat} (h : a + b < 2 ^ 64) : checkedAdd a b = .ok (a + b) := if_pos h

theorem checkedAdd_eq_ok {a b n : Nat} (h : checkedAdd a b = .ok n) : n = a + b := by
  unfold checkedAdd at h
  by_cases fits : a + b < 2 ^ 64
  · rw [if_pos fits] at h
    exact (Except.ok.inj h).symm
  · rw [if_neg fits] at h
    cases h

theorem addChunkLens_eq_ok {total n : Nat} {chunkLengths : List Nat}
    (h : addChunkLens total chunkLengths = .ok n) : n = total + chunksSize chunkLengths := by
  induction chunkLengths generalizing total with
  | nil => exact (Except.ok.inj h).symm
  | cons chunkLen chunkLengths ih =>
    rw [addChunkLens] at h
    by_cases large : 2 ^ 32 ≤ chunkLen
    · rw [if_pos large] at h
      cases h
    rw [if_neg large] at h
    obtain ⟨t, first, h⟩ := Result.bind_eq_ok.1 h
    obtain ⟨u, second, h⟩ := Result.bind_eq_ok.1 h
    have sum := ih h
    rw [checkedAdd_eq_ok second, checkedAdd_eq_ok first] at sum
    simp only [chunksSize, List.map_cons, List.sum_cons] at sum ⊢
    omega

theorem addChunkLens_fits {total : Nat} {chunkLengths : List Nat}
    (small : ∀ chunkLen ∈ chunkLengths, chunkLen < 2 ^ 32)
    (fits : total + chunksSize chunkLengths < 2 ^ 64) :
    addChunkLens total chunkLengths = .ok (total + chunksSize chunkLengths) := by
  induction chunkLengths generalizing total with
  | nil => rfl
  | cons chunkLen chunkLengths ih =>
    have large : ¬ 2 ^ 32 ≤ chunkLen := Nat.not_le.2 (small chunkLen List.mem_cons_self)
    have later : ∀ len ∈ chunkLengths, len < 2 ^ 32 :=
      fun len hlen => small len (List.mem_cons_of_mem chunkLen hlen)
    have size : chunksSize (chunkLen :: chunkLengths) = 36 + chunkLen + chunksSize chunkLengths := by
      simp only [chunksSize, List.map_cons, List.sum_cons]
    rw [size] at fits ⊢
    rw [addChunkLens, if_neg large, checkedAdd_ok (by omega)]
    show (checkedAdd (total + (32 + 4)) chunkLen >>= _) = _
    rw [checkedAdd_ok (by omega)]
    show addChunkLens (total + (32 + 4) + chunkLen) chunkLengths = _
    rw [ih later (by omega)]
    congr 1
    omega

/-- The size of a payload with the room encryption takes. -/
def predictedLen (nameLen manifestLen : Nat) (chunkLengths : List Nat) (encrypted : Bool) : Nat :=
  2 + nameLen + (16 + 4 + 4) + manifestLen + 4 + chunksSize chunkLengths +
    if encrypted then 24 + 16 else 0

theorem refuseLarge_ok {total n : Nat} {e : OosLiteError}
    (h : (do
      if 2 ^ 32 ≤ total then
        throw e
      return total : Result Nat) = .ok n) :
    n = total ∧ n < 2 ^ 32 := by
  by_cases large : 2 ^ 32 ≤ total
  · rw [if_pos large] at h
    cases h
  · rw [if_neg large] at h
    cases h
    exact ⟨rfl, Nat.lt_of_not_le large⟩

/-- A prediction is true. -/
theorem checkedPutPayloadLen_eq_ok {nameLen manifestLen n : Nat} {chunkLengths : List Nat}
    {encrypted : Bool} (h : checkedPutPayloadLen nameLen manifestLen chunkLengths encrypted = .ok n) :
    n = predictedLen nameLen manifestLen chunkLengths encrypted ∧ n < 2 ^ 32 := by
  simp only [checkedPutPayloadLen, Result.bind_eq_ok] at h
  obtain ⟨_, h₁, _, h₂, _, h₃, _, h₄, total, h₅, h⟩ := h
  have sum := addChunkLens_eq_ok h₅
  rw [checkedAdd_eq_ok h₄, checkedAdd_eq_ok h₃, checkedAdd_eq_ok h₂, checkedAdd_eq_ok h₁] at sum
  cases encrypted with
  | false =>
    obtain ⟨rfl, fits⟩ := refuseLarge_ok h
    exact ⟨sum, fits⟩
  | true =>
    obtain ⟨final, h₆, h⟩ := Result.bind_eq_ok.1 h
    obtain ⟨rfl, fits⟩ := refuseLarge_ok h
    refine ⟨?_, fits⟩
    rw [checkedAdd_eq_ok h₆, sum]
    rfl

/-- Every payload that fits has its size predicted. -/
theorem checkedPutPayloadLen_fits {nameLen manifestLen : Nat} {chunkLengths : List Nat}
    {encrypted : Bool} (small : ∀ chunkLen ∈ chunkLengths, chunkLen < 2 ^ 32)
    (fits : predictedLen nameLen manifestLen chunkLengths encrypted < 2 ^ 32) :
    checkedPutPayloadLen nameLen manifestLen chunkLengths encrypted =
      .ok (predictedLen nameLen manifestLen chunkLengths encrypted) := by
  have bound := fits
  unfold predictedLen at bound
  rw [checkedPutPayloadLen, checkedAdd_ok (by omega)]
  show (checkedAdd (2 + nameLen) (16 + 4 + 4) >>= _) = _
  rw [checkedAdd_ok (by omega)]
  show (checkedAdd (2 + nameLen + (16 + 4 + 4)) manifestLen >>= _) = _
  rw [checkedAdd_ok (by omega)]
  show (checkedAdd (2 + nameLen + (16 + 4 + 4) + manifestLen) 4 >>= _) = _
  rw [checkedAdd_ok (by omega)]
  show (addChunkLens _ chunkLengths >>= _) = _
  rw [addChunkLens_fits small (by omega)]
  have large : ¬ 2 ^ 32 ≤ predictedLen nameLen manifestLen chunkLengths encrypted :=
    Nat.not_le.2 fits
  cases encrypted with
  | false => exact if_neg large
  | true =>
    show (checkedAdd _ (24 + 16) >>= _) = _
    rw [checkedAdd_ok (by simp only [if_true] at bound; omega)]
    exact if_neg large

/-! ## What is written -/

variable (env) in
/-- The type of a put record. -/
def putType : WalRecordType :=
  match env.vaultKey with
  | some _ => .encryptedPutObject
  | none => .putObject

variable (env) in
/-- The bytes of a put as they stand in the log. -/
def sealedPut (lsn : UInt64) (put : WalPutPayload) (nonce : Nonce) : Bytes :=
  match env.vaultKey with
  | some key => nonce.bytes ++
      key.encryptChunk env (put.toBytes env) nonce (aad lsn .encryptedPutObject)
  | none => put.toBytes env

variable (env) in
/-- The size of a put in the log. -/
def putPayloadLen (put : WalPutPayload) : Nat :=
  predictedLen (Text.utf8 put.name).length (put.manifest.toBytes env).length
    (put.chunks.map fun c => c.2.length) env.vaultKey.isSome

theorem length_sealedPut (lsn : UInt64) (put : WalPutPayload) (nonce : Nonce) :
    (sealedPut env lsn put nonce).length = putPayloadLen env put := by
  have plain := @length_toBytes env put
  unfold sealedPut putPayloadLen predictedLen
  cases env.vaultKey with
  | none =>
    simp only [Option.isSome_none, Bool.false_eq_true, if_false]
    omega
  | some key =>
    simp only [Option.isSome_some, if_true, List.length_append, FixedBytes.length_eq,
      VaultKey.length_encryptChunk]
    omega

theorem predictedLen_mono (nameLen manifestLen : Nat) (chunkLengths : List Nat)
    (encrypted : Bool) : predictedLen nameLen manifestLen chunkLengths false ≤
      predictedLen nameLen manifestLen chunkLengths encrypted := by
  unfold predictedLen
  cases encrypted <;> simp

/-- Every put that fits is encoded. -/
theorem encodePut_fits {put : WalPutPayload} (fits : WalPutPayload.Fits env put)
    (total : putPayloadLen env put < 2 ^ 32) (lsn : UInt64) (nonce : Nonce) :
    encodePut env lsn put nonce = .ok (frame env lsn (putType env) (sealedPut env lsn put nonce)) := by
  have small : ∀ len ∈ put.chunks.map (fun c => c.2.length), len < 2 ^ 32 := by
    intro len hlen
    obtain ⟨c, hc, rfl⟩ := List.mem_map.1 hlen
    exact fits.chunks c hc
  have plain := @checkedPutPayloadLen_fits (Text.utf8 put.name).length
    (put.manifest.toBytes env).length _ false small
    (Nat.lt_of_le_of_lt (predictedLen_mono _ _ _ env.vaultKey.isSome) total)
  have final := @checkedPutPayloadLen_fits (Text.utf8 put.name).length
    (put.manifest.toBytes env).length _ env.vaultKey.isSome small total
  have room : ¬ 2 ^ 32 ≤ (sealedPut env lsn put nonce).length := by
    rw [length_sealedPut]
    exact Nat.not_le.2 total
  rw [encodePut, if_neg (Nat.not_le.2 fits.name), if_neg (Nat.not_le.2 fits.manifest),
    if_neg (Nat.not_le.2 fits.count)]
  simp only [plain, final, bind, Except.bind]
  unfold sealedPut at room ⊢
  unfold putType
  cases key : env.vaultKey with
  | none =>
    simp only [key] at room ⊢
    exact if_neg room
  | some vk =>
    simp only [key] at room ⊢
    exact if_neg room

/-- Nothing else is encoded. -/
theorem encodePut_ok_fits {lsn : UInt64} {put : WalPutPayload} {nonce : Nonce} {bytes : Bytes}
    (h : encodePut env lsn put nonce = .ok bytes) :
    WalPutPayload.Fits env put ∧ putPayloadLen env put < 2 ^ 32 := by
  rw [encodePut] at h
  by_cases name : 2 ^ 16 ≤ (Text.utf8 put.name).length
  · rw [if_pos name] at h
    cases h
  by_cases manifest : 2 ^ 32 ≤ (put.manifest.toBytes env).length
  · rw [if_neg name, if_pos manifest] at h
    cases h
  by_cases count : 2 ^ 32 ≤ put.chunks.length
  · rw [if_neg name, if_neg manifest, if_pos count] at h
    cases h
  rw [if_neg name, if_neg manifest, if_neg count] at h
  obtain ⟨_, plain, h⟩ := Result.bind_eq_ok.1 h
  obtain ⟨_, final, -⟩ := Result.bind_eq_ok.1 h
  have predicted := checkedPutPayloadLen_eq_ok final
  rw [predicted.1] at predicted
  exact ⟨{
    name := Nat.lt_of_not_le name
    manifest := Nat.lt_of_not_le manifest
    count := Nat.lt_of_not_le count
    chunks := fun c hc => checkedPutPayloadLen_ok plain _ (List.mem_map.2 ⟨c, hc, rfl⟩) },
    predicted.2⟩

variable (env) in
/-- A field of the put, or its payload, is too small for what it has to hold. -/
def Oversized (put : WalPutPayload) : Prop :=
  2 ^ 16 ≤ (Text.utf8 put.name).length ∨ 2 ^ 32 ≤ (put.manifest.toBytes env).length ∨
    2 ^ 32 ≤ put.chunks.length ∨ (∃ c ∈ put.chunks, 2 ^ 32 ≤ c.2.length) ∨
    2 ^ 32 ≤ (put.toBytes env).length + if env.vaultKey.isSome then 24 + 16 else 0

theorem not_oversized_iff {put : WalPutPayload} :
    ¬ Oversized env put ↔ WalPutPayload.Fits env put ∧ putPayloadLen env put < 2 ^ 32 := by
  have size : putPayloadLen env put =
      (put.toBytes env).length + if env.vaultKey.isSome then 24 + 16 else 0 := by
    rw [length_toBytes]
    rfl
  unfold Oversized
  rw [← size]
  push Not
  constructor
  · intro h
    exact ⟨⟨h.1, h.2.1, h.2.2.1, h.2.2.2.1⟩, h.2.2.2.2⟩
  · intro h
    exact ⟨h.1.name, h.1.manifest, h.1.count, h.1.chunks, h.2⟩

variable (env) in
/-- A put record byte for byte: every length field holds the true length, and the payload has the
size the encoder predicted, of the plaintext and of what encryption makes of it. -/
def PutLaidOut (lsn : UInt64) (put : WalPutPayload) (nonce : Nonce) (bytes : Bytes) : Prop :=
  ∃ (payloadLen : UInt32) (payload plaintext : Bytes),
    payloadLen.toNat = payload.length ∧
    bytes = walMagic ++ Bytes.ofU64 lsn ++ [(putType env).toU8] ++ Bytes.ofU32 payloadLen ++
      Bytes.ofU32 (env.crc32 payload) ++ payload ∧
    payload = (match env.vaultKey with
      | some key => nonce.bytes ++ key.encryptChunk env plaintext nonce (aad lsn .encryptedPutObject)
      | none => plaintext) ∧
    WalPutPayload.LaidOut env put plaintext ∧
    checkedPutPayloadLen (Text.utf8 put.name).length (put.manifest.toBytes env).length
      (put.chunks.map fun c => c.2.length) false = .ok plaintext.length ∧
    checkedPutPayloadLen (Text.utf8 put.name).length (put.manifest.toBytes env).length
      (put.chunks.map fun c => c.2.length) env.vaultKey.isSome = .ok payload.length

theorem putLaidOut_encodePut {lsn : UInt64} {put : WalPutPayload} {nonce : Nonce} {bytes : Bytes}
    (h : encodePut env lsn put nonce = .ok bytes) : PutLaidOut env lsn put nonce bytes := by
  obtain ⟨fits, total⟩ := encodePut_ok_fits h
  have written := (encodePut_fits fits total lsn nonce).symm.trans h
  obtain rfl := Except.ok.inj written
  have small : ∀ len ∈ put.chunks.map (fun c => c.2.length), len < 2 ^ 32 := by
    intro len hlen
    obtain ⟨c, hc, rfl⟩ := List.mem_map.1 hlen
    exact fits.chunks c hc
  have size := @length_sealedPut env lsn put nonce
  refine ⟨UInt32.ofNat (sealedPut env lsn put nonce).length, _, put.toBytes env, ?_, rfl, rfl,
    fits.laidOut, ?_, ?_⟩
  · apply UInt32.toNat_ofNat_of_lt'
    rw [size]
    exact total
  · have plain := @checkedPutPayloadLen_fits (Text.utf8 put.name).length
      (put.manifest.toBytes env).length _ false small
      (Nat.lt_of_le_of_lt (predictedLen_mono _ _ _ env.vaultKey.isSome) total)
    rw [plain, length_toBytes]
    rfl
  · rw [size]
    exact checkedPutPayloadLen_fits small total

/-- A put that is encoded is laid out with its true lengths and reads back whatever follows it, and
exactly the puts that do not fit are refused. -/
theorem put_codec (env : Env) (lsn : UInt64) (put : WalPutPayload) (nonce : Nonce) :
    (∀ bytes, encodePut env lsn put nonce = .ok bytes → PutLaidOut env lsn put nonce bytes ∧
      ∀ rest, decode env (bytes ++ rest) = .ok (⟨lsn, .putObject put⟩, bytes.length)) ∧
    ((∃ e, encodePut env lsn put nonce = .error e) ↔ Oversized env put) := by
  refine ⟨fun bytes h => ⟨putLaidOut_encodePut h, decode_encodePut h⟩, ?_⟩
  cases encoded : encodePut env lsn put nonce with
  | ok bytes =>
    have fits := not_oversized_iff.2 (encodePut_ok_fits encoded)
    refine ⟨fun h => ?_, fun h => absurd h fits⟩
    obtain ⟨e, h⟩ := h
    cases h
  | error e =>
    refine ⟨fun _ => ?_, fun _ => ⟨e, rfl⟩⟩
    by_contra h
    obtain ⟨fits, total⟩ := not_oversized_iff.1 h
    rw [encodePut_fits fits total] at encoded
    cases encoded

end WalRecord

end OosLite
