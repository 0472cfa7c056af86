import OosLite.Metadata.Proofs.Codecs
import OosLite.Wal.Proofs.Codec
import OosLite.Reference

/-!
# Records with a damaged header

The checksum of a record covers its payload only. What decoding makes of a put whose header has been
changed follows from the fields the header has now.
-/

namespace OosLite

namespace WalPutPayload

variable {env : Env}

/-! ## What reads as a put -/

theorem readChunks_eq_ok {count : Nat} {bytes : Bytes} {cs : List (ChunkId × Bytes)}
    (h : readChunks count bytes = .ok cs) :
    cs.length = count ∧ (∀ c ∈ cs, c.2.length < 2 ^ 32) ∧
      ∃ rest, bytes = cs.flatMap chunkBytes ++ rest := by
  induction count generalizing bytes cs with
  | zero =>
    cases h
    exact ⟨rfl, fun c hc => absurd hc List.not_mem_nil, bytes, rfl⟩
  | succ count ih =>
    rw [readChunks] at h
    by_cases short : bytes.length < 36
    · rw [if_pos short] at h
      cases h
    rw [if_neg short] at h
    simp only at h
    obtain ⟨dataLen, hd⟩ : ∃ n, n = (Bytes.toU32 (Bytes.slice bytes 32 4)).toNat := ⟨_, rfl⟩
    have bound : dataLen < 2 ^ 32 := hd ▸ UInt32.toNat_lt _
    rw [← hd] at h
    by_cases room : (bytes.drop 36).length < dataLen
    · rw [if_pos room] at h
      cases h
    rw [if_neg room] at h
    obtain ⟨later, read, h⟩ := Result.bind_eq_ok.1 h
    cases h
    obtain ⟨length, small, rest, tail⟩ := ih read
    have size : ((bytes.drop 36).take dataLen).length = dataLen := by
      rw [List.length_take]
      omega
    refine ⟨congrArg (· + 1) length, fun c hc => ?_, rest, ?_⟩
    · rcases List.mem_cons.1 hc with rfl | hc
      · rwa [size]
      · exact small c hc
    · simp only [List.flatMap_cons, chunkBytes, List.append_assoc]
      rw [size, hd, UInt32.ofNat_toNat, Bytes.ofU32_toU32 (Bytes.length_slice (by omega)),
        FixedBytes.bytes_ofBytes (Bytes.length_slice (by omega)), ← hd, ← tail,
        List.take_append_drop, ← Bytes.drop_eq_slice_append bytes 32 4,
        ← Bytes.drop_eq_slice_append bytes 0 32]
      rfl

/-- Bytes that read as a put begin with what is written for this put. -/
theorem fromBytes_eq_ok {bytes : Bytes} {put : WalPutPayload} (h : fromBytes env bytes = .ok put) :
    Fits env put ∧ ∃ rest, bytes = put.toBytes env ++ rest := by
  rw [fromBytes] at h
  by_cases short : bytes.length < 2
  · rw [if_pos short] at h
    cases h
  rw [if_neg short] at h
  simp only at h
  obtain ⟨nameLen, hn⟩ : ∃ n, n = (Bytes.toU16 (bytes.take 2)).toNat := ⟨_, rfl⟩
  have nameBound : nameLen < 2 ^ 16 := hn ▸ UInt16.toNat_lt _
  rw [← hn] at h
  obtain ⟨b₁, h₁⟩ : ∃ b, b = bytes.drop 2 := ⟨_, rfl⟩
  rw [← h₁] at h
  by_cases nameRoom : b₁.length < nameLen
  · rw [if_pos nameRoom] at h
    cases h
  rw [if_neg nameRoom] at h
  cases text : Text.fromUtf8 (b₁.take nameLen) with
  | none =>
    rw [text] at h
    cases h
  | some name =>
    rw [text] at h
    simp only at h
    obtain ⟨b₂, h₂⟩ : ∃ b, b = b₁.drop nameLen := ⟨_, rfl⟩
    rw [← h₂] at h
    by_cases object : b₂.length < 16 + 4 + 4
    · rw [if_pos object] at h
      cases h
    rw [if_neg object] at h
    obtain ⟨manifestLen, hm⟩ : ∃ n, n = (Bytes.toU32 (Bytes.slice b₂ 20 4)).toNat := ⟨_, rfl⟩
    have manifestBound : manifestLen < 2 ^ 32 := hm ▸ UInt32.toNat_lt _
    obtain ⟨b₃, h₃⟩ : ∃ b, b = b₂.drop 24 := ⟨_, rfl⟩
    rw [← hm, ← h₃] at h
    by_cases manifestRoom : b₃.length < manifestLen
    · rw [if_pos manifestRoom] at h
      cases h
    rw [if_neg manifestRoom] at h
    obtain ⟨manifest, readManifest, h⟩ := Result.bind_eq_ok.1 h
    obtain ⟨b₄, h₄⟩ : ∃ b, b = b₃.drop manifestLen := ⟨_, rfl⟩
    rw [← h₄] at h
    by_cases counted : b₄.length < 4
    · rw [if_pos counted] at h
      cases h
    rw [if_neg counted] at h
    obtain ⟨count, hc⟩ : ∃ n, n = (Bytes.toU32 (b₄.take 4)).toNat := ⟨_, rfl⟩
    have countBound : count < 2 ^ 32 := hc ▸ UInt32.toNat_lt _
    rw [← hc] at h
    by_cases many : count > (b₄.drop 4).length / 36
    · rw [if_pos many] at h
      cases h
    rw [if_neg many] at h
    obtain ⟨chunks, readChunks, h⟩ := Result.bind_eq_ok.1 h
    cases h
    obtain ⟨length, small, rest, tail⟩ := readChunks_eq_ok readChunks
    have nameBytes := Text.utf8_of_fromUtf8 text
    have nameSize : (Text.utf8 name).length = nameLen := by
      rw [nameBytes, List.length_take]
      omega
    have manifestBytes := Manifest.toBytes_fromBytes readManifest
    have manifestSize : (manifest.toBytes env).length = manifestLen := by
      rw [manifestBytes, List.length_take]
      omega
    have front : (bytes.take 2).length = 2 := by
      rw [List.length_take]
      omega
    have front' : (b₄.take 4).length = 4 := by
      rw [List.length_take]
      omega
    have nameField : Bytes.ofU16 (UInt16.ofNat nameLen) = bytes.take 2 := by
      rw [hn, UInt16.ofNat_toNat, Bytes.ofU16_toU16 front]
    have manifestField : Bytes.ofU32 (UInt32.ofNat manifestLen) = Bytes.slice b₂ 20 4 := by
      rw [hm, UInt32.ofNat_toNat, Bytes.ofU32_toU32 (Bytes.length_slice (by omega))]
    have countField : Bytes.ofU32 (UInt32.ofNat count) = b₄.take 4 := by
      rw [hc, UInt32.ofNat_toNat, Bytes.ofU32_toU32 front']
    refine ⟨⟨?_, ?_, ?_, small⟩, rest, ?_⟩
    · rwa [nameSize]
    · rwa [manifestSize]
    · rwa [length]
    · simp only [toBytes, List.append_assoc]
      rw [nameSize, nameField, nameBytes, manifestSize, manifestField, manifestBytes, length,
        countField, ← tail,
        List.take_append_drop, h₄, List.take_append_drop, h₃,
        FixedBytes.bytes_ofBytes (Bytes.length_slice (by omega)),
        Bytes.ofU32_toU32 (Bytes.length_slice (by omega)), ← Bytes.drop_eq_slice_append b₂ 20 4,
        ← Bytes.drop_eq_slice_append b₂ 16 4, ← Bytes.drop_eq_slice_append b₂ 0 16, List.drop_zero,
        h₂, List.take_append_drop, h₁, List.take_append_drop]

/-- Part of a payload reads as a put only if all of it is there. -/
theorem fromBytes_take_iff {put : WalPutPayload} (fits : Fits env put) (rest : Bytes) (n : Nat) :
    (∃ other, fromBytes env ((put.toBytes env ++ rest).take n) = .ok other) ↔
      (put.toBytes env).length ≤ n := by
  constructor
  · intro ⟨other, reads⟩
    obtain ⟨fits', more, split⟩ := fromBytes_eq_ok reads
    -- the same put is read from the front of all the bytes
    have all := fromBytes_toBytes_append fits rest
    rw [← List.take_append_drop n (put.toBytes env ++ rest), split, List.append_assoc,
      fromBytes_toBytes_append fits'] at all
    obtain rfl := Except.ok.inj all
    have size := congrArg List.length split
    simp only [List.length_take, List.length_append] at size
    omega
  · intro whole
    refine ⟨put, ?_⟩
    rw [List.take_append, List.take_of_length_le whole]
    exact fromBytes_toBytes_append fits _

end WalPutPayload

namespace WalRecord

variable {env : Env}

/-! ## The fields of a header -/

/-- A header with these fields. -/
def header (magic : Bytes) (lsn : UInt64) (recordType : UInt8) (payloadLen crc : UInt32) : Bytes :=
  magic ++ Bytes.ofU64 lsn ++ [recordType] ++ Bytes.ofU32 payloadLen ++ Bytes.ofU32 crc

def magicOf (head : Bytes) : Bytes := Bytes.slice head 0 4
def lsnOf (head : Bytes) : UInt64 := Bytes.toU64 (Bytes.slice head 4 8)
def typeOf (head : Bytes) : UInt8 := (Bytes.slice head 12 1).headD 0
def payloadLenOf (head : Bytes) : Nat := (Bytes.toU32 (Bytes.slice head 13 4)).toNat
def crcOf (head : Bytes) : UInt32 := Bytes.toU32 (Bytes.slice head 17 4)

theorem header_fields {head : Bytes} (size : head.length = walHeaderSize) :
    header (magicOf head) (lsnOf head) (typeOf head) (Bytes.toU32 (Bytes.slice head 13 4)) (crcOf head) =
      head := by
  have length : head.length = 21 := size
  have type : [typeOf head] = Bytes.slice head 12 1 := by
    obtain ⟨b, hb⟩ := List.length_eq_one_iff.1 (Bytes.length_slice (show 12 + 1 ≤ head.length by omega))
    rw [typeOf, hb]
    rfl
  have last : Bytes.slice head 17 4 = head.drop 17 := by
    rw [Bytes.slice, List.take_of_length_le]
    rw [List.length_drop]
    omega
  unfold header magicOf lsnOf crcOf
  rw [type, Bytes.ofU64_toU64 (Bytes.length_slice (by omega)),
    Bytes.ofU32_toU32 (Bytes.length_slice (by omega)),
    Bytes.ofU32_toU32 (Bytes.length_slice (by omega))]
  simp only [List.append_assoc]
  rw [last, ← Bytes.drop_eq_slice_append head 13 4, ← Bytes.drop_eq_slice_append head 12 1,
    ← Bytes.drop_eq_slice_append head 4 8, ← Bytes.drop_eq_slice_append head 0 4]
  rfl

theorem frame_eq_header (lsn : UInt64) (t : WalRecordType) (payload : Bytes) :
    frame env lsn t payload = header walMagic lsn t.toU8 (UInt32.ofNat payload.length)
      (env.crc32 payload) ++ payload := rfl

theorem length_header {lsn : UInt64} {t : UInt8} {len crc : UInt32} :
    (header walMagic lsn t len crc).length = walHeaderSize := by
  simp only [header, walMagic, walHeaderSize, List.length_append, Bytes.length_ofU32,
    Bytes.length_ofU64, List.length_cons, List.length_nil]

/-- The payload that a header announces. -/
def announced (head body : Bytes) : Bytes := body.take (payloadLenOf head)

/-- What decoding looks at in a header before it looks at the type. -/
structure Announces (env : Env) (head body : Bytes) : Prop where
  magic : magicOf head = walMagic
  complete : payloadLenOf head ≤ body.length
  checksum : env.crc32 (announced head body) = crcOf head

theorem not_ok_of_error {α : Type} {r : Result α} {e : OosLiteError} (failed : r = .error e) :
    ¬ ∃ a, r = .ok a := by
  rintro ⟨_, ok⟩
  rw [failed] at ok
  cases ok

/-- What decoding makes of a header and of what follows it. -/
theorem decode_ok_iff {head body : Bytes} (size : head.length = walHeaderSize) :
    (∃ found, decode env (head ++ body) = .ok found) ↔ Announces env head body ∧
      ∃ t p, WalRecordType.tryFrom (typeOf head) = .ok t ∧
        readPayload env (lsnOf head) t (announced head body) = .ok p := by
  have field (start count : Nat) (within : start + count ≤ 21) :
      Bytes.slice (head ++ body) start count = Bytes.slice head start count :=
    Bytes.slice_append_left (by rw [size]; exact within)
  have payload : Bytes.slice (head ++ body) walHeaderSize (payloadLenOf head) = announced head body := by
    rw [Bytes.slice, ← size, List.drop_left]
    rfl
  have length : (head ++ body).length = walHeaderSize + body.length := by
    rw [List.length_append, size]
  have long : ¬ (head ++ body).length < walHeaderSize := by omega
  have magicField : Bytes.slice head 0 4 = magicOf head := rfl
  have lsnField : Bytes.toU64 (Bytes.slice head 4 8) = lsnOf head := rfl
  have typeField : (Bytes.slice head 12 1).headD 0 = typeOf head := rfl
  have lenField : (Bytes.toU32 (Bytes.slice head 13 4)).toNat = payloadLenOf head := rfl
  have crcField : Bytes.toU32 (Bytes.slice head 17 4) = crcOf head := rfl
  rw [decode, if_neg long]
  simp only [field 0 4 (by omega), field 4 8 (by omega), field 12 1 (by omega),
    field 13 4 (by omega), field 17 4 (by omega), magicField, lsnField, typeField, lenField, crcField,
    payload]
  by_cases magic : magicOf head = walMagic
  case neg =>
    rw [if_pos magic]
    exact iff_of_false (not_ok_of_error rfl) fun h => magic h.1.magic
  rw [if_neg (not_not_intro magic)]
  cases type : WalRecordType.tryFrom (typeOf head) with
  | error e => exact iff_of_false (not_ok_of_error rfl) (by simp)
  | ok t =>
    simp only [bind, Except.bind]
    by_cases complete : payloadLenOf head ≤ body.length
    case neg =>
      rw [if_pos (by omega)]
      exact iff_of_false (not_ok_of_error rfl) fun h => complete h.1.complete
    rw [if_neg (by omega)]
    by_cases checksum : env.crc32 (announced head body) = crcOf head
    case neg =>
      rw [if_pos checksum]
      exact iff_of_false (not_ok_of_error rfl) fun h => checksum h.1.checksum
    rw [if_neg (not_not_intro checksum)]
    cases reads : readPayload env (lsnOf head) t (announced head body) with
    | error e =>
      refine iff_of_false (not_ok_of_error rfl) ?_
      rintro ⟨_, _, p, same, h⟩
      cases same
      rw [reads] at h
      cases h
    | ok p =>
      exact ⟨fun _ => ⟨⟨magic, complete, checksum⟩, t, p, rfl, reads⟩, fun _ => ⟨_, rfl⟩⟩

/-! ## Damaged headers -/

/-- What decryption promises of a record: under its key and nonce, nothing but its own ciphertext with
its own associated data is authentic of what stands in its place. -/
def Authentic (env : Env) (lsn : UInt64) (put : WalPutPayload) (nonce : Nonce) (rest : Bytes) : Prop :=
  ∀ key, env.vaultKey = some key → ∀ lsn' front message,
    front <+: key.encryptChunk env (put.toBytes env) nonce (aad lsn .encryptedPutObject) ++ rest →
    env.decrypt key nonce (aad lsn' .encryptedPutObject) front = some message →
    lsn' = lsn ∧ front = key.encryptChunk env (put.toBytes env) nonce (aad lsn .encryptedPutObject)

/-- A damaged header of a put that decoding takes: the announced payload has the checksum of the
header, and either the type is that of a checkpoint, or that of an unencrypted put, and the
announced payload reads as one. -/
def Unnoticed (env : Env) (put : WalPutPayload) (head body : Bytes) : Prop :=
  Announces env head body ∧
    (typeOf head = WalRecordType.checkpoint.toU8 ∧ 8 ≤ payloadLenOf head ∨
      typeOf head = WalRecordType.putObject.toU8 ∧
        match env.vaultKey with
        | none => (put.toBytes env).length ≤ payloadLenOf head
        | some _ => ∃ other, WalPutPayload.fromBytes env (announced head body) = .ok other)

theorem tryFrom_ok_iff {val : UInt8} {t : WalRecordType} :
    WalRecordType.tryFrom val = .ok t ↔ val = t.toU8 := by
  unfold WalRecordType.tryFrom
  constructor
  · intro h
    split at h
    · cases h; assumption
    · split at h
      · cases h; assumption
      · split at h
        · cases h; assumption
        · cases h
  · rintro rfl
    cases t <;> rfl

theorem readPayload_put_iff {lsn : UInt64} {payload : Bytes} :
    (∃ p, readPayload env lsn .putObject payload = .ok p) ↔
      ∃ other, WalPutPayload.fromBytes env payload = .ok other := by
  rw [readPayload]
  cases WalPutPayload.fromBytes env payload with
  | ok other => exact ⟨fun _ => ⟨other, rfl⟩, fun _ => ⟨_, rfl⟩⟩
  | error e => exact iff_of_false (not_ok_of_error rfl) (by simp)

theorem readPayload_checkpoint_iff {lsn : UInt64} {payload : Bytes} :
    (∃ p, readPayload env lsn .checkpoint payload = .ok p) ↔ 8 ≤ payload.length := by
  rw [readPayload]
  by_cases short : payload.length < 8
  · rw [if_pos short]
    exact iff_of_false (not_ok_of_error rfl) (by omega)
  · rw [if_neg short]
    exact ⟨fun _ => by omega, fun _ => ⟨_, rfl⟩⟩

/-- An encrypted payload is only read behind the header it was written with. -/
theorem encrypted_header {lsn : UInt64} {put : WalPutPayload} {nonce : Nonce} {rest head : Bytes}
    {key : VaultKey} (vault : env.vaultKey = some key)
    (authentic : Authentic env lsn put nonce rest) (size : head.length = walHeaderSize)
    (announces : Announces env head (sealedPut env lsn put nonce ++ rest))
    (type : typeOf head = WalRecordType.encryptedPutObject.toU8) {p : WalRecordPayload}
    (reads : readPayload env (lsnOf head) .encryptedPutObject
      (announced head (sealedPut env lsn put nonce ++ rest)) = .ok p) :
    head = (frame env lsn (putType env) (sealedPut env lsn put nonce)).take walHeaderSize := by
  obtain ⟨cipher, hcipher⟩ : ∃ c, c = key.encryptChunk env (put.toBytes env) nonce
      (aad lsn .encryptedPutObject) := ⟨_, rfl⟩
  have payload : sealedPut env lsn put nonce = nonce.bytes ++ cipher := by
    rw [sealedPut, vault, hcipher]
  have length := @length_sealedPut env lsn put nonce
  have kind : putType env = .encryptedPutObject := by rw [putType, vault]
  have complete := announces.complete
  obtain ⟨plaintext, decrypted, -⟩ := Result.bind_eq_ok.1 reads
  simp only [decrypt, vault] at decrypted
  by_cases short : (announced head (sealedPut env lsn put nonce ++ rest)).length < 24 + 16
  · rw [if_pos short] at decrypted
    cases decrypted
  rw [if_neg short] at decrypted
  rw [announced, List.length_take] at short
  have first : (announced head (sealedPut env lsn put nonce ++ rest)).take 24 = nonce.bytes := by
    rw [announced, List.take_take, Nat.min_eq_left (by omega), payload, List.append_assoc]
    exact Bytes.take_field nonce.length_eq
  have second : (announced head (sealedPut env lsn put nonce ++ rest)).drop 24 =
      (cipher ++ rest).take (payloadLenOf head - 24) := by
    rw [announced, List.drop_take, payload, List.append_assoc, Bytes.drop_field nonce.length_eq]
  rw [first, second, FixedBytes.ofBytes_bytes, VaultKey.decryptChunk] at decrypted
  cases opened : env.decrypt key nonce (aad (lsnOf head) .encryptedPutObject)
      ((cipher ++ rest).take (payloadLenOf head - 24)) with
  | none =>
    rw [opened] at decrypted
    cases decrypted
  | some message =>
    obtain ⟨sameLsn, same⟩ := authentic key vault _ _ _ (by rw [← hcipher]; exact List.take_prefix _ _)
      opened
    rw [← hcipher] at same
    -- so the announced length is the true one
    have whole : payloadLenOf head = (sealedPut env lsn put nonce).length := by
      have := congrArg List.length same
      rw [payload, List.length_append, List.length_append, nonce.length_eq] at complete
      rw [List.length_take, List.length_append] at this
      rw [payload, List.length_append, nonce.length_eq]
      omega
    have field : Bytes.toU32 (Bytes.slice head 13 4) =
        UInt32.ofNat (sealedPut env lsn put nonce).length := by
      rw [← whole, payloadLenOf, UInt32.ofNat_toNat]
    have checksum := announces.checksum
    rw [announced, whole, List.take_left] at checksum
    rw [frame_eq_header, kind, List.take_left' length_header, ← header_fields size,
      announces.magic, sameLsn, type, field, checksum]

/-- A put with a damaged header is refused unless the damage goes unnoticed. -/
theorem damaged_header_refused_iff {lsn : UInt64} {put : WalPutPayload} {nonce : Nonce} {bytes : Bytes}
    (encoded : encodePut env lsn put nonce = .ok bytes) {rest : Bytes}
    (authentic : Authentic env lsn put nonce rest) {head : Bytes} (size : head.length = walHeaderSize)
    (damaged : head ≠ bytes.take walHeaderSize) :
    (∃ e, decode env (head ++ (bytes.drop walHeaderSize ++ rest)) = .error e) ↔
      ¬ Unnoticed env put head (bytes.drop walHeaderSize ++ rest) := by
  obtain ⟨fits, total⟩ := encodePut_ok_fits encoded
  obtain rfl := Except.ok.inj ((encodePut_fits fits total lsn nonce).symm.trans encoded)
  have payload : (frame env lsn (putType env) (sealedPut env lsn put nonce)).drop walHeaderSize =
      sealedPut env lsn put nonce := by
    rw [frame_eq_header, List.drop_left' length_header]
  rw [payload]
  have taken : (∃ found, decode env (head ++ (sealedPut env lsn put nonce ++ rest)) = .ok found) ↔
      Unnoticed env put head (sealedPut env lsn put nonce ++ rest) := by
    rw [decode_ok_iff size, Unnoticed]
    refine and_congr_right fun announces => ?_
    have length : (announced head (sealedPut env lsn put nonce ++ rest)).length = payloadLenOf head := by
      rw [announced, List.length_take_of_le announces.complete]
    constructor
    · rintro ⟨t, p, type, reads⟩
      have type := tryFrom_ok_iff.1 type
      cases t with
      | checkpoint =>
        rw [← length]
        exact .inl ⟨type, readPayload_checkpoint_iff.1 ⟨p, reads⟩⟩
      | putObject =>
        have other := readPayload_put_iff.1 ⟨p, reads⟩
        refine .inr ⟨type, ?_⟩
        cases vault : env.vaultKey with
        | none =>
          rw [announced, sealedPut, vault] at other
          exact (WalPutPayload.fromBytes_take_iff fits rest _).1 other
        | some key => exact other
      | encryptedPutObject =>
        cases vault : env.vaultKey with
        | none =>
          rw [readPayload, decrypt, vault] at reads
          cases reads
        | some key =>
          exact absurd (encrypted_header vault authentic size announces type reads) damaged
    · rintro (⟨type, long⟩ | ⟨type, whole⟩)
      · rw [← length] at long
        obtain ⟨p, reads⟩ := readPayload_checkpoint_iff.2 long
        exact ⟨_, p, tryFrom_ok_iff.2 type, reads⟩
      · have other : ∃ other, WalPutPayload.fromBytes env
            (announced head (sealedPut env lsn put nonce ++ rest)) = .ok other := by
          cases vault : env.vaultKey with
          | none =>
            rw [vault] at whole
            rw [announced, sealedPut, vault]
            exact (WalPutPayload.fromBytes_take_iff fits rest _).2 whole
          | some key =>
            rw [vault] at whole
            exact whole
        obtain ⟨p, reads⟩ := readPayload_put_iff.2 other
        exact ⟨_, p, tryFrom_ok_iff.2 type, reads⟩
  rw [← taken]
  cases decode env (head ++ (sealedPut env lsn put nonce ++ rest)) with
  | ok found => exact iff_of_false (by simp) fun h => h ⟨found, rfl⟩
  | error e => exact iff_of_true ⟨e, rfl⟩ (by simp)

/-- No put with a damaged header is taken for a record. -/
def DamageRefused (env : Env) (lsn : UInt64) (put : WalPutPayload) (nonce : Nonce) : Prop :=
  ∀ bytes, encodePut env lsn put nonce = .ok bytes →
    ∀ head rest, head.length = walHeaderSize → head ≠ bytes.take walHeaderSize →
      ∃ e, decode env (head ++ (bytes.drop walHeaderSize ++ rest)) = .error e

namespace DamageSample

/-- A put of an empty file. -/
def put : WalPutPayload where
  name := "a"
  objectId := FixedBytes.ofBytes 16 []
  version := 1
  manifest := { totalSize := 0, contentHash := FixedBytes.ofBytes 32 [], createdAt := 0, chunks := [] }
  chunks := []

def nonce : Nonce := FixedBytes.ofBytes 24 []

/-- An unencrypted store. -/
def plain : Env := Reference.env []

/-- Sixteen bytes that the associated data of a record determines. -/
def tag (aad : Bytes) : Bytes := (List.replicate 7 255 ++ aad ++ List.replicate 16 0).take 16

theorem length_tag (aad : Bytes) : (tag aad).length = 16 := by
  simp only [tag, List.length_take, List.length_append, List.length_replicate]
  omega

/-- An encrypted store, with a tag that is checked. -/
def sealing : Env where
  toCrates := { Reference.crates [] with
    encrypt := fun _ _ aad message => message ++ tag aad
    decrypt := fun _ _ aad cipher =>
      if cipher.drop (cipher.length - 16) = tag aad then some (cipher.take (cipher.length - 16))
      else none
    decrypt_encrypt := fun _ _ aad message => by simp [length_tag]
    length_encrypt := fun _ _ aad message => by simp [length_tag] }
  vaultKey := some (FixedBytes.ofBytes 32 [])

/-- The record of the put, and its header with another number. -/
def record (env : Env) : Bytes := (encodePut env 1 put nonce).toOption.getD []

def renumbered (env : Env) : Bytes :=
  (record env).take 4 ++ Bytes.ofU64 2 ++ Bytes.slice (record env) 12 9

theorem authentic : Authentic sealing 1 put nonce [] := by
  intro key vault lsn' front message part opened
  cases vault
  obtain ⟨cipher, hc⟩ : ∃ c, c = put.toBytes sealing ++ tag (aad 1 .encryptedPutObject) := ⟨_, rfl⟩
  have part : front <+: cipher := by
    rw [List.append_nil] at part
    rw [hc]
    exact part
  have opened : (if front.drop (front.length - 16) = tag (aad lsn' .encryptedPutObject) then
      some (front.take (front.length - 16)) else none) = some message := opened
  by_cases tagged : front.drop (front.length - 16) = tag (aad lsn' .encryptedPutObject)
  case neg =>
    rw [if_neg tagged] at opened
    cases opened
  -- nowhere else is there such a tag
  have only : ∀ k ∈ List.range 111, ((cipher.take k).drop (k - 16)).take 7 ≠ List.replicate 7 255 := by
    rw [hc]
    decide +kernel
  have size : cipher.length = 111 := by
    rw [hc]
    decide +kernel
  have front_eq := List.prefix_iff_eq_take.1 part
  have marked : (front.drop (front.length - 16)).take 7 = List.replicate 7 255 := by
    rw [tagged, tag, List.take_take, List.append_assoc]
    exact Bytes.take_field rfl
  have whole : front = cipher := by
    apply part.eq_of_length_le
    by_contra short
    have le := part.length_le
    refine only front.length (List.mem_range.2 (by omega)) ?_
    rw [← front_eq, marked]
  refine ⟨?_, ?_⟩
  · have same : tag (aad lsn' .encryptedPutObject) = tag (aad 1 .encryptedPutObject) := by
      rw [← tagged, whole, hc, List.length_append, length_tag, Nat.add_sub_cancel, List.drop_left]
    have field (lsn : UInt64) : Bytes.slice (tag (aad lsn .encryptedPutObject)) 7 8 = Bytes.ofU64 lsn := by
      rw [tag, Bytes.slice_take (by omega), List.append_assoc, aad, List.append_assoc]
      exact Bytes.slice_field (by simp) (by simp)
    have numbers := congrArg (fun bytes => Bytes.toU64 (Bytes.slice bytes 7 8)) same
    simpa only [field, Bytes.toU64_ofU64] using numbers
  · rw [whole, hc]
    rfl

theorem encoded (env : Env) (ok : (encodePut env 1 put nonce).isOk = true) :
    encodePut env 1 put nonce = .ok (record env) := by
  unfold record
  cases h : encodePut env 1 put nonce with
  | ok bytes => rfl
  | error e =>
    rw [h] at ok
    cases ok

end DamageSample

open DamageSample in
/-- With another number the record of an unencrypted put is another record. -/
theorem renumbered_not_refused :
    decode plain (renumbered plain ++ (record plain).drop walHeaderSize) =
      .ok (⟨2, .putObject put⟩, (record plain).length) ∧
    ¬ DamageRefused plain 1 put nonce := by
  have taken : decode plain (renumbered plain ++ (record plain).drop walHeaderSize) =
      .ok (⟨2, .putObject put⟩, (record plain).length) := by decide +kernel
  refine ⟨taken, fun refused => ?_⟩
  obtain ⟨e, h⟩ := refused (record plain) (encoded plain (by decide +kernel)) (renumbered plain) []
    (by decide +kernel) (by decide +kernel)
  rw [List.append_nil, taken] at h
  cases h

open DamageSample in
theorem damaged_header_refused_iff_renumbered :
    (∃ e, decode sealing (renumbered sealing ++ ((record sealing).drop walHeaderSize ++ [])) = .error e) ↔
      ¬ Unnoticed sealing put (renumbered sealing) ((record sealing).drop walHeaderSize ++ []) :=
  damaged_header_refused_iff (encoded sealing (by decide +kernel)) authentic (by decide +kernel)
    (by decide +kernel)

end WalRecord

end OosLite
