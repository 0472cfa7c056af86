import OosLite.Env
import OosLite.Lib.Process

/-!
# The vault key

`vault.key`: the master key of an encrypted store, encrypted with a key that Argon2id derives from the
passphrase. 100 bytes: magic, version, salt, nonce, the encrypted master key with its tag, checksum.
-/

namespace OosLite

open Files Effect

/-- The crates, with the key derivation. -/
structure VaultCrates extends Crates where
  /-- `Argon2::hash_password_into` with the parameters of `derive_kek`: passphrase and salt. -/
  argon2 : Bytes → FixedBytes 16 → Except String VaultKey

/-- What an open store runs with. -/
def VaultCrates.env (crates : VaultCrates) (vaultKey : Option VaultKey) : Env :=
  { crates.toCrates with vaultKey }

/-- The errors of opening a store: of its parts, and `OosLiteError::AuthenticationFailed`. -/
inductive OpenError where
  | authenticationFailed (message : String)
  | store (e : OosLiteError)
  deriving DecidableEq

/-- `b"OOSK"`. -/
def vaultMagic : Bytes := [79, 79, 83, 75]

def vaultVersion : UInt32 := 1

def vaultFileSize : Nat := 100

namespace VaultKey

variable (crates : VaultCrates)

/-- `derive_kek`. -/
def deriveKek (passphrase : String) (salt : FixedBytes 16) : Except OpenError VaultKey :=
  (crates.argon2 (Text.utf8 passphrase) salt).mapError fun e =>
    .store (.internal ("Argon2 key derivation failed: " ++ e))

/-- The associated data of the master key. -/
def vaultAad (salt : FixedBytes 16) : Bytes := vaultMagic ++ Bytes.ofU32 vaultVersion ++ salt.bytes

/-- A vault key file up to its checksum. -/
def vaultBody (salt : FixedBytes 16) (nonce : Nonce) (ciphertextAndTag : Bytes) : Bytes :=
  vaultAad salt ++ nonce.bytes ++ ciphertextAndTag

/-- A vault key file. -/
def vaultBytes (salt : FixedBytes 16) (nonce : Nonce) (ciphertextAndTag : Bytes) : Bytes :=
  vaultBody salt nonce ciphertextAndTag ++
    Bytes.ofU32 (crates.crc32 ((vaultBody salt nonce ciphertextAndTag).take 96))

/-- `create`, with the random bytes it draws: the file of a new master key. -/
def create (passphrase : String) (masterKey : VaultKey) (salt : FixedBytes 16) (nonce : Nonce) :
    Except OpenError Bytes := do
  if Text.trim passphrase = "" then throw (.authenticationFailed "Passphrase cannot be empty")
  if (Text.utf8 passphrase).length < 8 then
    throw (.authenticationFailed "Passphrase is too short: minimum 8 characters required")
  let kek ← deriveKek crates passphrase salt
  let ciphertextAndTag := crates.encrypt kek nonce (vaultAad salt) masterKey.bytes
  if ciphertextAndTag.length ≠ 48 then
    throw (.store (.internal "Unexpected encrypted master key size"))
  return vaultBytes crates salt nonce ciphertextAndTag

/-- `unlock`. -/
def unlock (passphrase : String) (bytes : Bytes) : Except OpenError VaultKey := do
  if bytes.length ≠ vaultFileSize then
    throw (.authenticationFailed
      s!"Invalid vault key file size: expected {vaultFileSize}, got {bytes.length}")
  if bytes.take 4 ≠ vaultMagic then
    throw (.authenticationFailed "Invalid vault key magic header")
  let version := Bytes.toU32 (Bytes.slice bytes 4 4)
  if version ≠ vaultVersion then
    throw (.authenticationFailed s!"Unsupported vault key version: {version}")
  let expectedChecksum := crates.crc32 (bytes.take 96)
  let storedChecksum := Bytes.toU32 (Bytes.slice bytes 96 4)
  if expectedChecksum ≠ storedChecksum then
    throw (.authenticationFailed "Vault key file corrupted (checksum mismatch)")
  let salt := FixedBytes.ofBytes 16 (Bytes.slice bytes 8 16)
  let nonce := FixedBytes.ofBytes 24 (Bytes.slice bytes 24 24)
  let kek ← deriveKek crates passphrase salt
  match crates.decrypt kek nonce (vaultAad salt) (Bytes.slice bytes 48 48) with
  | none => throw (.authenticationFailed
      "Incorrect passphrase or vault key data was tampered with (decryption failed)")
  | some decrypted =>
    if decrypted.length ≠ 32 then
      throw (.authenticationFailed "Decrypted master key has invalid length")
    return FixedBytes.ofBytes 32 decrypted

/-! ## The file -/

section File

variable {crates} {passphrase : String} {salt : FixedBytes 16} {nonce : Nonce} {cipher bytes : Bytes}
  {key : VaultKey}

theorem length_vaultAad (salt : FixedBytes 16) : (vaultAad salt).length = 24 := by
  simp [vaultAad, vaultMagic]

theorem length_vaultBody (len : cipher.length = 48) : (vaultBody salt nonce cipher).length = 96 := by
  simp [vaultBody, length_vaultAad, len]

/-- The checksum is of everything before it. -/
theorem vaultBytes_eq (len : cipher.length = 48) : vaultBytes crates salt nonce cipher =
    vaultBody salt nonce cipher ++ Bytes.ofU32 (crates.crc32 (vaultBody salt nonce cipher)) := by
  rw [vaultBytes, List.take_of_length_le (length_vaultBody len).le]

/-- A file of 100 bytes with the right magic, version and checksum is laid out as `create` does it. -/
theorem eq_vaultBytes (len : bytes.length = vaultFileSize) (magic : bytes.take 4 = vaultMagic)
    (version : Bytes.toU32 (Bytes.slice bytes 4 4) = vaultVersion)
    (checksum : crates.crc32 (bytes.take 96) = Bytes.toU32 (Bytes.slice bytes 96 4)) :
    bytes = vaultBytes crates (FixedBytes.ofBytes 16 (Bytes.slice bytes 8 16))
      (FixedBytes.ofBytes 24 (Bytes.slice bytes 24 24)) (Bytes.slice bytes 48 48) := by
  simp only [vaultFileSize] at len
  have sized (start count : Nat) (h : start + count ≤ 100) : (Bytes.slice bytes start count).length = count :=
    Bytes.length_slice (by omega)
  have salt := FixedBytes.bytes_ofBytes (sized 8 16 (by omega))
  have nonce := FixedBytes.bytes_ofBytes (sized 24 24 (by omega))
  have version' : Bytes.slice bytes 4 4 = Bytes.ofU32 vaultVersion := by
    rw [← version, Bytes.ofU32_toU32 (sized 4 4 (by omega))]
  have crc : Bytes.slice bytes 96 4 = Bytes.ofU32 (crates.crc32 (bytes.take 96)) := by
    rw [checksum, Bytes.ofU32_toU32 (sized 96 4 (by omega))]
  have body : bytes.take 96 = vaultBody (FixedBytes.ofBytes 16 (Bytes.slice bytes 8 16))
      (FixedBytes.ofBytes 24 (Bytes.slice bytes 24 24)) (Bytes.slice bytes 48 48) := by
    have fields : bytes = bytes.take 4 ++ (Bytes.slice bytes 4 4 ++ (Bytes.slice bytes 8 16 ++
        (Bytes.slice bytes 24 24 ++ (Bytes.slice bytes 48 48 ++ bytes.drop 96)))) := by
      rw [← Bytes.drop_eq_slice_append bytes 48 48, ← Bytes.drop_eq_slice_append bytes 24 24,
        ← Bytes.drop_eq_slice_append bytes 8 16, ← Bytes.drop_eq_slice_append bytes 4 4,
        List.take_append_drop]
    rw [vaultBody, vaultAad, salt, nonce, ← version', ← magic]
    conv_lhs => rw [fields]
    rw [← List.append_assoc, ← List.append_assoc, ← List.append_assoc, ← List.append_assoc]
    apply List.take_left'
    simp only [List.length_append, sized 4 4 (by omega), sized 8 16 (by omega),
      sized 24 24 (by omega), sized 48 48 (by omega), List.length_take, len]
    omega
  have last : bytes.drop 96 = Bytes.slice bytes 96 4 := by
    rw [Bytes.slice, List.take_of_length_le]
    rw [List.length_drop, len]
  rw [vaultBytes_eq (sized 48 48 (by omega)), ← body, ← crc, ← last, List.take_append_drop]

/-- The fields of a file that `create` has laid out. -/
theorem fields_vaultBytes (len : cipher.length = 48) :
    (vaultBytes crates salt nonce cipher).length = vaultFileSize ∧
      (vaultBytes crates salt nonce cipher).take 4 = vaultMagic ∧
      Bytes.slice (vaultBytes crates salt nonce cipher) 4 4 = Bytes.ofU32 vaultVersion ∧
      Bytes.slice (vaultBytes crates salt nonce cipher) 8 16 = salt.bytes ∧
      Bytes.slice (vaultBytes crates salt nonce cipher) 24 24 = nonce.bytes ∧
      Bytes.slice (vaultBytes crates salt nonce cipher) 48 48 = cipher ∧
      (vaultBytes crates salt nonce cipher).take 96 = vaultBody salt nonce cipher ∧
      Bytes.slice (vaultBytes crates salt nonce cipher) 96 4 =
        Bytes.ofU32 (crates.crc32 (vaultBody salt nonce cipher)) := by
  rw [vaultBytes_eq len]
  obtain ⟨crc, hcrc⟩ : ∃ crc, crc = Bytes.ofU32 (crates.crc32 (vaultBody salt nonce cipher)) := ⟨_, rfl⟩
  have crcLen : crc.length = 4 := by rw [hcrc, Bytes.length_ofU32]
  have bodyLen : (vaultBody salt nonce cipher).length = 96 := length_vaultBody len
  have magicLen : vaultMagic.length = 4 := rfl
  rw [← hcrc]
  have front : vaultBody salt nonce cipher ++ crc = vaultMagic ++ (Bytes.ofU32 vaultVersion ++
      (salt.bytes ++ (nonce.bytes ++ (cipher ++ crc)))) := by
    simp [vaultBody, vaultAad]
  refine ⟨by simp [bodyLen, crcLen, vaultFileSize], ?_, ?_, ?_, ?_, ?_, ?_, ?_⟩
  · rw [front, Bytes.take_field magicLen]
  · rw [front, Bytes.slice_field magicLen (Bytes.length_ofU32 _)]
  · rw [front, ← List.append_assoc, Bytes.slice_field (by simp [magicLen]) salt.length_eq]
  · rw [front, ← List.append_assoc, ← List.append_assoc,
      Bytes.slice_field (by simp [magicLen]) nonce.length_eq]
  · rw [front, ← List.append_assoc, ← List.append_assoc, ← List.append_assoc,
      Bytes.slice_field (by simp [magicLen]) len]
  · exact Bytes.take_field bodyLen
  · rw [← List.append_nil (vaultBody salt nonce cipher ++ crc), List.append_assoc,
      Bytes.slice_field bodyLen crcLen]

/-- What decrypts the master key. -/
def Decrypts (crates : VaultCrates) (passphrase : String) (salt : FixedBytes 16) (nonce : Nonce)
    (cipher : Bytes) (key : VaultKey) : Prop :=
  ∃ kek, crates.argon2 (Text.utf8 passphrase) salt = .ok kek ∧
    crates.decrypt kek nonce (vaultAad salt) cipher = some key.bytes

theorem deriveKek_eq_ok {kek : VaultKey} : deriveKek crates passphrase salt = .ok kek ↔
    crates.argon2 (Text.utf8 passphrase) salt = .ok kek := by
  unfold deriveKek
  cases crates.argon2 (Text.utf8 passphrase) salt with
  | error e => simp [Except.mapError]
  | ok kek => simp [Except.mapError]

/-- A file is unlocked exactly if it is laid out as `create` does it, and the key that is derived from
the passphrase decrypts what is in it to a master key. -/
theorem unlock_eq_ok : unlock crates passphrase bytes = .ok key ↔ ∃ salt nonce cipher,
    cipher.length = 48 ∧ bytes = vaultBytes crates salt nonce cipher ∧
      Decrypts crates passphrase salt nonce cipher key := by
  constructor
  · intro ok
    unfold unlock at ok
    simp only [bind, Except.bind, pure, Except.pure, throw, throwThe, MonadExceptOf.throw] at ok
    split at ok
    · cases ok
    rename_i len
    split at ok
    · cases ok
    rename_i magic
    split at ok
    · cases ok
    rename_i version
    split at ok
    · cases ok
    rename_i checksum
    split at ok
    · cases ok
    rename_i kek derived
    split at ok
    · cases ok
    rename_i decrypted decrypts
    split at ok
    · cases ok
    rename_i size
    obtain rfl := Except.ok.inj ok
    refine ⟨_, _, _, Bytes.length_slice ?_, eq_vaultBytes (not_not.1 len) (not_not.1 magic)
      (not_not.1 version) (not_not.1 checksum), kek, deriveKek_eq_ok.1 derived, ?_⟩
    · rw [not_not.1 len, vaultFileSize]
      omega
    · rw [decrypts, FixedBytes.bytes_ofBytes (not_not.1 size)]
  · rintro ⟨salt, nonce, cipher, len, rfl, kek, derived, decrypted⟩
    obtain ⟨total, magic, version, salt', nonce', cipher', body, crc⟩ :=
      @fields_vaultBytes crates salt nonce cipher len
    have derives := deriveKek_eq_ok.2 derived
    unfold unlock
    simp only [total, magic, version, Bytes.toU32_ofU32, body, crc, salt', nonce', cipher',
      FixedBytes.ofBytes_bytes, derives, ne_eq, not_true_eq_false, if_false]
    simp only [bind, Except.bind, pure, Except.pure]
    rw [decrypted]
    simp only [key.length_eq, not_true_eq_false, if_false, FixedBytes.ofBytes_bytes]

/-- What `create` has made. -/
structure Creates (crates : VaultCrates) (passphrase : String) (key : VaultKey) (bytes : Bytes) :
    Prop where
  nonempty : Text.trim passphrase ≠ ""
  long : 8 ≤ (Text.utf8 passphrase).length
  file : ∃ kek salt nonce, crates.argon2 (Text.utf8 passphrase) salt = .ok kek ∧
    bytes = vaultBytes crates salt nonce (crates.encrypt kek nonce (vaultAad salt) key.bytes)

theorem create_eq_ok (h : create crates passphrase key salt nonce = .ok bytes) :
    Creates crates passphrase key bytes := by
  unfold create at h
  simp only [bind, Except.bind, pure, Except.pure, throw, throwThe, MonadExceptOf.throw] at h
  split at h
  · cases h
  rename_i nonempty
  split at h
  · cases h
  rename_i long
  split at h
  · cases h
  rename_i kek derived
  split at h
  · cases h
  obtain rfl := Except.ok.inj h
  exact ⟨nonempty, Nat.le_of_not_lt long, kek, salt, nonce, deriveKek_eq_ok.1 derived, rfl⟩

/-- The passphrase unlocks what was created with it. -/
theorem Creates.unlock (h : Creates crates passphrase key bytes) :
    unlock crates passphrase bytes = .ok key := by
  obtain ⟨kek, salt, nonce, derived, rfl⟩ := h.file
  refine unlock_eq_ok.2 ⟨salt, nonce, _, ?_, rfl, kek, derived, crates.decrypt_encrypt _ _ _ _⟩
  rw [crates.length_encrypt, key.length_eq]

/-- Layouts with the same bytes have the same fields. -/
theorem vaultBytes_inj {salt' : FixedBytes 16} {nonce' : Nonce} {cipher' : Bytes}
    (len : cipher.length = 48) (len' : cipher'.length = 48)
    (h : vaultBytes crates salt nonce cipher = vaultBytes crates salt' nonce' cipher') :
    salt = salt' ∧ nonce = nonce' ∧ cipher = cipher' := by
  obtain ⟨-, -, -, s, n, c, -⟩ := @fields_vaultBytes crates salt nonce cipher len
  obtain ⟨-, -, -, s', n', c', -⟩ := @fields_vaultBytes crates salt' nonce' cipher' len'
  rw [h] at s n c
  exact ⟨FixedBytes.ext (s.symm.trans s'), FixedBytes.ext (n.symm.trans n'), c.symm.trans c'⟩

/-- A cipher that authenticates: whatever decrypts under a key what was encrypted under some key gives
back what was encrypted. -/
def Authentic (crates : VaultCrates) : Prop :=
  ∀ key key' nonce aad message message',
    crates.decrypt key' nonce aad (crates.encrypt key nonce aad message) = some message' → message' = message

/-- Whatever passphrase unlocks a created file, it gives the key of the file. -/
theorem Creates.unlock_eq (authentic : Authentic crates) (h : Creates crates passphrase key bytes)
    {passphrase' : String} {key' : VaultKey} (ok : VaultKey.unlock crates passphrase' bytes = .ok key') :
    key' = key := by
  obtain ⟨kek, salt, nonce, -, rfl⟩ := h.file
  obtain ⟨salt', nonce', cipher, len, same, kek', -, decrypted⟩ := unlock_eq_ok.1 ok
  have len' : (crates.encrypt kek nonce (vaultAad salt) key.bytes).length = 48 := by
    rw [crates.length_encrypt, key.length_eq]
  obtain ⟨rfl, rfl, rfl⟩ := vaultBytes_inj len' len same
  exact FixedBytes.ext (authentic _ _ _ _ _ _ decrypted)

end File

end VaultKey

end OosLite
