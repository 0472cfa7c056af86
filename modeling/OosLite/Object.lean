import OosLite.Env
import OosLite.Lib.Checked

/-!
# Objects and their versions

The record an object has in the metadata store, and its binary form.
-/

namespace OosLite

structure ObjectVersion where
  version : UInt32
  manifestId : String
  createdAt : UInt64
  sizeBytes : UInt64
  deriving DecidableEq

structure ObjectRecord where
  objectId : ObjectId
  latestVersion : UInt32
  versions : List ObjectVersion
  deriving DecidableEq

namespace ObjectVersion

/-- One version, as `ObjectRecord::to_bytes` writes it. -/
def toBytes (v : ObjectVersion) : Bytes :=
  Bytes.ofU32 v.version ++ Bytes.ofU64 v.createdAt ++ Bytes.ofU64 v.sizeBytes ++
    Bytes.ofU16 (UInt16.ofNat (Text.utf8 v.manifestId).length) ++ Text.utf8 v.manifestId

end ObjectVersion

namespace ObjectRecord

/-- `latest`. -/
def latest (r : ObjectRecord) : Option ObjectVersion := r.versions.getLast?

/-- `latest_manifest_id`. -/
def latestManifestId (r : ObjectRecord) : String := (r.latest.map ObjectVersion.manifestId).getD ""

/-- `to_bytes`. -/
def toBytes (r : ObjectRecord) : Bytes :=
  r.objectId.bytes ++ Bytes.ofU32 r.latestVersion ++
    Bytes.ofU32 (UInt32.ofNat r.versions.length) ++ r.versions.flatMap ObjectVersion.toBytes

/-- The loop of `from_bytes`: so many versions from the front of the bytes. -/
def readVersions : Nat → Bytes → Result (List ObjectVersion)
  | 0, _ => .ok []
  | count + 1, bytes => do
    if bytes.length < 22 then throw (.internal "Malformed ObjectRecord bytes")
    let version := Bytes.toU32 (Bytes.slice bytes 0 4)
    let createdAt := Bytes.toU64 (Bytes.slice bytes 4 8)
    let sizeBytes := Bytes.toU64 (Bytes.slice bytes 12 8)
    let mLen := (Bytes.toU16 (Bytes.slice bytes 20 2)).toNat
    let bytes := bytes.drop 22
    if bytes.length < mLen then throw (.internal "Malformed ObjectRecord manifest string")
    match Text.fromUtf8 (bytes.take mLen) with
    | none => throw (.internal "Invalid UTF-8 in manifest_id")
    | some manifestId =>
      let versions ← readVersions count (bytes.drop mLen)
      return { version, manifestId, createdAt, sizeBytes } :: versions

/-- `from_bytes`. -/
def fromBytes (bytes : Bytes) : Result ObjectRecord := do
  if bytes.length < 24 then throw (.internal "ObjectRecord bytes too small")
  let objectId := FixedBytes.ofBytes 16 (Bytes.slice bytes 0 16)
  let latestVersion := Bytes.toU32 (Bytes.slice bytes 16 4)
  let numVersions := (Bytes.toU32 (Bytes.slice bytes 20 4)).toNat
  let versions ← readVersions numVersions (bytes.drop 24)
  return { objectId, latestVersion, versions }

/-- The loop of `from_bytes` with its offsets, where an access out of bounds is a panic. -/
def readVersionsChecked (bytes : Bytes) : Nat → Nat → Checked OosLiteError (List ObjectVersion)
  | 0, _ => pure []
  | count + 1, offset => do
    if bytes.length < (← Checked.add offset 22) then
      throw (.internal "Malformed ObjectRecord bytes")
    let version ← Checked.field bytes offset 4
    let createdAt ← Checked.field bytes (← Checked.add offset 4) 8
    let sizeBytes ← Checked.field bytes (← Checked.add offset 12) 8
    let mLen ← Checked.field bytes (← Checked.add offset 20) 2
    let mLen := (Bytes.toU16 mLen).toNat
    let offset ← Checked.add offset 22
    if bytes.length < (← Checked.add offset mLen) then
      throw (.internal "Malformed ObjectRecord manifest string")
    match Text.fromUtf8 (← Checked.slice bytes offset (← Checked.add offset mLen)) with
    | none => throw (.internal "Invalid UTF-8 in manifest_id")
    | some manifestId =>
      let versions ← readVersionsChecked bytes count (← Checked.add offset mLen)
      return { version := Bytes.toU32 version, manifestId, createdAt := Bytes.toU64 createdAt
               sizeBytes := Bytes.toU64 sizeBytes } :: versions

/-- `from_bytes` with its offsets. An `ObjectVersion` takes 48 bytes. -/
def fromBytesChecked (bytes : Bytes) : Checked OosLiteError ObjectRecord := do
  if bytes.length < 24 then throw (.internal "ObjectRecord bytes too small")
  let objectId ← Checked.field bytes 0 16
  let latestVersion ← Checked.field bytes 16 4
  let numVersions ← Checked.field bytes 20 4
  let numVersions := (Bytes.toU32 numVersions).toNat
  Checked.withCapacity numVersions 48
  let versions ← readVersionsChecked bytes numVersions 24
  return { objectId := FixedBytes.ofBytes 16 objectId, latestVersion := Bytes.toU32 latestVersion
           versions }

/-- The lengths the binary form has room for. -/
structure Fits (r : ObjectRecord) : Prop where
  count : r.versions.length < 2 ^ 32
  manifestId : ∀ v ∈ r.versions, (Text.utf8 v.manifestId).length < 2 ^ 16

theorem readVersions_flatMap {vs : List ObjectVersion}
    (h : ∀ v ∈ vs, (Text.utf8 v.manifestId).length < 2 ^ 16) (rest : Bytes) :
    readVersions vs.length (vs.flatMap ObjectVersion.toBytes ++ rest) = .ok vs := by
  induction vs with
  | nil => rfl
  | cons v vs ih =>
    have len : (UInt16.ofNat (Text.utf8 v.manifestId).length).toNat =
        (Text.utf8 v.manifestId).length := UInt16.toNat_ofNat_of_lt' (h v (by simp))
    obtain ⟨tail, htail⟩ : ∃ tail, tail = vs.flatMap ObjectVersion.toBytes ++ rest := ⟨_, rfl⟩
    have bytes : (v :: vs).flatMap ObjectVersion.toBytes ++ rest =
        Bytes.ofU32 v.version ++ (Bytes.ofU64 v.createdAt ++ (Bytes.ofU64 v.sizeBytes ++
          (Bytes.ofU16 (UInt16.ofNat (Text.utf8 v.manifestId).length) ++
            (Text.utf8 v.manifestId ++ tail)))) := by
      simp [ObjectVersion.toBytes, htail, List.append_assoc]
    have f₀ : Bytes.slice ((v :: vs).flatMap ObjectVersion.toBytes ++ rest) 0 4 =
        Bytes.ofU32 v.version := by
      rw [bytes]; exact Bytes.slice_first (by simp)
    have f₁ : Bytes.slice ((v :: vs).flatMap ObjectVersion.toBytes ++ rest) 4 8 =
        Bytes.ofU64 v.createdAt := by
      rw [bytes]; exact Bytes.slice_field (by simp) (by simp)
    have f₂ : Bytes.slice ((v :: vs).flatMap ObjectVersion.toBytes ++ rest) 12 8 =
        Bytes.ofU64 v.sizeBytes := by
      rw [bytes, ← List.append_assoc]; exact Bytes.slice_field (by simp) (by simp)
    have f₃ : Bytes.slice ((v :: vs).flatMap ObjectVersion.toBytes ++ rest) 20 2 =
        Bytes.ofU16 (UInt16.ofNat (Text.utf8 v.manifestId).length) := by
      rw [bytes, ← List.append_assoc, ← List.append_assoc]
      exact Bytes.slice_field (by simp) (by simp)
    have f₄ : ((v :: vs).flatMap ObjectVersion.toBytes ++ rest).drop 22 =
        Text.utf8 v.manifestId ++ tail := by
      rw [bytes, ← List.append_assoc, ← List.append_assoc, ← List.append_assoc]
      exact Bytes.drop_field (by simp)
    have size : ¬ ((v :: vs).flatMap ObjectVersion.toBytes ++ rest).length < 22 := by
      simp only [bytes, List.length_append, Bytes.length_ofU32, Bytes.length_ofU64,
        Bytes.length_ofU16]
      omega
    have ihv := ih fun u hu => h u (List.mem_cons_of_mem _ hu)
    rw [← htail] at ihv
    rw [List.length_cons, readVersions, if_neg size]
    simp only [f₀, f₁, f₂, f₃, f₄, Bytes.toU32_ofU32, Bytes.toU64_ofU64, Bytes.toU16_ofU16, len,
      List.take_left, List.drop_left, Text.fromUtf8_utf8, ihv]
    rw [if_neg (by simp)]
    rfl

/-- A record that fits is read from the front of some bytes. -/
theorem fromBytes_toBytes_append {r : ObjectRecord} (h : r.Fits) (rest : Bytes) :
    fromBytes (r.toBytes ++ rest) = .ok r := by
  have count : (UInt32.ofNat r.versions.length).toNat = r.versions.length :=
    UInt32.toNat_ofNat_of_lt' h.count
  have bytes : r.toBytes ++ rest = r.objectId.bytes ++ (Bytes.ofU32 r.latestVersion ++
      (Bytes.ofU32 (UInt32.ofNat r.versions.length) ++
        (r.versions.flatMap ObjectVersion.toBytes ++ rest))) := by
    simp [toBytes, List.append_assoc]
  have f₀ : Bytes.slice (r.toBytes ++ rest) 0 16 = r.objectId.bytes := by
    rw [bytes]; exact Bytes.slice_first (by simp)
  have f₁ : Bytes.slice (r.toBytes ++ rest) 16 4 = Bytes.ofU32 r.latestVersion := by
    rw [bytes]; exact Bytes.slice_field (by simp) (by simp)
  have f₂ : Bytes.slice (r.toBytes ++ rest) 20 4 =
      Bytes.ofU32 (UInt32.ofNat r.versions.length) := by
    rw [bytes, ← List.append_assoc]; exact Bytes.slice_field (by simp) (by simp)
  have f₃ : (r.toBytes ++ rest).drop 24 = r.versions.flatMap ObjectVersion.toBytes ++ rest := by
    rw [bytes, ← List.append_assoc, ← List.append_assoc]; exact Bytes.drop_field (by simp)
  have size : ¬ (r.toBytes ++ rest).length < 24 := by
    simp only [bytes, List.length_append, Bytes.length_ofU32, FixedBytes.length_eq]
    omega
  have versions := readVersions_flatMap h.manifestId rest
  rw [fromBytes, if_neg size]
  simp only [f₀, f₁, f₂, f₃, FixedBytes.ofBytes_bytes, Bytes.toU32_ofU32, count, versions]
  rfl

/-- A record that fits comes back from its binary form. -/
theorem fromBytes_toBytes {r : ObjectRecord} (h : r.Fits) : fromBytes r.toBytes = .ok r := by
  have whole := fromBytes_toBytes_append h []
  rwa [List.append_nil] at whole

theorem readVersions_fits {count : Nat} {bytes : Bytes} {vs : List ObjectVersion}
    (h : readVersions count bytes = .ok vs) :
    vs.length = count ∧ ∀ v ∈ vs, (Text.utf8 v.manifestId).length < 2 ^ 16 := by
  induction count generalizing bytes vs with
  | zero =>
    cases h
    exact ⟨rfl, fun v hv => absurd hv List.not_mem_nil⟩
  | succ count ih =>
    rw [readVersions] at h
    by_cases short : bytes.length < 22
    · rw [if_pos short] at h
      cases h
    rw [if_neg short] at h
    simp only at h
    obtain ⟨mLen, hm⟩ : ∃ n, n = (Bytes.toU16 (Bytes.slice bytes 20 2)).toNat := ⟨_, rfl⟩
    have bound : mLen < 2 ^ 16 := by
      rw [hm]
      exact UInt16.toNat_lt _
    rw [← hm] at h
    by_cases room : (bytes.drop 22).length < mLen
    · rw [if_pos room] at h
      cases h
    rw [if_neg room] at h
    cases text : Text.fromUtf8 ((bytes.drop 22).take mLen) with
    | none =>
      rw [text] at h
      cases h
    | some manifestId =>
      rw [text] at h
      obtain ⟨later, rest, h⟩ := Result.bind_eq_ok.1 h
      cases h
      obtain ⟨size, fits⟩ := ih rest
      refine ⟨congrArg (· + 1) size, fun v hv => ?_⟩
      rcases List.mem_cons.1 hv with rfl | hv
      · show (Text.utf8 manifestId).length < 2 ^ 16
        rw [Text.utf8_of_fromUtf8 text, List.length_take]
        omega
      · exact fits v hv

/-- Whatever is read fits. -/
theorem fromBytes_fits {bytes : Bytes} {r : ObjectRecord} (h : fromBytes bytes = .ok r) :
    r.Fits := by
  rw [fromBytes] at h
  by_cases short : bytes.length < 24
  · rw [if_pos short] at h
    cases h
  rw [if_neg short] at h
  obtain ⟨vs, versions, h⟩ := Result.bind_eq_ok.1 h
  cases h
  obtain ⟨size, fits⟩ := readVersions_fits versions
  refine ⟨?_, fits⟩
  show vs.length < 2 ^ 32
  rw [size]
  exact UInt32.toNat_lt _

end ObjectRecord

end OosLite
