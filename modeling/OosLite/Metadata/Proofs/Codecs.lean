import OosLite.Object
import OosLite.Manifest

/-!
# The codecs of the metadata records

Records and manifests come back from their bytes, a cut record is refused, a manifest has one binary
form only, and no decoder leaves the bounds of its input.
-/

namespace OosLite

namespace ObjectRecord

/-! ## Truncated records -/

/-- What is read from the front of some bytes is what is written there. -/
theorem readVersions_eq_ok {count : Nat} {bytes : Bytes} {vs : List ObjectVersion}
    (h : readVersions count bytes = .ok vs) :
    ∃ rest, bytes = vs.flatMap ObjectVersion.toBytes ++ rest := by
  induction count generalizing bytes vs with
  | zero =>
    cases h
    exact ⟨bytes, rfl⟩
  | succ count ih =>
    rw [readVersions] at h
    by_cases short : bytes.length < 22
    · rw [if_pos short] at h
      cases h
    rw [if_neg short] at h
    simp only at h
    obtain ⟨mLen, hm⟩ : ∃ n, n = (Bytes.toU16 (Bytes.slice bytes 20 2)).toNat := ⟨_, rfl⟩
    rw [← hm] at h
    by_cases room : (bytes.drop 22).length < mLen
    · rw [if_pos room] at h
      cases h
    rw [if_neg room] at h
    cases text : Text.fromUtf8 ((bytes.drop 22).take mLen) with
    | none =>
      rw [text] at h
      cases h
    | some manifestId =>
      rw [text] at h
      obtain ⟨later, read, h⟩ := Result.bind_eq_ok.1 h
      cases h
      obtain ⟨rest, tail⟩ := ih read
      have id := Text.utf8_of_fromUtf8 text
      have size : (Text.utf8 manifestId).length = mLen := by
        rw [id, List.length_take]
        omega
      have len : Bytes.ofU16 (UInt16.ofNat (Text.utf8 manifestId).length) =
          Bytes.slice bytes 20 2 := by
        rw [size, hm, UInt16.ofNat_toNat, Bytes.ofU16_toU16 (Bytes.length_slice (by omega))]
      refine ⟨rest, ?_⟩
      simp only [List.flatMap_cons, ObjectVersion.toBytes, List.append_assoc]
      rw [len, id, ← tail, List.take_append_drop,
        Bytes.ofU32_toU32 (Bytes.length_slice (by omega)),
        Bytes.ofU64_toU64 (Bytes.length_slice (by omega)),
        Bytes.ofU64_toU64 (Bytes.length_slice (by omega)),
        ← Bytes.drop_eq_slice_append bytes 20 2, ← Bytes.drop_eq_slice_append bytes 12 8,
        ← Bytes.drop_eq_slice_append bytes 4 8, ← Bytes.drop_eq_slice_append bytes 0 4]
      rfl

/-- A record that lost its end is refused. -/
theorem fromBytes_front {r : ObjectRecord} (fits : r.Fits) {front : Bytes} (cut : front <+: r.toBytes)
    (strict : front ≠ r.toBytes) : ∃ e, fromBytes front = .error e := by
  cases read : fromBytes front with
  | error e => exact ⟨e, rfl⟩
  | ok r' =>
    obtain ⟨more, whole⟩ := cut
    rw [fromBytes] at read
    by_cases short : front.length < 24
    · rw [if_pos short] at read
      cases read
    rw [if_neg short] at read
    obtain ⟨vs, versions, -⟩ := Result.bind_eq_ok.1 read
    obtain ⟨rest, tail⟩ := readVersions_eq_ok versions
    obtain ⟨length, small⟩ := readVersions_fits versions
    -- the count is within the part that is there
    have bytes : r.toBytes = r.objectId.bytes ++ (Bytes.ofU32 r.latestVersion ++
        (Bytes.ofU32 (UInt32.ofNat r.versions.length) ++
          r.versions.flatMap ObjectVersion.toBytes)) := by
      simp [toBytes, List.append_assoc]
    have count : Bytes.slice front 20 4 = Bytes.ofU32 (UInt32.ofNat r.versions.length) := by
      have within : Bytes.slice (front ++ more) 20 4 = Bytes.slice front 20 4 :=
        Bytes.slice_append_left (by omega)
      rw [← within, whole, bytes, ← List.append_assoc]
      exact Bytes.slice_field (by simp) (by simp)
    rw [count, Bytes.toU32_ofU32, UInt32.toNat_ofNat_of_lt' fits.count] at length
    have body : r.versions.flatMap ObjectVersion.toBytes =
        vs.flatMap ObjectVersion.toBytes ++ (rest ++ more) := by
      have drop : r.toBytes.drop 24 = r.versions.flatMap ObjectVersion.toBytes := by
        rw [bytes, ← List.append_assoc, ← List.append_assoc]
        exact Bytes.drop_field (by simp)
      rw [← drop, ← whole, List.drop_append_of_le_length (by omega), tail, List.append_assoc]
    -- both lists are read from the front of the same bytes
    have same : vs = r.versions := by
      have all := readVersions_flatMap fits.manifestId []
      rw [List.append_nil, body, ← length, readVersions_flatMap small] at all
      exact Except.ok.inj all
    rw [same] at body
    have none := List.append_right_eq_self.1 body.symm
    obtain ⟨-, empty⟩ := List.append_eq_nil_iff.1 none
    rw [empty, List.append_nil] at whole
    exact absurd whole strict

/-! ## Bounds -/

theorem readVersionsChecked_eq {bytes : Bytes} (size : bytes.length < 2 ^ 63) (count : Nat)
    {offset : Nat} (within : offset ≤ bytes.length) :
    readVersionsChecked bytes count offset = Checked.ends (readVersions count (bytes.drop offset)) := by
  induction count generalizing offset with
  | zero => rfl
  | succ count ih =>
    have field (start n : Nat) : Bytes.slice bytes (offset + start) n =
        Bytes.slice (bytes.drop offset) start n := by
      rw [Bytes.slice, Bytes.slice, List.drop_drop]
    rw [readVersionsChecked, Checked.add_eq (by omega), pure_bind, readVersions, List.length_drop]
    by_cases short : bytes.length < offset + 22
    · rw [if_pos short, if_pos (by omega)]
      rfl
    rw [if_neg short, if_neg (by omega)]
    obtain ⟨mLen, hm⟩ : ∃ n, n = (Bytes.toU16 (Bytes.slice (bytes.drop offset) 20 2)).toNat :=
      ⟨_, rfl⟩
    have small : mLen < 2 ^ 16 := hm ▸ UInt16.toNat_lt _
    have first : Bytes.slice bytes offset 4 = Bytes.slice (bytes.drop offset) 0 4 := field 0 4
    simp only [Checked.field_eq (show offset + 4 ≤ bytes.length by omega) size,
      Checked.add_eq (show offset + 4 < 2 ^ 64 by omega),
      Checked.field_eq (show offset + 4 + 8 ≤ bytes.length by omega) size,
      Checked.add_eq (show offset + 12 < 2 ^ 64 by omega),
      Checked.field_eq (show offset + 12 + 8 ≤ bytes.length by omega) size,
      Checked.add_eq (show offset + 20 < 2 ^ 64 by omega),
      Checked.field_eq (show offset + 20 + 2 ≤ bytes.length by omega) size,
      pure_bind, first, field, ← hm,
      Checked.add_eq (show offset + 22 + mLen < 2 ^ 64 by omega), List.length_drop]
    by_cases room : bytes.length < offset + 22 + mLen
    · rw [if_pos room, if_pos (by omega)]
      rfl
    rw [if_neg room, if_neg (by omega), Checked.slice_eq (by omega) (Nat.le_of_not_lt room), pure_bind]
    have text : Bytes.slice bytes (offset + 22) (offset + 22 + mLen - (offset + 22)) =
        ((bytes.drop offset).drop 22).take mLen := by
      rw [Nat.add_sub_cancel_left, Bytes.slice, List.drop_drop]
    rw [text]
    cases Text.fromUtf8 (((bytes.drop offset).drop 22).take mLen) with
    | none => rfl
    | some manifestId =>
      simp only
      rw [ih (Nat.le_of_not_lt room), List.drop_drop, List.drop_drop, Nat.add_assoc]
      cases readVersions count (bytes.drop (offset + (22 + mLen))) with
      | ok vs => rfl
      | error e => rfl

theorem fromBytesChecked_eq {bytes : Bytes} (size : bytes.length < 2 ^ 63) :
    fromBytesChecked bytes = Checked.ends (fromBytes bytes) := by
  rw [fromBytesChecked, fromBytes]
  by_cases short : bytes.length < 24
  · rw [if_pos short, if_pos short]
    rfl
  have room := UInt32.toNat_lt (Bytes.toU32 (Bytes.slice bytes 20 4))
  rw [if_neg short, if_neg short]
  simp only [Checked.field_eq (show 0 + 16 ≤ bytes.length by omega) size,
    Checked.field_eq (show 16 + 4 ≤ bytes.length by omega) size,
    Checked.field_eq (show 20 + 4 ≤ bytes.length by omega) size, pure_bind]
  rw [Checked.withCapacity_eq (by omega), pure_bind, readVersionsChecked_eq size _ (by omega)]
  cases readVersions (Bytes.toU32 (Bytes.slice bytes 20 4)).toNat (bytes.drop 24) with
  | ok vs => rfl
  | error e => rfl

end ObjectRecord

namespace Manifest

variable {env : Env}

/-! ## Canonical form -/

theorem flatMap_readChunks {count : Nat} {bytes : Bytes} (there : count * 32 ≤ bytes.length) :
    (readChunks count bytes).flatMap FixedBytes.bytes = bytes.take (count * 32) := by
  induction count generalizing bytes with
  | zero => simp [readChunks]
  | succ count ih =>
    have len : (bytes.take 32).length = 32 := by
      rw [List.length_take]
      omega
    have later : count * 32 ≤ (bytes.drop 32).length := by
      rw [List.length_drop]
      omega
    rw [readChunks, List.flatMap_cons, FixedBytes.bytes_ofBytes len, ih later, Nat.succ_mul,
      Nat.add_comm (count * 32), List.take_add]

theorem length_readChunks (count : Nat) (bytes : Bytes) : (readChunks count bytes).length = count := by
  induction count generalizing bytes with
  | zero => rfl
  | succ count ih => rw [readChunks, List.length_cons, ih]

/-- What is accepted is what is written for the manifest that was read. -/
theorem toBytes_fromBytes {bytes : Bytes} {m : Manifest} (h : fromBytes env bytes = .ok m) :
    m.toBytes env = bytes := by
  rw [fromBytes] at h
  by_cases short : bytes.length < manifestHeaderSize + 4
  · rw [if_pos short] at h
    cases h
  rw [if_neg short] at h
  simp only at h
  by_cases crc : Bytes.toU32 (bytes.drop (bytes.length - 4)) ≠ env.crc32 (bytes.take (bytes.length - 4))
  · rw [if_pos crc] at h
    cases h
  rw [if_neg crc] at h
  by_cases magic : Bytes.slice bytes 0 4 ≠ manifestMagic
  · rw [if_pos magic] at h
    cases h
  rw [if_neg magic] at h
  by_cases version : Bytes.toU32 (Bytes.slice bytes 4 4) ≠ manifestVersion
  · rw [if_pos version] at h
    cases h
  rw [if_neg version] at h
  obtain ⟨count, hcount⟩ : ∃ n, n = (Bytes.toU32 (Bytes.slice bytes 56 4)).toNat := ⟨_, rfl⟩
  rw [← hcount] at h
  by_cases length : bytes.length ≠ manifestHeaderSize + count * 32 + 4
  · rw [if_pos length] at h
    cases h
  rw [if_neg length] at h
  cases h
  rw [not_not] at crc magic version length
  simp only [manifestHeaderSize] at short length
  have field (start n : Nat) (there : start + n ≤ 60) : (Bytes.slice bytes start n).length = n :=
    Bytes.length_slice (by omega)
  -- the body is everything but the checksum
  have body : body ⟨Bytes.toU64 (Bytes.slice bytes 8 8), FixedBytes.ofBytes 32 (Bytes.slice bytes 16 32),
      Bytes.toU64 (Bytes.slice bytes 48 8), readChunks count (bytes.drop 60)⟩ =
      bytes.take (bytes.length - 4) := by
    have chunks : (readChunks count (bytes.drop 60)).flatMap FixedBytes.bytes =
        (bytes.drop 60).take (bytes.length - 4 - 60) := by
      rw [flatMap_readChunks (by rw [List.length_drop]; omega)]
      congr 1
      omega
    have split := List.take_append_drop 60 (bytes.take (bytes.length - 4))
    rw [List.take_take, Nat.min_eq_left (by omega), List.drop_take] at split
    rw [Manifest.body, chunks, length_readChunks, hcount, UInt32.ofNat_toNat, ← split]
    simp only [List.append_assoc]
    rw [← magic, ← version, Bytes.ofU32_toU32 (field 4 4 (by omega)),
      Bytes.ofU64_toU64 (field 8 8 (by omega)), FixedBytes.bytes_ofBytes (field 16 32 (by omega)),
      Bytes.ofU64_toU64 (field 48 8 (by omega)), Bytes.ofU32_toU32 (field 56 4 (by omega))]
    simp only [← List.append_assoc]
    congr 1
    simp only [Bytes.slice, List.drop_zero, ← List.take_add]
  have stored : (bytes.drop (bytes.length - 4)).length = 4 := by
    rw [List.length_drop]
    omega
  rw [toBytes, body, ← crc, Bytes.ofU32_toU32 stored, List.take_append_drop]

theorem slice_contentHash (m : Manifest) :
    Bytes.slice (m.toBytes env) 16 32 = m.contentHash.bytes := by
  have bytes : m.toBytes env = manifestMagic ++ Bytes.ofU32 manifestVersion ++ Bytes.ofU64 m.totalSize ++
      (m.contentHash.bytes ++ (Bytes.ofU64 m.createdAt ++
        Bytes.ofU32 (UInt32.ofNat m.chunks.length) ++ m.chunks.flatMap FixedBytes.bytes ++
          Bytes.ofU32 (env.crc32 m.body))) := by
    simp [toBytes, body, List.append_assoc]
  rw [bytes]
  exact Bytes.slice_field (by simp [manifestMagic]) (by simp)

/-- Whatever manifest is read back, it is of the same content. -/
theorem contentHash_of_fromBytes {m m' : Manifest} (h : fromBytes env (m.toBytes env) = .ok m') :
    m'.contentHash = m.contentHash := by
  have same := congrArg (fun bytes => Bytes.slice bytes 16 32) (toBytes_fromBytes h)
  simp only [slice_contentHash] at same
  exact FixedBytes.ext same

/-! ## Bounds -/

theorem readChunksChecked_eq {bytes : Bytes} (size : bytes.length < 2 ^ 63) {count offset : Nat}
    (within : offset + count * 32 ≤ bytes.length) :
    readChunksChecked bytes count offset = pure (readChunks count (bytes.drop offset)) := by
  induction count generalizing offset with
  | zero => rfl
  | succ count ih =>
    rw [readChunksChecked, Checked.field_eq (by omega) size, pure_bind, Checked.add_eq (by omega),
      pure_bind, ih (by omega), pure_bind, readChunks, List.drop_drop]
    rfl

theorem fromBytesChecked_eq {bytes : Bytes} (size : bytes.length < 2 ^ 63) :
    fromBytesChecked env bytes = Checked.ends (fromBytes env bytes) := by
  rw [fromBytesChecked, fromBytes]
  by_cases short : bytes.length < manifestHeaderSize + 4
  · rw [if_pos short, if_pos short]
    rfl
  have header : manifestHeaderSize = 60 := rfl
  have long : 64 ≤ bytes.length := Nat.le_of_not_lt short
  have count := UInt32.toNat_lt (Bytes.toU32 (Bytes.slice bytes 56 4))
  have tail : Bytes.slice bytes (bytes.length - 4) (bytes.length - (bytes.length - 4)) =
      bytes.drop (bytes.length - 4) := by
    rw [Bytes.slice, List.take_of_length_le]
    rw [List.length_drop]
  have front : Bytes.slice bytes 0 (bytes.length - 4 - 0) = bytes.take (bytes.length - 4) := rfl
  have stored : (bytes.drop (bytes.length - 4)).length = 4 := by
    rw [List.length_drop]
    omega
  rw [if_neg short, if_neg short]
  simp only [Checked.sub_eq (show 4 ≤ bytes.length by omega), tail, Checked.array_eq stored,
    Checked.slice_eq (Nat.sub_le bytes.length 4) (Nat.le_refl bytes.length), Checked.slice_eq (Nat.zero_le (bytes.length - 4)) (Nat.sub_le bytes.length 4), pure_bind,
    front]
  by_cases crc : Bytes.toU32 (bytes.drop (bytes.length - 4)) ≠ env.crc32 (bytes.take (bytes.length - 4))
  · rw [if_pos crc, if_pos crc]
    rfl
  rw [if_neg crc, if_neg crc]
  simp only [Checked.slice_eq (Nat.zero_le 4) (show 4 ≤ bytes.length by omega), pure_bind]
  by_cases magic : Bytes.slice bytes 0 4 ≠ manifestMagic
  · rw [if_pos magic, if_pos magic]
    rfl
  rw [if_neg magic, if_neg magic]
  simp only [Checked.field_eq (show 4 + 4 ≤ bytes.length by omega) size, pure_bind]
  by_cases version : Bytes.toU32 (Bytes.slice bytes 4 4) ≠ manifestVersion
  · simp only [if_pos version]
    rfl
  simp only [if_neg version, pure_bind,
    Checked.field_eq (show 8 + 8 ≤ bytes.length by omega) size,
    Checked.field_eq (show 16 + 32 ≤ bytes.length by omega) size,
    Checked.field_eq (show 48 + 8 ≤ bytes.length by omega) size,
    Checked.field_eq (show 56 + 4 ≤ bytes.length by omega) size]
  obtain ⟨n, hn⟩ : ∃ n, n = (Bytes.toU32 (Bytes.slice bytes 56 4)).toNat := ⟨_, rfl⟩
  rw [← hn] at count ⊢
  rw [Checked.mul_eq (by omega), pure_bind, Checked.add_eq (by omega), pure_bind,
    Checked.add_eq (by omega), pure_bind]
  by_cases length : bytes.length ≠ manifestHeaderSize + n * 32 + 4
  · rw [if_pos length, if_pos length]
    rfl
  rw [if_neg length, if_neg length]
  rw [Checked.withCapacity_eq (by omega), pure_bind,
    readChunksChecked_eq size (by omega), pure_bind]
  rfl

end Manifest

/-- Records and manifests come back from their bytes, every cut record is refused, only what is
written for a manifest is read as one, and whatever the bytes are, no decoder panics. -/
theorem metadata_codecs_exact (env : Env) :
    (∀ r : ObjectRecord, r.versions.length < 2 ^ 32 →
      (∀ v ∈ r.versions, (Text.utf8 v.manifestId).length ≤ 65535) →
      ObjectRecord.fromBytes r.toBytes = .ok r ∧
      ∀ front, front <+: r.toBytes → front ≠ r.toBytes →
        ∃ e, ObjectRecord.fromBytes front = .error e) ∧
    (∀ m : Manifest, m.chunks.length < 2 ^ 32 → Manifest.fromBytes env (m.toBytes env) = .ok m) ∧
    (∀ bytes m, Manifest.fromBytes env bytes = .ok m → m.toBytes env = bytes) ∧
    ∀ bytes : Bytes, bytes.length < 2 ^ 63 →
      ObjectRecord.fromBytesChecked bytes = Checked.ends (ObjectRecord.fromBytes bytes) ∧
      Manifest.fromBytesChecked env bytes = Checked.ends (Manifest.fromBytes env bytes) := by
  refine ⟨fun r count ids => ?_, fun m count => Manifest.fromBytes_toBytes env count,
    fun _ _ read => Manifest.toBytes_fromBytes read, fun _ size =>
      ⟨ObjectRecord.fromBytesChecked_eq size, Manifest.fromBytesChecked_eq size⟩⟩
  have fits : r.Fits := ⟨count, fun v hv => Nat.lt_succ_of_le (ids v hv)⟩
  exact ⟨ObjectRecord.fromBytes_toBytes fits, fun _ => ObjectRecord.fromBytes_front fits⟩

end OosLite
