import OosLite.Env

/-!
# Snapshots

A label and the entries captured under it, by reference; and their binary form.
-/

namespace OosLite

open Files

/-- `b"OOSS"`. -/
def snapshotMagic : Bytes := [79, 79, 83, 83]

structure SnapshotEntry where
  name : String
  objectId : ObjectId
  version : UInt32
  manifestId : String
  sizeBytes : UInt64
  deriving DecidableEq

structure Snapshot where
  label : String
  createdAt : UInt64
  entries : List SnapshotEntry
  deriving DecidableEq

/-- A string after its length in two bytes. -/
def prefixed (s : String) : Bytes :=
  Bytes.ofU16 (UInt16.ofNat (Text.utf8 s).length) ++ Text.utf8 s

/-- `read_exact` on a cursor. -/
def readExact (count : Nat) (bytes : Bytes) : Result (Bytes × Bytes) :=
  match Bytes.splitExact count bytes with
  | some r => .ok r
  | none => .error (.io .unexpectedEof "failed to fill whole buffer")

theorem readExact_append {as bs : Bytes} {count : Nat} (h : as.length = count) :
    readExact count (as ++ bs) = .ok (as, bs) := by
  rw [readExact, Bytes.splitExact_append h]

theorem readExact_ok {count : Nat} {bytes taken rest : Bytes}
    (h : readExact count bytes = .ok (taken, rest)) : taken.length = count := by
  unfold readExact Bytes.splitExact at h
  by_cases room : count ≤ bytes.length
  · rw [if_pos room] at h
    cases h
    rw [List.length_take, Nat.min_eq_left room]
  · rw [if_neg room] at h
    cases h

/-- A string and its length from a cursor; `what` names it in the error. -/
def readPrefixed (what : String) (bytes : Bytes) : Result (String × Bytes) := do
  let (len, bytes) ← readExact 2 bytes
  let (text, bytes) ← readExact (Bytes.toU16 len).toNat bytes
  match Text.fromUtf8 text with
  | none => throw (.internal s!"Invalid UTF-8 {what}")
  | some s => return (s, bytes)

theorem readPrefixed_prefixed (what : String) {s : String}
    (h : (Text.utf8 s).length < 2 ^ 16) (rest : Bytes) :
    readPrefixed what (prefixed s ++ rest) = .ok (s, rest) := by
  have len : (UInt16.ofNat (Text.utf8 s).length).toNat = (Text.utf8 s).length :=
    UInt16.toNat_ofNat_of_lt' h
  rw [prefixed, List.append_assoc, readPrefixed, readExact_append (by simp)]
  simp only [bind, Except.bind, Bytes.toU16_ofU16, len]
  rw [readExact_append rfl]
  simp only [Text.fromUtf8_utf8]
  rfl

theorem readPrefixed_ok {what s : String} {bytes rest : Bytes}
    (h : readPrefixed what bytes = .ok (s, rest)) : (Text.utf8 s).length < 2 ^ 16 := by
  unfold readPrefixed at h
  obtain ⟨⟨len, bytes'⟩, -, h⟩ := Result.bind_eq_ok.1 h
  obtain ⟨⟨text, bytes''⟩, taken, h⟩ := Result.bind_eq_ok.1 h
  simp only at h
  cases valid : Text.fromUtf8 text with
  | none =>
    rw [valid] at h
    cases h
  | some t =>
    rw [valid] at h
    cases h
    rw [Text.utf8_of_fromUtf8 valid, readExact_ok taken]
    exact UInt16.toNat_lt _

namespace SnapshotEntry

/-- One entry, as `Snapshot::to_bytes` writes it. -/
def toBytes (e : SnapshotEntry) : Bytes :=
  prefixed e.name ++ e.objectId.bytes ++ Bytes.ofU32 e.version ++ prefixed e.manifestId ++
    Bytes.ofU64 e.sizeBytes

/-- One entry from a cursor. -/
def read (bytes : Bytes) : Result (SnapshotEntry × Bytes) := do
  let (name, bytes) ← readPrefixed "file name" bytes
  let (oid, bytes) ← readExact 16 bytes
  let (version, bytes) ← readExact 4 bytes
  let (manifestId, bytes) ← readPrefixed "manifest ID" bytes
  let (size, bytes) ← readExact 8 bytes
  return ({ name, objectId := FixedBytes.ofBytes 16 oid, version := Bytes.toU32 version,
            manifestId, sizeBytes := Bytes.toU64 size }, bytes)

/-- The lengths the binary form has room for. -/
structure Fits (e : SnapshotEntry) : Prop where
  name : (Text.utf8 e.name).length < 2 ^ 16
  manifestId : (Text.utf8 e.manifestId).length < 2 ^ 16

theorem read_toBytes {e : SnapshotEntry} (h : e.Fits) (rest : Bytes) :
    read (e.toBytes ++ rest) = .ok (e, rest) := by
  simp only [toBytes, List.append_assoc, read]
  rw [readPrefixed_prefixed _ h.name]
  simp only [bind, Except.bind]
  rw [readExact_append e.objectId.length_eq]
  simp only
  rw [readExact_append (Bytes.length_ofU32 _)]
  simp only
  rw [readPrefixed_prefixed _ h.manifestId]
  simp only
  rw [readExact_append (Bytes.length_ofU64 _)]
  simp only [FixedBytes.ofBytes_bytes, Bytes.toU32_ofU32, Bytes.toU64_ofU64]
  rfl

theorem read_fits {e : SnapshotEntry} {bytes rest : Bytes} (h : read bytes = .ok (e, rest)) :
    e.Fits := by
  unfold read at h
  obtain ⟨⟨name, _⟩, first, h⟩ := Result.bind_eq_ok.1 h
  obtain ⟨⟨_, _⟩, -, h⟩ := Result.bind_eq_ok.1 h
  obtain ⟨⟨_, _⟩, -, h⟩ := Result.bind_eq_ok.1 h
  obtain ⟨⟨manifestId, _⟩, fourth, h⟩ := Result.bind_eq_ok.1 h
  obtain ⟨⟨_, _⟩, -, h⟩ := Result.bind_eq_ok.1 h
  cases h
  exact ⟨readPrefixed_ok first, readPrefixed_ok fourth⟩

end SnapshotEntry

namespace Snapshot

variable (env : Env)

/-- `to_bytes` up to its checksum. -/
def body (s : Snapshot) : Bytes :=
  snapshotMagic ++ Bytes.ofU64 s.createdAt ++ prefixed s.label ++
    Bytes.ofU32 (UInt32.ofNat s.entries.length) ++ s.entries.flatMap SnapshotEntry.toBytes

/-- `to_bytes`. -/
def toBytes (s : Snapshot) : Bytes := s.body ++ Bytes.ofU32 (env.crc32 s.body)

/-- The loop of `from_bytes`. -/
def readEntries : Nat → Bytes → Result (List SnapshotEntry)
  | 0, _ => .ok []
  | count + 1, bytes => do
    let (entry, bytes) ← SnapshotEntry.read bytes
    return entry :: (← readEntries count bytes)

/-- `from_bytes`. -/
def fromBytes (bytes : Bytes) : Result Snapshot := do
  if bytes.length < 4 + 8 + 2 + 4 + 4 then throw (.internal "Snapshot bytes too small")
  let dataLen := bytes.length - 4
  let storedCrc := Bytes.toU32 (bytes.drop dataLen)
  let actualCrc := env.crc32 (bytes.take dataLen)
  if storedCrc ≠ actualCrc then throw (.checksumMismatch "snapshot" storedCrc actualCrc)
  if Bytes.slice bytes 0 4 ≠ snapshotMagic then throw (.internal "Invalid snapshot magic")
  let createdAt := Bytes.toU64 (Bytes.slice bytes 4 8)
  let cursor := (bytes.take dataLen).drop 12
  let (label, cursor) ← readPrefixed "snapshot label" cursor
  let (numEntries, cursor) ← readExact 4 cursor
  let entries ← readEntries (Bytes.toU32 numEntries).toNat cursor
  return { label, createdAt, entries }

/-- The lengths the binary form has room for. -/
structure Fits (s : Snapshot) : Prop where
  label : (Text.utf8 s.label).length < 2 ^ 16
  count : s.entries.length < 2 ^ 32
  entries : ∀ e ∈ s.entries, e.Fits

theorem readEntries_flatMap {es : List SnapshotEntry} (h : ∀ e ∈ es, e.Fits) (rest : Bytes) :
    readEntries es.length (es.flatMap SnapshotEntry.toBytes ++ rest) = .ok es := by
  induction es with
  | nil => rfl
  | cons e es ih =>
    rw [List.length_cons, List.flatMap_cons, List.append_assoc, readEntries,
      SnapshotEntry.read_toBytes (h e (by simp))]
    simp only [bind, Except.bind, ih fun d hd => h d (List.mem_cons_of_mem _ hd)]
    rfl

/-- A snapshot that fits comes back from its binary form. -/
theorem fromBytes_toBytes {s : Snapshot} (h : s.Fits) :
    fromBytes env (s.toBytes env) = .ok s := by
  have count : (UInt32.ofNat s.entries.length).toNat = s.entries.length :=
    UInt32.toNat_ofNat_of_lt' h.count
  have body : s.body = snapshotMagic ++ (Bytes.ofU64 s.createdAt ++ (prefixed s.label ++
      (Bytes.ofU32 (UInt32.ofNat s.entries.length) ++
        s.entries.flatMap SnapshotEntry.toBytes))) := by
    simp [Snapshot.body, List.append_assoc]
  have bodyLength : (s.toBytes env).length - 4 = s.body.length := by
    simp [toBytes]
  have tail : (s.toBytes env).drop ((s.toBytes env).length - 4) =
      Bytes.ofU32 (env.crc32 s.body) := by
    rw [bodyLength, toBytes, List.drop_left]
  have front : (s.toBytes env).take ((s.toBytes env).length - 4) = s.body := by
    rw [bodyLength, toBytes, List.take_left]
  have f₀ : Bytes.slice (s.toBytes env) 0 4 = snapshotMagic := by
    rw [toBytes, body, List.append_assoc]; exact Bytes.slice_first rfl
  have f₁ : Bytes.slice (s.toBytes env) 4 8 = Bytes.ofU64 s.createdAt := by
    rw [toBytes, body, List.append_assoc, List.append_assoc]
    exact Bytes.slice_field rfl (by simp)
  have f₂ : s.body.drop 12 = prefixed s.label ++
      (Bytes.ofU32 (UInt32.ofNat s.entries.length) ++
        (s.entries.flatMap SnapshotEntry.toBytes ++ [])) := by
    rw [body, ← List.append_assoc, List.append_nil]
    exact Bytes.drop_field (by simp [snapshotMagic])
  have size : ¬ (s.toBytes env).length < 4 + 8 + 2 + 4 + 4 := by
    simp only [toBytes, body, prefixed, snapshotMagic, List.length_append, Bytes.length_ofU32,
      Bytes.length_ofU64, Bytes.length_ofU16, List.length_cons, List.length_nil]
    omega
  rw [fromBytes, if_neg size]
  simp only [tail, front, f₀, f₁, f₂, Bytes.toU32_ofU32, Bytes.toU64_ofU64, ne_eq,
    not_true_eq_false, if_false]
  rw [readPrefixed_prefixed _ h.label]
  simp only [bind, Except.bind]
  rw [readExact_append (Bytes.length_ofU32 _)]
  simp only [Bytes.toU32_ofU32, count, readEntries_flatMap h.entries]
  rfl

theorem readEntries_fits {count : Nat} {bytes : Bytes} {es : List SnapshotEntry}
    (h : readEntries count bytes = .ok es) : es.length = count ∧ ∀ e ∈ es, e.Fits := by
  induction count generalizing bytes es with
  | zero =>
    cases h
    exact ⟨rfl, fun e he => absurd he List.not_mem_nil⟩
  | succ count ih =>
    rw [readEntries] at h
    obtain ⟨⟨entry, bytes'⟩, first, h⟩ := Result.bind_eq_ok.1 h
    obtain ⟨later, rest, h⟩ := Result.bind_eq_ok.1 h
    cases h
    obtain ⟨size, fits⟩ := ih rest
    refine ⟨congrArg (· + 1) size, fun e he => ?_⟩
    rcases List.mem_cons.1 he with rfl | he
    · exact SnapshotEntry.read_fits first
    · exact fits e he

/-- Whatever is read fits. -/
theorem fromBytes_fits {bytes : Bytes} {s : Snapshot} (h : fromBytes env bytes = .ok s) :
    s.Fits := by
  rw [fromBytes] at h
  by_cases short : bytes.length < 4 + 8 + 2 + 4 + 4
  · rw [if_pos short] at h
    cases h
  rw [if_neg short] at h
  simp only at h
  split at h
  · cases h
  split at h
  · cases h
  obtain ⟨⟨label, cursor⟩, first, h⟩ := Result.bind_eq_ok.1 h
  obtain ⟨⟨count, cursor'⟩, -, h⟩ := Result.bind_eq_ok.1 h
  obtain ⟨es, entries, h⟩ := Result.bind_eq_ok.1 h
  cases h
  obtain ⟨size, fits⟩ := readEntries_fits entries
  refine ⟨readPrefixed_ok first, ?_, fits⟩
  show es.length < 2 ^ 32
  rw [size]
  exact UInt32.toNat_lt _

/-- Exactly the snapshots that fit come back from their binary form. -/
theorem fromBytes_toBytes_iff {s : Snapshot} : fromBytes env (s.toBytes env) = .ok s ↔ s.Fits :=
  ⟨fromBytes_fits env, fromBytes_toBytes env⟩

end Snapshot

end OosLite
