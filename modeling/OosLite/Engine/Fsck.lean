import OosLite.Engine.Operations

/-!
# The checker

`FsckRunner::check`: what it finds out about the segment files, the manifests, the objects and the
snapshots of a store.
-/

namespace OosLite

open Files Effect

/-- `FsckReport`. -/
structure FsckReport where
  objectsChecked : Nat := 0
  manifestsChecked : Nat := 0
  chunksChecked : Nat := 0
  segmentsChecked : Nat := 0
  corruptedChunks : Nat := 0
  missingChunks : Nat := 0
  isHealthy : Bool := false
  errors : List String := []

namespace FsckReport

/-- An error. -/
def error (r : FsckReport) (message : String) : FsckReport :=
  { r with errors := r.errors ++ [message] }

/-- A chunk that is corrupted. -/
def corrupted (r : FsckReport) (message : String) : FsckReport :=
  { r with corruptedChunks := r.corruptedChunks + 1, errors := r.errors ++ [message] }

/-- A chunk that is missing. -/
def missing (r : FsckReport) (message : String) : FsckReport :=
  { r with missingChunks := r.missingChunks + 1, errors := r.errors ++ [message] }

/-- The end of `check`. -/
def finish (r : FsckReport) : FsckReport :=
  { r with isHealthy := r.corruptedChunks = 0 && r.missingChunks = 0 && r.errors.isEmpty }

end FsckReport

/-- `segment_file_name`. -/
def segmentFileName (id : Nat) : String :=
  let digits := toString id
  "segment_" ++ String.ofList (List.replicate (8 - digits.length) '0') ++ digits ++ ".seg"

namespace FsckRunner

variable (env : Env)

/-! ## Segment files -/

/-- The chunk of a record: the data, or why there are none. -/
def recordData (file : String) (offset : Nat) (header : RecordHeader) (payload : Bytes) :
    Except String Bytes := do
  let subject := "Segment file " ++ file ++ " chunk " ++ header.chunkId.toHex
  let decrypted ← match header.encryptionScheme with
    | .none => .ok payload
    | .xChaCha20Poly1305 => match env.vaultKey with
      | some vk => (vk.decryptChunk env payload header.nonce header.aad).mapError fun e =>
          subject ++ " failed decryption/authentication: " ++ e.display
      | none => .error (subject ++ " is encrypted but no vault key provided")
  match header.compressionCodec with
  | .none => .ok decrypted
  | .zstd => match env.zstdDecode decrypted with
    | some raw => .ok raw
    | none => .error ("Segment file " ++ file ++ " failed to decompress zstd chunk " ++
        header.chunkId.toHex ++ " at offset " ++ toString offset)

/-- A record whose payload is there. -/
def checkRecord (file : String) (offset : Nat) (header : RecordHeader) (payload : Bytes)
    (report : FsckReport) : FsckReport :=
  let report := { report with chunksChecked := report.chunksChecked + 1 }
  let actualCrc := env.crc32 payload
  let report :=
    if actualCrc ≠ header.payloadCrc then
      report.corrupted ("Segment file " ++ file ++ " chunk " ++ header.chunkId.toHex ++
        " at offset " ++ toString offset ++ " has CRC32C mismatch: expected " ++
        hex8 header.payloadCrc ++ ", actual " ++ hex8 actualCrc)
    else report
  match recordData env file offset header payload with
  | .ok rawData =>
    let actualId := ChunkId.fromData env rawData
    if actualId ≠ header.chunkId then
      report.corrupted ("Segment file " ++ file ++ " at offset " ++ toString offset ++
        " chunk ID mismatch: expected " ++ header.chunkId.toHex ++ ", actual " ++ actualId.toHex)
    else report
  | .error message => report.corrupted message

/-- The loop over the records of a file, so many times at most. -/
def checkRecords (file : String) (content : Bytes) : Nat → Nat → FsckReport → FsckReport
  | 0, _, report => report
  | fuel + 1, offset, report =>
    if ¬ offset < content.length then report
    else if offset + recordHeaderSizeV2 > content.length then
      report.corrupted ("Segment file " ++ file ++ " truncated record header at offset " ++
        toString offset)
    else
      match RecordHeader.readFrom env (content.drop offset) with
      | .ok (some header) =>
        let payloadLen := header.payloadLen.toNat
        if offset + header.headerSize + payloadLen > content.length then
          report.corrupted ("Segment file " ++ file ++ " payload exceeds EOF at offset " ++
            toString offset)
        else
          let payload := Bytes.slice content (offset + header.headerSize) payloadLen
          checkRecords file content fuel (offset + (header.headerSize + payloadLen))
            (checkRecord env file offset header payload report)
      | .ok none => report
      | .error e => report.corrupted ("Segment file " ++ file ++
          " corrupted record header at offset " ++ toString offset ++ ": " ++ e.display)

/-- `check_segment_file`. Every record has a header, so the loop ends before the length of the file
is used up. -/
def checkSegmentFile (file : String) (content : Bytes) (report : FsckReport) : FsckReport :=
  if content.length < segmentHeaderSize then
    report.error ("Segment file " ++ file ++ " size (" ++ toString content.length ++
      " bytes) is less than segment header size")
  else
    match SegmentHeader.readFrom content with
    | .error e => report.error ("Segment file " ++ file ++ " has invalid segment header: " ++
        e.display)
    | .ok _ => checkRecords env file content content.length segmentHeaderSize report

/-- The segment files, in the order of their names. -/
def checkSegments (report : FsckReport) : SegProg FsckReport := do
  let ids ← SegmentStore.listIds SegPath.isActive
  let ids := ids.mergeSort fun a b => segmentFileName a ≤ segmentFileName b
  Prog.forEach (fun report id => do
    let content ← Proc.read (.active id)
    return checkSegmentFile env (segmentFileName id) content
      { report with segmentsChecked := report.segmentsChecked + 1 }) report ids

/-! ## References -/

/-- A chunk that a manifest names. -/
def checkChunk (manifestId : String) (report : FsckReport) (id : ChunkId) : SegProg FsckReport := do
  let there ← SegmentStore.hasChunk id
  if ¬ there then
    return report.missing ("Manifest " ++ manifestId ++ " references missing chunk " ++ id.toHex)
  else
    match ← (SegmentStore.getChunk env id).result with
    | .ok data =>
      let actualId := ChunkId.fromData env data
      if actualId ≠ id then
        return report.corrupted ("Chunk " ++ id.toHex ++
          " read from SegmentStore failed BLAKE3 verification (actual " ++ actualId.toHex ++ ")")
      else return report
    | .error e =>
      return report.corrupted ("Failed to read chunk " ++ id.toHex ++ " referenced by manifest " ++
        manifestId ++ ": " ++ e.display)

open StorageEngine

/-- A manifest of the table. -/
def checkManifest (report : FsckReport) (manifestId : String) : EngineProg FsckReport := do
  let report := { report with manifestsChecked := report.manifestsChecked + 1 }
  match ← query fun m => m.getManifest env manifestId with
  | some manifest =>
    Prog.forEach (fun report id => segments (checkChunk env manifestId report id)) report
      manifest.chunks
  | none =>
    return report.error ("Manifest " ++ manifestId ++ " listed in index could not be retrieved")

/-- A manifest that something refers to. -/
def checkReference (report : FsckReport) (manifestId message : String) : EngineProg FsckReport := do
  let found ← query fun m => m.getManifest env manifestId
  return if found.isNone then report.error message else report

/-- A record of the table of objects. -/
def checkObject (report : FsckReport) (value : Bytes) : EngineProg FsckReport := do
  let record ← Prog.ofExcept (ObjectRecord.fromBytes value)
  let report := { report with objectsChecked := report.objectsChecked + 1 }
  Prog.forEach (fun report v => checkReference env report v.manifestId
    ("Object " ++ record.objectId.toHex ++ " version #" ++ toString v.version ++
      " references missing manifest " ++ v.manifestId)) report record.versions

/-- A snapshot. -/
def checkSnapshot (report : FsckReport) (snapshot : Snapshot) : EngineProg FsckReport :=
  Prog.forEach (fun report entry => checkReference env report entry.manifestId
    ("Snapshot '" ++ snapshot.label ++ "' entry '" ++ entry.name ++
      "' references missing manifest " ++ entry.manifestId)) report snapshot.entries

end FsckRunner

open StorageEngine FsckRunner in
/-- `fsck`: `FsckRunner::check`. -/
def StorageEngine.fsck (env : Env) : EngineProg FsckReport := do
  let report ← segments (checkSegments env {})
  let manifestIds ← query fun m => .ok m.listAllManifestIds
  let report ← Prog.forEach (checkManifest env) report manifestIds
  let m ← tables
  let report ← Prog.forEach (checkObject env) report (m.objects.toList.map Prod.snd)
  let snapshots ← query fun m => m.listSnapshots env
  let report ← Prog.forEach (checkSnapshot env) report snapshots
  return report.finish

end OosLite
