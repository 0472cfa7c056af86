import OosLite.Segment.Format
import OosLite.Lib.Process

/-!
# The segment store

`SegmentWriter`, `SegmentReader` and `SegmentStore`, on the files of the segments directory.
-/

namespace OosLite

open Files Effect

/-- The files of the segments directory: `segment_*.seg`, `segment_*.seg.old`, the segments in
the directory of a compaction under way, and `.compact_done`. -/
inductive SegPath where
  | active (id : Nat)
  | old (id : Nat)
  | staging (dir id : Nat)
  | marker
  deriving DecidableEq

namespace SegPath

/-- Numbers that tell the paths apart. -/
def key : SegPath → List Nat
  | active id => [0, id]
  | old id => [1, id]
  | staging dir id => [2, dir, id]
  | marker => [3]

theorem key_inj : ∀ {p q : SegPath}, p.key = q.key → p = q := by
  rintro (_ | _ | _ | _) (_ | _ | _ | _) h <;> simp_all [key]

instance : Ord SegPath := ⟨fun p q => compare p.key q.key⟩

theorem compare_def (p q : SegPath) : compare p q = compare p.key q.key := rfl

instance : Std.TransOrd SegPath where
  eq_swap {p q} := Std.OrientedOrd.eq_swap (a := p.key) (b := q.key)
  isLE_trans {p q r} h h' := Std.TransOrd.isLE_trans (a := p.key) (b := q.key) (c := r.key) h h'

instance : Std.LawfulEqOrd SegPath where
  compare_self {p} := Std.ReflOrd.compare_self (a := p.key)
  eq_of_compare {p q} h := key_inj (Std.LawfulEqOrd.eq_of_compare (a := p.key) (b := q.key) h)

def isActive : SegPath → Bool
  | active _ => true
  | _ => false

def isOld : SegPath → Bool
  | old _ => true
  | _ => false

def isStaging : SegPath → Bool
  | staging .. => true
  | _ => false

/-- The files of one staging directory. -/
def isStagedIn (dir : Nat) : SegPath → Bool
  | staging d _ => d = dir
  | _ => false

/-- The number in a file name. -/
def id : SegPath → Nat
  | active id | old id | staging _ id => id
  | marker => 0

end SegPath

abbrev SegmentIndex := Std.ExtTreeMap ChunkId ChunkLocation

/-- What the store asks the system for; `entries` is the order of the index's hash table, and
`accepts` how many of so many bytes a file takes before a write fails. -/
inductive SegQuestion where
  | now
  | nonce
  | stagingDir
  | entries (index : List (ChunkId × ChunkLocation))
  | accepts (count : Nat)

@[reducible] def SegQuestion.Ans : SegQuestion → Type
  | .now => UInt64
  | .nonce => Nonce
  | .stagingDir => Nat
  | .entries _ => List (ChunkId × ChunkLocation)
  | .accepts _ => Nat

/-- The possible answers: of a hash table, its entries in any order; a write takes all its bytes, or
some of them if writes may fail. -/
def SegQuestion.Allowed (fails : Prop) : ∀ q : SegQuestion, q.Ans → Prop
  | .entries index, answer => answer.Perm index
  | .accepts count, answer => answer = count ∨ fails ∧ answer < count
  | .now, _ | .nonce, _ | .stagingDir, _ => True

/-- `SegmentWriter`; it writes to the segments directory or to a staging directory. The bytes its
`BufWriter` has not written yet are in `buffer`. -/
structure SegmentWriter where
  staging : Option Nat
  currentSegmentId : Nat
  isOpen : Bool
  buffer : Bytes
  currentOffset : Nat
  maxSegmentSize : Nat
  deriving DecidableEq

/-- `segment_file_name` in the segments directory or in a staging directory. -/
def SegPath.segment : (staging : Option Nat) → (id : Nat) → SegPath
  | none, id => .active id
  | some dir, id => .staging dir id

/-- The file a writer appends to. -/
def SegmentWriter.path (w : SegmentWriter) : SegPath := .segment w.staging w.currentSegmentId

/-- The store's own writer and index, or those a compaction builds. -/
inductive Side where
  | own
  | new
  deriving DecidableEq

/-- `SegmentStore`, with the writer and the index of a compaction. -/
structure SegmentStore where
  writer : Side → SegmentWriter
  index : Side → SegmentIndex

namespace SegmentStore

def setWriter (store : SegmentStore) (side : Side) (w : SegmentWriter) : SegmentStore :=
  { store with writer := Function.update store.writer side w }

def setIndex (store : SegmentStore) (side : Side) (index : SegmentIndex) : SegmentStore :=
  { store with index := Function.update store.index side index }

section Lemmas

variable (store : SegmentStore) (side : Side) (w : SegmentWriter) (ix : SegmentIndex)

@[simp] theorem setWriter_index : (store.setWriter side w).index = store.index := rfl
@[simp] theorem setIndex_writer : (store.setIndex side ix).writer = store.writer := rfl
@[simp] theorem setWriter_writer (side' : Side) : (store.setWriter side w).writer side' =
    if side' = side then w else store.writer side' := Function.update_apply ..
@[simp] theorem setWriter_setWriter (w' : SegmentWriter) :
    (store.setWriter side w).setWriter side w' = store.setWriter side w' := by
  simp [setWriter]
@[simp] theorem setWriter_self : store.setWriter side (store.writer side) = store := by
  simp [setWriter]
@[simp] theorem setIndex_index (side' : Side) : (store.setIndex side ix).index side' =
    if side' = side then ix else store.index side' := Function.update_apply ..

end Lemmas

end SegmentStore

abbrev SegProg (α : Type) :=
  ProcProg SegPath SegmentStore SegQuestion SegQuestion.Ans OosLiteError α

abbrev SegState := Proc SegPath SegmentStore

/-- The machine of the segment store, with the file operations that may fail, and whether buffered
writes may. -/
abbrev segMachine (faulty : FsOp SegPath → Prop) (fails : Prop := False) :
    Machine (ProcOp SegPath SegmentStore SegQuestion) (ProcOp.Res SegQuestion.Ans) OosLiteError
      SegState :=
  Proc.machine SegQuestion.Ans OosLiteError.ofIo faulty (SegQuestion.Allowed fails)

theorem total_segMachine {fails : Prop} (faulty : FsOp SegPath → Prop) :
    (segMachine faulty fails).Total :=
  Proc.machine_total _ _ _ _ fun q => by
    cases q with
    | now => exact ⟨0, trivial⟩
    | nonce => exact ⟨FixedBytes.ofBytes 24 [], trivial⟩
    | stagingDir => exact ⟨(0 : Nat), trivial⟩
    | entries index => exact ⟨index, List.Perm.refl _⟩
    | accepts count => exact ⟨count, .inl rfl⟩

variable (env : Env)

/-! ## The writer -/

namespace SegmentWriter

def get (side : Side) : SegProg SegmentWriter := do return (← Proc.load).writer side

def set (side : Side) (w : SegmentWriter) : SegProg Unit := do
  let store ← Proc.load
  Proc.save (store.setWriter side w)

/-! ### Buffered writing -/

/-- What a write that fails reports. -/
def writeError : OosLiteError := .io .other ""

/-- Write until everything is written or a write fails: how many bytes were. -/
def writeSome (path : SegPath) (bytes : Bytes) : SegProg Nat := do
  let count ← Proc.ask (SegQuestion.accepts bytes.length)
  Proc.write path (bytes.take count)
  return count

/-- `File::write_all`. -/
def writeAll (path : SegPath) (bytes : Bytes) : SegProg Unit := do
  let count ← writeSome path bytes
  Prog.when (count < bytes.length) (throw writeError)

/-- `BufWriter::flush`: what was not written stays in the buffer. -/
def flush (side : Side) : SegProg Unit := do
  let w ← get side
  Prog.when (w.buffer ≠ []) do
    let count ← writeSome w.path w.buffer
    set side { w with buffer := w.buffer.drop count }
    Prog.when (count < w.buffer.length) (throw writeError)

/-- The capacity of a `BufWriter`. -/
def bufferCapacity : Nat := 8 * 1024

/-- The part of `BufWriter::write_all` after the buffer was flushed, if that was necessary. -/
def push (side : Side) (bytes : Bytes) : SegProg Unit := do
  let w ← get side
  if bytes.length ≥ bufferCapacity then writeAll w.path bytes
  else set side { w with buffer := w.buffer ++ bytes }

/-- `BufWriter::write_all`. -/
def bufferedWrite (side : Side) (bytes : Bytes) : SegProg Unit := do
  let w ← get side
  Prog.when (bytes.length > bufferCapacity - w.buffer.length) (flush side)
  push side bytes

/-! ### Segments -/

/-- The header of a new file, or the position to go on from in an existing one. -/
def begin (path : SegPath) (segmentId resumeOffset : Nat) : SegProg Nat :=
  if resumeOffset = 0 then do
    let createdAt ← Proc.ask .now
    writeAll path (SegmentHeader.toBytes { segmentId, createdAt })
    Proc.sync path
    return segmentHeaderSize
  else do
    Proc.seek path resumeOffset
    return resumeOffset

/-- `open`. -/
def «open» (staging : Option Nat) (segmentId resumeOffset maxSegmentSize : Nat) :
    SegProg SegmentWriter := do
  let w : SegmentWriter := { staging, currentSegmentId := segmentId, isOpen := true, buffer := []
                             currentOffset := resumeOffset
                             maxSegmentSize := if maxSegmentSize = 0 then defaultMaxSegmentSize
                               else maxSegmentSize }
  Proc.create w.path
  let currentOffset ← begin w.path segmentId resumeOffset
  return { w with currentOffset }

/-- `sync`. -/
def sync (side : Side) : SegProg Unit := do
  let w ← get side
  Prog.when w.isOpen do
    flush side
    Proc.sync w.path

/-- `close_file`. A `BufWriter` that is dropped with bytes in it tries once more to write them. -/
def closeFile (side : Side) : SegProg Unit := do
  let w ← get side
  set side { w with isOpen := false }
  Prog.when w.isOpen do
    Prog.handle (flush side) fun e => do
      Proc.ignore (flush side)
      throw e
    Proc.sync w.path

/-- `rotate`. -/
def rotate (side : Side) : SegProg Unit := do
  sync side
  let w ← get side
  let newWriter ← SegmentWriter.open w.staging (w.currentSegmentId + 1) 0 w.maxSegmentSize
  set side newWriter

/-- Whether there is a file to write to. -/
def file (w : SegmentWriter) : Result Unit :=
  if w.isOpen then .ok () else .error (.internal "SegmentWriter file handle is closed")

/-- The nonce of the next record, if chunks are encrypted. -/
def freshNonce : SegProg Nonce :=
  if env.vaultKey.isSome then Proc.ask SegQuestion.nonce else pure (FixedBytes.ofBytes 24 [])

/-- Where a writer puts a record. -/
def location (w : SegmentWriter) (data payload : Bytes) : ChunkLocation where
  segmentId := w.currentSegmentId
  recordOffset := w.currentOffset
  payloadOffset := w.currentOffset + recordHeaderSizeV3
  payloadLen := UInt32.ofNat payload.length
  rawLen := UInt32.ofNat data.length

/-- Header, payload and `flush`. -/
def writeOut (side : Side) (record : RecordHeader × Bytes) : SegProg Unit := do
  bufferedWrite side (record.1.toBytes env)
  bufferedWrite side record.2
  flush side

/-- The part of `append_chunk` after the rotation. -/
def writeRecord (side : Side) (chunkId : ChunkId) (data : Bytes) (record : RecordHeader × Bytes) :
    SegProg Unit := do
  let w ← get side
  Prog.ofExcept w.file
  writeOut env side record
  let store ← Proc.load
  let w := store.writer side
  let w' := { w with currentOffset := w.currentOffset + (recordHeaderSizeV3 + record.2.length) }
  Proc.save ((store.setWriter side w').setIndex side
    ((store.index side).insert chunkId (w.location data record.2)))

/-- `append_chunk`. -/
def appendChunk (side : Side) (chunkId : ChunkId) (data : Bytes) : SegProg Unit := do
  let nonce ← freshNonce env
  let record := chunkRecord env chunkId data nonce
  let w ← get side
  Prog.when (w.currentOffset + (recordHeaderSizeV3 + record.2.length) > w.maxSegmentSize)
    (rotate side)
  writeRecord env side chunkId data record

end SegmentWriter

namespace SegmentStore

/-! ## Recovery -/

/-- The numbers of the files a directory listing selects. -/
def listIds (select : SegPath → Bool) : SegProg (List Nat) := do
  return (← Proc.list select).map SegPath.id

/-- `b"COMPACT_DONE"`. -/
def compactDone : Bytes := Text.utf8 "COMPACT_DONE"

/-- Whether the marker of a finished compaction is there. -/
def readMarker : SegProg Bool :=
  Prog.handle (do return (← Proc.read .marker) = compactDone) fun _ => pure false

/-- The rollback of one segment. -/
def restoreOld (id : Nat) : SegProg Unit := do
  let present ← Proc.exists? (.active id)
  Prog.when present (Proc.remove (.active id))
  Proc.rename (.old id) (.active id)

/-- What `recover_and_index` does about the rest of a compaction. -/
def settle (done : Bool) (oldSegFiles : List Nat) : SegProg Unit :=
  if oldSegFiles ≠ [] then
    if done then do
      Prog.forEach (fun _ id => Proc.ignore (Proc.remove (.old id))) () oldSegFiles
      Proc.ignore (Proc.remove .marker)
    else do
      Prog.forEach (fun _ id => restoreOld id) () oldSegFiles
      Proc.ignore (Proc.remove .marker)
  else do
    let present ← Proc.exists? .marker
    Prog.when present (Proc.ignore (Proc.remove .marker))

/-- The error for a segment whose scan stops where it may not. -/
def stopError (offset : Nat) : SegmentStop → OosLiteError
  | .incompletePayload => .corruptedSegment offset "Incomplete payload in sealed segment"
  | .payloadMismatch => .corruptedSegment offset "Payload checksum mismatch"
  | .noHeader => .corruptedSegment offset "Incomplete header in sealed segment"
  | .invalid e => .corruptedSegment offset s!"Invalid record header: {e.display}"

/-- Whether the end of a scan is fine, to be repaired, or an error. -/
def judge (newest : Bool) (offset : Nat) : Option SegmentStop → Result Bool
  | none => .ok false
  | some reason =>
    if newest ∧ reason.repairable then .ok true else .error (stopError offset reason)

/-- The error for a segment whose header is not accepted. -/
def readHeader (content : Bytes) : Result SegmentHeader :=
  match SegmentHeader.readFrom content with
  | .ok h => .ok h
  | .error e => .error (.corruptedSegment 0 ("Corrupted header: " ++ e.display))

/-- The loop over the records of a segment. -/
def scanSegment (content : Bytes) : Framing.Scan RecordHeader SegmentStop :=
  Framing.scan (nextRecord env) (content.length + 1) segmentHeaderSize
    (content.drop segmentHeaderSize)

/-- The index entry of a record found at an offset. -/
def entry (segId : Nat) (found : Nat × RecordHeader) : ChunkId × ChunkLocation :=
  (found.2.chunkId,
    { segmentId := segId, recordOffset := found.1, payloadOffset := found.1 + found.2.headerSize
      payloadLen := found.2.payloadLen, rawLen := found.2.rawLen })

/-- Insert entries one after the other. -/
def insertAll (index : SegmentIndex) (entries : List (ChunkId × ChunkLocation)) : SegmentIndex :=
  entries.foldl (fun index e => index.insert e.1 e.2) index

/-- The loop body of `recover_and_index` for one segment. It returns the number of the segment
and the end of its last record. -/
def recoverSegment (newestId : Nat) (_latest : Nat × Nat) (segId : Nat) : SegProg (Nat × Nat) := do
  let content ← Proc.read (.active segId)
  let _header ← Prog.ofExcept (readHeader content)
  let found := scanSegment env content
  let store ← Proc.load
  Proc.save (store.setIndex .own
    (insertAll (store.index .own) (found.items.map (entry segId))))
  let repair ← Prog.ofExcept (judge (segId = newestId) found.stop found.reason)
  Prog.when repair do
    Proc.setLen (.active segId) found.stop
    Proc.sync (.active segId)
  return (segId, found.stop)

/-- `recover_and_index`. -/
def recoverAndIndex : SegProg (Nat × Nat) := do
  let done ← readMarker
  Proc.ignore (Proc.removeAll SegPath.isStaging)
  let oldSegFiles ← listIds SegPath.isOld
  settle done oldSegFiles
  let segmentIds ← listIds SegPath.isActive
  let segmentIds := segmentIds.mergeSort
  match segmentIds.getLast? with
  | none => return (1, 0)
  | some newestId => Prog.forEach (recoverSegment env newestId) (1, 0) segmentIds

/-- `with_max_segment_size_and_vault`. -/
def openStore (maxSegmentSize : Nat) : SegProg Unit := do
  let store ← Proc.load
  Proc.save (store.setIndex .own ∅)
  let (latestSegmentId, resumeOffset) ← recoverAndIndex env
  let writer ← SegmentWriter.open none latestSegmentId resumeOffset maxSegmentSize
  SegmentWriter.set .own writer

/-! ## Chunks -/

/-- `put_chunk`. -/
def putChunk (data : Bytes) : SegProg (ChunkId × Bool) := do
  let chunkId := ChunkId.fromData env data
  let store ← Proc.load
  if (store.index .own).contains chunkId then return (chunkId, false)
  else
    SegmentWriter.appendChunk env .own chunkId data
    return (chunkId, true)

/-- `read_chunk`. -/
def readChunk (chunkId : ChunkId) (location : ChunkLocation) : SegProg Bytes := do
  let file ← Prog.handle (Proc.read (.active location.segmentId)) fun e =>
    throw (.internal ("Failed to open segment file: " ++ e.display))
  Prog.ofExcept (readRecord env file chunkId location)

/-- The location that the index has for a chunk. -/
def locationOf (index : SegmentIndex) (id : ChunkId) : Result ChunkLocation :=
  match index[id]? with
  | some location => .ok location
  | none => .error (.chunkNotFound id.toHex)

/-- `get_chunk`. -/
def getChunk (id : ChunkId) : SegProg Bytes := do
  let store ← Proc.load
  let location ← Prog.ofExcept (locationOf (store.index .own) id)
  readChunk env id location

/-- `has_chunk`. -/
def hasChunk (id : ChunkId) : SegProg Bool := do
  return ((← Proc.load).index .own).contains id

/-- `sync`. -/
def sync : SegProg Unit := SegmentWriter.sync .own

/-! ## Compaction -/

/-- `entries` of the index. -/
def entries (index : SegmentIndex) : SegProg (List (ChunkId × ChunkLocation)) :=
  Proc.ask (SegQuestion.entries index.toList)

/-- The loop body of step 3: one retained chunk. -/
def retain (e : ChunkId × ChunkLocation) : SegProg Unit := do
  let data ← readChunk env e.1 e.2
  SegmentWriter.appendChunk env .new e.1 data

/-- Steps 1 to 3 of `compact_and_reclaim`: the retained chunks, in new segments. -/
def stage (reachable : ChunkId → Bool) (dir maxSegmentSize : Nat) : SegProg SegmentWriter := do
  Proc.ignore (Proc.removeAll (SegPath.isStagedIn dir))
  let store ← Proc.load
  Proc.save (store.setIndex .new ∅)
  let newWriter ← SegmentWriter.open (some dir) 1 0 maxSegmentSize
  SegmentWriter.set .new newWriter
  let entries ← entries (store.index .own)
  Prog.forEach (fun _ e => retain env e) () (entries.filter fun e => reachable e.1)
  SegmentWriter.sync .new
  let newWriter ← SegmentWriter.get .new
  SegmentWriter.closeFile .new
  return newWriter

/-- Phase 5a: rename the active segments. -/
def moveOut : SegProg (List Nat) := do
  let ids ← listIds SegPath.isActive
  Prog.forEach (fun _ id => Proc.rename (.active id) (.old id)) () ids
  return ids

/-- Phase 5b: move the new segments in and sync them. -/
def moveIn (dir : Nat) : SegProg Unit := do
  let ids ← listIds (SegPath.isStagedIn dir)
  Prog.forEach (fun _ id => Proc.rename (.staging dir id) (.active id)) () ids
  Proc.ignore (Proc.removeAll (SegPath.isStagedIn dir))
  let placed ← Prog.handle (listIds SegPath.isActive) fun _ => pure []
  Prog.forEach (fun _ id => Proc.ignore (Proc.sync (.active id))) () placed

/-- The marker of a finished compaction. -/
def writeMarker : SegProg Unit := do
  Proc.truncate .marker
  Proc.write .marker compactDone
  Proc.sync .marker

/-- Phase 5c: remove the old segments and the marker. -/
def cleanUp (oldFiles : List Nat) : SegProg Unit := do
  Prog.forEach (fun _ id => Proc.ignore (Proc.remove (.old id))) () oldFiles
  Proc.ignore (Proc.remove .marker)

/-- What the phases of a compaction hand on. -/
structure Compaction where
  dir : Nat
  newWriter : SegmentWriter
  retainedCount : Nat
  maxSegmentSize : Nat
  totalBefore : Nat

/-- `compact_and_reclaim` until the store's own file is closed. Nothing is done if every chunk is
reachable. -/
def prepare (reachable : ChunkId → Bool) : SegProg (Option Compaction) := do
  SegmentWriter.sync .own
  let store ← Proc.load
  let entries ← entries (store.index .own)
  if entries.all fun e => reachable e.1 then return none
  else
    let dir ← Proc.ask SegQuestion.stagingDir
    let maxSegmentSize := (store.writer .own).maxSegmentSize
    let newWriter ← stage env reachable dir maxSegmentSize
    let retainedCount := ((← Proc.load).index .new).size
    SegmentWriter.closeFile .own
    return some { dir, newWriter, retainedCount, maxSegmentSize
                  totalBefore := (store.index .own).size }

/-- Phase 5b; nothing is moved in if no chunk is kept. -/
def place (x : Compaction) : SegProg Unit :=
  if x.retainedCount > 0 then moveIn x.dir
  else Proc.ignore (Proc.removeAll (SegPath.isStagedIn x.dir))

/-- Phases 5a and 5b and the marker. -/
def swap (x : Compaction) : SegProg (List Nat) := do
  let oldFiles ← moveOut
  place x
  writeMarker
  return oldFiles

/-- Step 6: the index and the writer of the new segments. -/
def attach (x : Compaction) : SegProg Unit := do
  let store ← Proc.load
  Proc.save (store.setIndex .own (store.index .new))
  let writer ←
    if x.retainedCount > 0 then
      SegmentWriter.open none x.newWriter.currentSegmentId x.newWriter.currentOffset
        x.maxSegmentSize
    else SegmentWriter.open none 1 0 x.maxSegmentSize
  SegmentWriter.set .own writer

/-- Phase 5c and step 6. -/
def finish (x : Compaction) (oldFiles : List Nat) : SegProg Nat := do
  cleanUp oldFiles
  attach x
  return x.totalBefore - x.retainedCount

/-- `compact_and_reclaim`. -/
def compactAndReclaim (reachable : ChunkId → Bool) : SegProg Nat := do
  match ← prepare env reachable with
  | none => return 0
  | some x =>
    let oldFiles ← swap x
    finish x oldFiles

end SegmentStore

end OosLite
