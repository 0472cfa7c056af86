import OosLite.Engine.Machine

/-!
# The operations of the engine

The methods of `StorageEngine` and of `GarbageCollector`. What a method reads from outside the
store, the file to store and the identifier it generates, is an argument.
-/

namespace OosLite

open Files Effect

/-- One pass over a file: what there is to read, after how many chunks a read fails, and whether
the file is found to be as it was. -/
structure Reading where
  content : Bytes
  failure : Option (Nat × IoError)
  stable : Bool

/-- The chunks that a pass cuts before it ends or fails. -/
def Reading.chunks (env : Env) (r : Reading) : List Bytes :=
  match r.failure with
  | none => chunksOf env r.content
  | some (count, _) => (chunksOf env r.content).take count

/-- A file to store: whether it is there, and what each pass over it gives. -/
structure SourceFile where
  «exists» : Bool
  readings : Nat → Reading

/-- `PutSummary`. -/
structure PutSummary where
  objectId : ObjectId
  version : UInt32
  manifestId : String
  totalBytes : Nat
  chunkCount : Nat
  newChunks : Nat
  dedupChunks : Nat

/-- `GcStats`. -/
structure GcStats where
  liveRoots : Nat
  reachableChunks : Nat
  chunksReclaimed : Nat
  manifestsReclaimed : Nat
  activeChunksRetained : Nat

/-- A value that must be there. -/
def Option.orError {α : Type} (value : Option α) (e : OosLiteError) : Result α :=
  match value with
  | some a => .ok a
  | none => .error e

theorem Option.orError_eq_ok {α : Type} {value : Option α} {e : OosLiteError} {a : α} :
    Option.orError value e = .ok a ↔ value = some a := by
  cases value <;> simp [Option.orError]

/-- What the mark phase finds: the reachable chunks and manifests, and the number of roots. -/
structure Marked where
  chunks : List ChunkId
  manifests : List String
  liveRoots : Nat

namespace StorageEngine

variable (env : Env)

/-! ## Storing -/

/-- Put the chunks of one pass; the number of those that are new. -/
def putChunks (chunks : List Bytes) : EngineProg Nat :=
  Prog.forEach (fun count data => do
    let (_, isNew) ← segments (SegmentStore.putChunk env data)
    return if isNew then count + 1 else count) 0 chunks

/-- One of the attempts to read the file: the number of new chunks. -/
def readOnce (r : Reading) : EngineProg Nat := do
  let newChunks ← putChunks env (r.chunks env)
  match r.failure with
  | none => return newChunks
  | some (_, e) => throw (.ofIo e)

/-- The attempts to read a file that does not change meanwhile. -/
def stableRead : List Reading → EngineProg (Bytes × Nat)
  | [] => throw (.io .wouldBlock "File changed during all 3 read attempts")
  | r :: rest => do
    let newChunks ← readOnce env r
    if r.stable then return (r.content, newChunks) else stableRead rest

/-- `MAX_STABLE_READ_ATTEMPTS`. -/
def maxStableReadAttempts : Nat := 3

/-- The version of a put, added to the record of its object unless it is there. -/
def addVersion (put : WalPutPayload) : EngineProg Unit := do
  let found ← query fun m => m.getObject put.objectId
  let record := found.getD { objectId := put.objectId, latestVersion := put.version, versions := [] }
  Prog.when (¬ record.versions.any fun v => v.version = put.version) do
    update fun m => m.putObject
      { record with
        latestVersion := put.version
        versions := record.versions ++
          [{ version := put.version
             manifestId := put.manifest.contentId
             createdAt := put.manifest.createdAt
             sizeBytes := put.manifest.totalSize }] }

/-- The transactions that follow the record of a put in the log. -/
def storePut (put : WalPutPayload) : EngineProg Unit := do
  update fun m => (m.saveManifest env put.manifest).2
  addVersion put
  update fun m => m.bindName put.name put.objectId

/-- The part of `put_file_named` that follows the reading of the file. -/
def storeFile (name : String) (content : Bytes) (newChunks : Nat) (generated : ObjectId) :
    EngineProg PutSummary := do
  segments SegmentStore.sync
  let manifest := manifestOf env content (← now)
  let (objectId, version) ← query fun m => m.putTarget name generated
  let put : WalPutPayload := { name, objectId, version, manifest, chunks := [] }
  let lsn ← log (Wal.appendPutAndSync env put)
  storePut env put
  log (Wal.checkpoint lsn)
  return { objectId, version, manifestId := manifest.contentId, totalBytes := content.length
           chunkCount := manifest.chunks.length, newChunks
           dedupChunks := manifest.chunks.length - newChunks }

/-- `put_file_named`; `generated` is the identifier for a name that is not bound. -/
def putFileNamed (name : String) (file : SourceFile) (generated : ObjectId) :
    EngineProg PutSummary := do
  let name := Text.trim name
  Prog.ofExcept (validateLogicalName name)
  if ¬ file.exists then throw (.io .notFound "File not found")
  else
    let (content, newChunks) ←
      stableRead env ((List.range maxStableReadAttempts).map file.readings)
    storeFile env name content newChunks generated

/-! ## Opening -/

/-- A chunk of a record in the log, unless it is there. -/
def replayChunk (chunk : ChunkId × Bytes) : EngineProg Unit := do
  let there ← segments (SegmentStore.hasChunk chunk.1)
  Prog.when (chunk.2 ≠ [] ∧ ¬ there) do
    let (actualId, _) ← segments (SegmentStore.putChunk env chunk.2)
    Prog.when (actualId ≠ chunk.1) (throw (.walRecovery ("WAL chunk " ++ chunk.1.toHex ++
      " does not match its content hash " ++ actualId.toHex)))

/-- A chunk that the manifest of a record names must be there. -/
def requireChunk (id : ChunkId) : EngineProg Unit := do
  let there ← segments (SegmentStore.hasChunk id)
  Prog.when (¬ there)
    (throw (.walRecovery ("WAL manifest references missing durable chunk " ++ id.toHex)))

/-- One put of the log, again. -/
def replayPut (put : WalPutPayload) : EngineProg Unit := do
  Prog.forEach (fun _ chunk => replayChunk env chunk) () put.chunks
  segments SegmentStore.sync
  Prog.forEach (fun _ id => requireChunk id) () put.manifest.chunks
  storePut env put

/-- One record of the log: the highest number so far. -/
def replayRecord (maxLsn : UInt64) (record : WalRecord) : EngineProg UInt64 := do
  match record.payload with
  | .putObject put => replayPut env put
  | .checkpoint _ => pure ()
  return if record.lsn > maxLsn then record.lsn else maxLsn

/-- The recovery of `open_internal`. -/
def recover : EngineProg Unit := do
  let uncheckpointed ← log (Wal.readUncheckpointedRecords env)
  Prog.when (uncheckpointed ≠ []) do
    let wal ← log Proc.load
    let maxLsn ← Prog.forEach (replayRecord env) wal.checkpointLsn uncheckpointed
    log (Wal.checkpoint maxLsn)

/-- `open_internal`. -/
def openInternal : EngineProg Unit := do
  segments (SegmentStore.openStore env 0)
  log (Wal.openWithVault env)
  recover env

/-! ## Reading -/

/-- `resolve_manifest`. -/
def resolveManifest (m : MetadataStore) (target : String) : Result Manifest := do
  let target := Text.trim target
  let latest (id : ObjectId) : Result (Option Manifest) := do
    match ← m.getObject id with
    | some record => m.getManifest env record.latestManifestId
    | none => return none
  let named ← match m.resolveName target with
    | some id => latest id
    | none => .ok none
  if let some manifest := named then return manifest
  let parsed ← match ObjectId.parse target with
    | some id => latest id
    | none => .ok none
  if let some manifest := parsed then return manifest
  if let some manifest := ← m.getManifest env target then return manifest
  throw (.objectNotFound ("Target '" ++ target ++
    "' could not be resolved to any valid file name, ObjectId, or ManifestId"))

/-- The object that a name is bound to, or that the target spells. -/
def targetObject (m : MetadataStore) (target : String) (e : OosLiteError) : Result ObjectId :=
  match m.resolveName target with
  | some id => .ok id
  | none => Option.orError (ObjectId.parse target) e

/-- The manifest of a version, by a name or an object. -/
def versionManifest (m : MetadataStore) (target : String) (v : UInt32) : Result Manifest := do
  let id ← targetObject m target
    (.objectNotFound ("File '" ++ target ++ "' not found for version query"))
  let record ← Option.orError (← m.getObject id) (.objectNotFound id.toHex)
  let entry ← Option.orError (record.versions.find? fun entry => entry.version = v)
    (.objectNotFound ("Version #" ++ toString v ++ " not found for file '" ++ target ++ "'"))
  Option.orError (← m.getManifest env entry.manifestId)
    (.internal ("Manifest " ++ entry.manifestId ++ " missing for version #" ++ toString v))

/-- `extract_manifest_to_file`: the bytes that are written. -/
def extractManifestToFile (manifest : Manifest) : EngineProg Bytes := do
  let written ← Prog.forEach (fun written id => do
    let data ← segments (SegmentStore.getChunk env id)
    return written ++ data) [] manifest.chunks
  if env.blake3 written ≠ manifest.contentHash then
    throw (.internal ("Reconstructed file BLAKE3 mismatch: expected " ++ manifest.contentId ++
      ", got " ++ ChunkId.toHex (env.blake3 written)))
  else return written

/-- The manifest that `get_file_version` extracts. -/
def manifestFor (m : MetadataStore) (target : String) : Option UInt32 → Result Manifest
  | some v => versionManifest env m target v
  | none => resolveManifest env m target

/-- `get_file_version`: the bytes that are written. -/
def getFileVersion (target : String) (version : Option UInt32) : EngineProg Bytes := do
  let manifest ← query fun m => manifestFor env m target version
  extractManifestToFile env manifest

/-- `get_versions`. -/
def getVersions (target : String) : EngineProg (List ObjectVersion) :=
  query fun m => do
    let target := Text.trim target
    let id ← targetObject m target
      (.objectNotFound ("Object not found for versions query: " ++ target))
    let record ← Option.orError (← m.getObject id) (.objectNotFound id.toHex)
    return record.versions

/-! ## Snapshots -/

/-- The entries of a snapshot: the last version of every named object that has one. -/
def snapshotEntries (named : List (String × ObjectId × ObjectRecord)) : List SnapshotEntry :=
  named.filterMap fun (name, objectId, record) => record.latest.map fun latest =>
    { name, objectId, version := latest.version, manifestId := latest.manifestId
      sizeBytes := latest.sizeBytes }

/-- `create_snapshot`. -/
def createSnapshot (label : String) : EngineProg Snapshot := do
  let label := Text.trim label
  if label = "" then throw (.internal "Snapshot label cannot be empty")
  else
    let found ← query fun m => m.getSnapshot env label
    if found.isSome then throw (.internal ("Snapshot '" ++ label ++ "' already exists"))
    else
      let named ← query fun m => m.listNamedObjects
      let snapshot : Snapshot := { label, createdAt := ← now, entries := snapshotEntries named }
      update fun m => m.saveSnapshot env snapshot
      return snapshot

/-- `get_snapshot`. -/
def getSnapshot (label : String) : EngineProg (Option Snapshot) :=
  query fun m => m.getSnapshot env (Text.trim label)

/-- The relative path a snapshot entry is restored to. -/
def safeRelativePath (name : String) : List String :=
  (Component.ofPath name).filterMap fun c => match c with
    | .normal text => some text
    | _ => none

/-- One entry of a snapshot: its path and the bytes written there. -/
def restoreEntry (entry : SnapshotEntry) : EngineProg (List String × Bytes) := do
  let manifest ← query fun m => do
    Option.orError (← m.getManifest env entry.manifestId)
      (.internal ("Manifest " ++ entry.manifestId ++ " not found for snapshot entry " ++ entry.name))
  if safeRelativePath entry.name = [] then
    throw (.invalidName entry.name "Snapshot entry resolved to empty relative path")
  else
    let written ← extractManifestToFile env manifest
    return (safeRelativePath entry.name, written)

/-- `restore_snapshot`: the files that are written. -/
def restoreSnapshot (label : String) : EngineProg (List (List String × Bytes)) := do
  let label := Text.trim label
  let snapshot ← query fun m => do
    Option.orError (← m.getSnapshot env label) (.snapshotNotFound label)
  Prog.forEach (fun written entry => do
    let file ← restoreEntry env entry
    return written ++ [file]) [] snapshot.entries

/-- `delete_snapshot`. -/
def deleteSnapshot (label : String) : EngineProg Bool := do
  let m ← tables
  let deleted := m.deleteSnapshot (Text.trim label)
  commit deleted.2
  return deleted.1

/-! ## Names -/

/-- `list_files`. -/
def listFiles : EngineProg (List (String × ObjectId × ObjectRecord)) :=
  query fun m => m.listNamedObjects

/-- A transaction that deletes a named object. -/
def deleteNamed (name : String) : EngineProg Bool := do
  let m ← tables
  let deleted := m.deleteNamedObject name
  commit deleted.2
  return deleted.1.isSome

/-- `delete_file`. -/
def deleteFile (name : String) : EngineProg Bool := deleteNamed (Text.trim name)

/-- `delete_prefix`. -/
def deletePrefix (start : String) : EngineProg Nat := do
  let files ← listFiles
  Prog.forEach (fun count file => do
    if (Text.stripPrefix start file.1).isSome then
      let deleted ← deleteNamed file.1
      return if deleted then count + 1 else count
    else return count) 0 files

/-- `unbind_file`. -/
def unbindFile (name : String) : EngineProg Bool := do
  let m ← tables
  let unbound := m.unbindName (Text.trim name)
  commit unbound.2
  return unbound.1.isSome

/-- `rename_file`. -/
def renameFile (oldName newName : String) : EngineProg Bool := do
  let oldName := Text.trim oldName
  let newName := Text.trim newName
  Prog.ofExcept (validateLogicalName newName)
  let m ← tables
  let renamed := m.renameNameBinding oldName newName
  commit renamed.2
  return renamed.1

/-- `update_watched_prefix`. -/
def updateWatchedPrefix (watchRoot source : String) (target : Option String)
    (included : String → Bool) : EngineProg (List Change) := do
  let m ← tables
  let (changes, moved) ← Prog.ofExcept (m.updateWatchedPrefix watchRoot source target included)
  commit moved
  return changes

/-- `mark_watcher_file`. -/
def markWatcherFile (watchRoot logicalName : String) : EngineProg Unit :=
  update fun m => m.markWatcherFile watchRoot logicalName

/-! ## Versions -/

/-- The object that a name is bound to, with its record, if there is one. -/
def namedRecord (m : MetadataStore) (name : String) : Result (Option ObjectRecord) :=
  match m.resolveName name with
  | some id => m.getObject id
  | none => .ok none

/-- `prune_file_versions`. -/
def pruneFileVersions (name : String) (keepLastN : Nat) : EngineProg Nat := do
  let found ← query fun m => namedRecord m (Text.trim name)
  match found with
  | none => return 0
  | some record =>
    if record.versions.length ≤ keepLastN then return 0
    else
      let pruneCount := record.versions.length - keepLastN
      update fun m => m.putObject { record with versions := record.versions.drop pruneCount }
      return pruneCount

/-- `prune_all`. -/
def pruneAll (keepLastN : Nat) : EngineProg Nat := do
  let files ← listFiles
  Prog.forEach (fun total file => do
    let pruned ← pruneFileVersions file.1 keepLastN
    return total + pruned) 0 files

/-- What `rollback_file` reads: the record, the version to go back to, and its manifest. -/
def rollbackTarget (m : MetadataStore) (name : String) (targetVersion : UInt32) :
    Result (ObjectRecord × ObjectVersion × Manifest) := do
  let id ← Option.orError (m.resolveName name)
    (.objectNotFound ("File '" ++ name ++ "' not found in store"))
  let record ← Option.orError (← m.getObject id)
    (.objectNotFound ("Object record " ++ id.toHex ++ " missing"))
  let entry ← Option.orError (record.versions.find? fun v => v.version = targetVersion)
    (.objectNotFound ("Version #" ++ toString targetVersion ++ " not found for file '" ++ name ++
      "'"))
  let manifest ← Option.orError (← m.getManifest env entry.manifestId)
    (.internal ("Manifest " ++ entry.manifestId ++ " missing for version #" ++
      toString targetVersion))
  return (record, entry, manifest)

/-- `rollback_file`, with or without a path to write to: the new version and the bytes written. -/
def rollbackFile (name : String) (targetVersion : UInt32) (writes : Bool) :
    EngineProg (UInt32 × Bytes) := do
  let name := Text.trim name
  Prog.ofExcept (validateLogicalName name)
  let (record, entry, manifest) ← query fun m => rollbackTarget env m name targetVersion
  let createdAt ← now
  let version := record.nextVersion
  update fun m => m.putObject
    { record with
      latestVersion := version
      versions := record.versions ++ [{ entry with version, createdAt }] }
  if writes then
    let written ← extractManifestToFile env manifest
    return (version, written)
  else return (version, [])

/-! ## Garbage collection -/

/-- The manifests that some roots name, with their chunks; `missing` is the error for one that is
not there. -/
def markManifests (m : MetadataStore) (missing : String → OosLiteError) :
    List String → Result (List ChunkId × List String)
  | [] => .ok ([], [])
  | id :: rest => do
    let manifest ← Option.orError (← m.getManifest env id) (missing id)
    let found ← markManifests m missing rest
    return (manifest.chunks ++ found.1, id :: found.2)

/-- What one object makes reachable. -/
def markObject (m : MetadataStore) (record : ObjectRecord) : Result (List ChunkId × List String) :=
  markManifests env m (fun id => .internal ("Object " ++ record.objectId.toHex ++
    " references missing manifest " ++ id)) (record.versions.map ObjectVersion.manifestId)

/-- What one snapshot makes reachable. -/
def markSnapshot (m : MetadataStore) (snapshot : Snapshot) :
    Result (List ChunkId × List String) :=
  markManifests env m (fun id => .internal ("Snapshot " ++ snapshot.label ++
    " references missing manifest " ++ id)) (snapshot.entries.map SnapshotEntry.manifestId)

/-- The objects in the order of their table, each read when its turn comes. -/
def markObjects (m : MetadataStore) : List Bytes → Result (List (List ChunkId × List String))
  | [] => .ok []
  | value :: rest => do
    let found ← markObject env m (← ObjectRecord.fromBytes value)
    return found :: (← markObjects m rest)

/-- `mark`. -/
def mark (m : MetadataStore) : Result Marked := do
  let objects ← markObjects env m (m.objects.toList.map Prod.snd)
  let snapshots ← (← m.listSnapshots env).mapM (markSnapshot env m)
  let found := objects ++ snapshots
  return { chunks := found.flatMap Prod.fst, manifests := found.flatMap Prod.snd
           liveRoots := found.length }

/-- The loop of `sweep` over the manifests: how many are deleted. -/
def sweepManifests (reachable : List String) (ids : List String) : EngineProg Nat :=
  Prog.forEach (fun count id => do
    if id ∈ reachable then return count
    else
      update fun m => m.deleteManifest id
      return count + 1) 0 ids

/-- `sweep`. -/
def sweep (marked : Marked) : EngineProg GcStats := do
  let ids ← query fun m => .ok m.listAllManifestIds
  let manifestsReclaimed ← sweepManifests marked.manifests ids
  let chunksReclaimed ← segments (SegmentStore.compactAndReclaim env fun id => id ∈ marked.chunks)
  let store ← segments Proc.load
  return { liveRoots := marked.liveRoots, reachableChunks := marked.chunks.dedup.length
           chunksReclaimed, manifestsReclaimed
           activeChunksRetained := (store.index .own).size }

/-- `gc`: `collect`. -/
def gc : EngineProg GcStats := do
  let marked ← query fun m => mark env m
  sweep env marked

end StorageEngine

end OosLite
