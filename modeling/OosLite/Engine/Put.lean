import OosLite.Engine.Names
import OosLite.Wal.Format
import OosLite.Lib.FileSystem

/-!
# Storing a file

`put_file_named` by what it does to the tables: the version it chooses, and the transactions that
follow the record in the write-ahead log, which a replay makes again.
-/

namespace OosLite

open Files (IoError)

/-! ## Chunks -/

def minChunkSize : Nat := 16 * 1024

/-- The length of the next chunk of `StreamChunker`. -/
def nextChunkLen (env : Env) (data : Bytes) : Nat :=
  if data.length ≤ minChunkSize then data.length else env.fastcdc data

/-- So many times `next_chunk`. -/
def chunkLoop (env : Env) : Nat → Bytes → List Bytes
  | 0, _ => []
  | _ + 1, [] => []
  | n + 1, data =>
    data.take (nextChunkLen env data) :: chunkLoop env n (data.drop (nextChunkLen env data))

/-- The chunks of a file. -/
def chunksOf (env : Env) (data : Bytes) : List Bytes := chunkLoop env data.length data

/-- The manifest of a file. -/
def manifestOf (env : Env) (data : Bytes) (createdAt : UInt64) : Manifest where
  totalSize := UInt64.ofNat data.length
  contentHash := env.blake3 data
  createdAt
  chunks := (chunksOf env data).map (ChunkId.fromData env)

/-! ## Versions -/

/-- The number of the next version. -/
def ObjectRecord.nextVersion (r : ObjectRecord) : UInt32 :=
  max r.latestVersion ((r.versions.map ObjectVersion.version).max?.getD 0) + 1

/-- The steps at which storing a file can fail. -/
inductive PutStage where
  | chunks
  | wal
  | manifest
  | object
  | name
  | checkpoint
  deriving DecidableEq

namespace MetadataStore

variable (env : Env)

/-- The object and the version that a put will write. -/
def putTarget (m : MetadataStore) (name : String) (generated : ObjectId) :
    Result (ObjectId × UInt32) :=
  match m.resolveName name with
  | some existingId => do
    match ← m.getObject existingId with
    | some existing => return (existingId, existing.nextVersion)
    | none => throw (.internal ("Inconsistent state: Name " ++ name ++
        " points to non-existing Object " ++ existingId.toHex))
  | none => return (generated, 1)

/-- Add the version to the record of its object, unless it is there. -/
def putVersion (m : MetadataStore) (put : WalPutPayload) : Result MetadataStore := do
  let record := (← m.getObject put.objectId).getD
    { objectId := put.objectId, latestVersion := put.version, versions := [] }
  if record.versions.any fun v => v.version = put.version then return m
  else
    let version : ObjectVersion :=
      { version := put.version
        manifestId := put.manifest.contentId
        createdAt := put.manifest.createdAt
        sizeBytes := put.manifest.totalSize }
    return m.putObject
      { record with latestVersion := put.version, versions := record.versions ++ [version] }

/-- The transactions of a put, up to one that fails. -/
def applyPut (m : MetadataStore) (put : WalPutPayload) (fault : Option PutStage) :
    Result Unit × MetadataStore :=
  if fault = some .manifest then (.error (.redb ""), m)
  else
    let m := (m.saveManifest env put.manifest).2
    if fault = some .object then (.error (.redb ""), m)
    else
      match m.putVersion put with
      | .error e => (.error e, m)
      | .ok m =>
        if fault = some .name then (.error (.redb ""), m)
        else
          let m := m.bindName put.name put.objectId
          if fault = some .checkpoint then (.error (.ofIo .other), m) else (.ok (), m)

end MetadataStore

/-- The engine, as far as its tables go, with the object identifiers it will generate. -/
structure Engine where
  store : MetadataStore
  ids : Nat → ObjectId
  generated : Nat

/-- `put_file_named` of a file that reads so, up to a step that fails. -/
def Engine.putFileNamed (env : Env) (engine : Engine) (name : String)
    (file : Except IoError Bytes) (createdAt : UInt64) (fault : Option PutStage) :
    Result Unit × Engine :=
  let name := Text.trim name
  match validateLogicalName name, file with
  | .error e, _ => (.error e, engine)
  | .ok (), .error e => (.error (.ofIo e), engine)
  | .ok (), .ok content =>
    if fault = some .chunks then (.error (.ofIo .other), engine)
    else
      match engine.store.putTarget name (engine.ids engine.generated) with
      | .error e => (.error e, engine)
      | .ok (objectId, version) =>
        let engine :=
          if (engine.store.resolveName name).isSome then engine
          else { engine with generated := engine.generated + 1 }
        if fault = some .wal then (.error (.ofIo .other), engine)
        else
          let put : WalPutPayload :=
            { name, objectId, version, manifest := manifestOf env content createdAt, chunks := [] }
          let applied := engine.store.applyPut env put fault
          (applied.1, { engine with store := applied.2 })

end OosLite
