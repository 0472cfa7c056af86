import OosLite.Engine.Run
import OosLite.Vfs.Cache

/-!
# Range reads of the mounted tree

`VfsTree::read_range`, and a tree that is mounted over a running engine: any number of threads read
ranges of files through its cache while the engine is called. A reader holds the operation lock of
the engine shared until it returns.
-/

namespace OosLite

open Files Effect

/-- What a reader does: it looks at the engine, or uses the cache under its lock. -/
inductive TreeOp where
  | manifest (id : String)
  | location (id : ChunkId)
  | chunk (id : ChunkId)
  | cached (id : ChunkId)
  | cache (id : ChunkId) (data : Bytes)

@[reducible] def TreeOp.Res : TreeOp → Type
  | .manifest _ => Option Manifest
  | .location _ => Option ChunkLocation
  | .chunk _ => Bytes
  | .cached _ => Option Bytes
  | .cache _ _ => Bytes

abbrev TreeProg (α : Type) := Prog TreeOp TreeOp.Res OosLiteError α

/-- An engine, and the cache of the tree over it. -/
structure TreeState where
  engine : StorageEngine
  cache : LruState

/-- The machine of the readers; a transaction and the read of a chunk are one step each. -/
def treeMachine (env : Env) (f : Faults) : Machine TreeOp TreeOp.Res OosLiteError TreeState where
  step
    | .manifest id, t, r, t' => ∃ s, Returns (engineMachine f)
        (StorageEngine.query fun m => m.getManifest env id) t.engine r s ∧ t' = ⟨s, t.cache⟩
    | .location id, t, r, t' => r = .ok (t.engine.segmentStore.mem.index .own)[id]? ∧ t' = t
    | .chunk id, t, r, t' => ∃ s, Returns (engineMachine f)
        (StorageEngine.segments (SegmentStore.getChunk env id)) t.engine r s ∧ t' = ⟨s, t.cache⟩
    | .cached id, t, r, t' => r = .ok (t.cache.get id).1 ∧ t' = ⟨t.engine, (t.cache.get id).2⟩
    | .cache id data, t, r, t' =>
      r = .ok (t.cache.insert id data).1 ∧ t' = ⟨t.engine, (t.cache.insert id data).2⟩
  cut _ _ _ := False

namespace VfsTree

/-- `get_manifest`. -/
def manifest (id : String) : TreeProg (Option Manifest) :=
  @Prog.perform TreeOp TreeOp.Res OosLiteError (.manifest id)

/-- `get_location`. -/
def location (id : ChunkId) : TreeProg (Option ChunkLocation) :=
  @Prog.perform TreeOp TreeOp.Res OosLiteError (.location id)

/-- `get_chunk`. -/
def chunk (id : ChunkId) : TreeProg Bytes :=
  @Prog.perform TreeOp TreeOp.Res OosLiteError (.chunk id)

/-- `get` of the cache. -/
def cached (id : ChunkId) : TreeProg (Option Bytes) :=
  @Prog.perform TreeOp TreeOp.Res OosLiteError (.cached id)

/-- `insert` of the cache. -/
def cache (id : ChunkId) (data : Bytes) : TreeProg Bytes :=
  @Prog.perform TreeOp TreeOp.Res OosLiteError (.cache id data)

/-- The data of a chunk, from the cache or else from the segment store. -/
def chunkData (id : ChunkId) : TreeProg Bytes := do
  match ← cached id with
  | some data => return data
  | none =>
    let decompressed ← chunk id
    cache id decompressed

/-- What a chunk adds to the result. -/
def intersection (offset endOffset currentOffset chunkEnd : UInt64) (data : Bytes) : Bytes :=
  let sliceStart := if offset > currentOffset then (offset - currentOffset).toNat else 0
  let sliceEnd := if endOffset < chunkEnd then (endOffset - currentOffset).toNat else data.length
  if sliceStart < data.length ∧ sliceEnd ≤ data.length ∧ sliceStart < sliceEnd then
    (data.take sliceEnd).drop sliceStart
  else []

/-- The result after a chunk, which is read only if it intersects the range. -/
def readChunk (offset endOffset currentOffset chunkEnd : UInt64) (id : ChunkId) (result : Bytes) :
    TreeProg Bytes :=
  if chunkEnd > offset ∧ currentOffset < endOffset then do
    let data ← chunkData id
    return result ++ intersection offset endOffset currentOffset chunkEnd data
  else return result

/-- The loop over the chunks of a manifest. -/
def readChunks (offset endOffset : UInt64) : List ChunkId → UInt64 → Bytes → TreeProg Bytes
  | [], _, result => return result
  | id :: ids, currentOffset, result => do
    let found ← location id
    let location ← Prog.ofExcept (Option.orError found (.chunkNotFound id.toHex))
    let chunkEnd := currentOffset + location.rawLen.toUInt64
    let result ← readChunk offset endOffset currentOffset chunkEnd id result
    if chunkEnd ≥ endOffset then return result else readChunks offset endOffset ids chunkEnd result

/-- `read_range`. -/
def readRange (manifestId : String) (offset size : UInt64) : TreeProg Bytes :=
  if size = 0 then return []
  else do
    let found ← manifest manifestId
    let manifest ← Prog.ofExcept (Option.orError found (.objectNotFound manifestId))
    if offset ≥ manifest.totalSize then return []
    else
      let actualReadLen := min size (manifest.totalSize - offset)
      readChunks offset (offset + actualReadLen) manifest.chunks 0 []

end VfsTree

/-! ## Mounted trees -/

/-- The calls that take the operation lock exclusively. -/
def EngineCall.Exclusive : EngineCall → Prop
  | createSnapshot _ | deleteSnapshot _ | delete _ | deletePrefix _ | unbind _
  | updateWatchedPrefix .. | gc => True
  | _ => False

/-- What a reader was called with. -/
structure RangeRequest where
  manifestId : String
  offset : UInt64
  size : UInt64

/-- A reader: the tables when it was called, and what it has left to do. -/
structure RangeReader where
  request : RangeRequest
  began : MetadataStore
  rest : TreeProg Bytes

/-- What a reader has returned, and the tables before and after. -/
structure RangeAnswer where
  request : RangeRequest
  began : MetadataStore
  ended : MetadataStore
  result : Result Bytes

/-- A run of the engine, the cache of the tree that is mounted over it, its readers, and all they
returned. -/
structure MountedRun where
  run : EngineRun
  cache : Option LruState
  readers : List RangeReader
  answers : List RangeAnswer

inductive MountedAct where
  | engine (act : EngineAct)
  | mounted (maxBytes : Nat)
  | called (request : RangeRequest)
  | read
  | returned

section Steps

variable (env : Env) (f : Faults)

inductive MountedStep : MountedRun → MountedAct → MountedRun → Prop where
  /-- A call of the engine, or an open; an exclusive call waits for all readers. -/
  | engine {m act s g} : EngineStep env m.run act ⟨.running s, g⟩ →
      (∀ call, act.call? = some call → call.Exclusive → m.readers = []) →
      MountedStep m (.engine act) { m with run := ⟨.running s, g⟩ }
  /-- The process ends, and the tree with it. -/
  | stopped {m act d g} : EngineStep env m.run act ⟨.down d, g⟩ →
      MountedStep m (.engine act) { m with run := ⟨.down d, g⟩, cache := none, readers := [] }
  | mounted {m s maxBytes} : m.run.phase = .running s → m.readers = [] →
      MountedStep m (.mounted maxBytes) { m with cache := some (.new maxBytes) }
  | called {m s cache request} : m.run.phase = .running s → m.cache = some cache →
      MountedStep m (.called request)
        { m with
          readers := ⟨request, s.metadataStore,
            VfsTree.readRange request.manifestId request.offset request.size⟩ :: m.readers }
  /-- One of the readers goes on. -/
  | read {run cache request began o k r t before after answers s} : run.phase = .running s →
      (treeMachine env f).step o ⟨s, cache⟩ r t →
      MountedStep ⟨run, some cache, before ++ ⟨request, began, .op o k⟩ :: after, answers⟩ .read
        ⟨⟨.running t.engine, run.history⟩, some t.cache, before ++ ⟨request, began, k r⟩ :: after, answers⟩
  | returned {run cache request began data before after answers s} : run.phase = .running s →
      MountedStep ⟨run, some cache, before ++ ⟨request, began, .pure data⟩ :: after, answers⟩ .returned
        ⟨run, some cache, before ++ after, ⟨request, began, s.metadataStore, .ok data⟩ :: answers⟩
  | failed {run cache request began e before after answers s} : run.phase = .running s →
      MountedStep ⟨run, some cache, before ++ ⟨request, began, .throw e⟩ :: after, answers⟩ .returned
        ⟨run, some cache, before ++ after, ⟨request, began, s.metadataStore, .error e⟩ :: answers⟩

/-- What may fail in the steps of the engine. -/
def MountedAct.Allowed (allowed : EngineAct → Prop) : MountedAct → Prop
  | engine act => allowed act
  | _ => True

/-- The runs from a new store whose steps all meet a condition. -/
inductive MountedReachable (allowed : EngineAct → Prop) : MountedRun → Prop where
  | start : MountedReachable allowed ⟨⟨.down .new, ⟨∅, ∅, ∅⟩⟩, none, [], []⟩
  | step {m act m'} : MountedReachable allowed m → MountedStep env f m act m' →
      act.Allowed allowed → MountedReachable allowed m'

end Steps

end OosLite
