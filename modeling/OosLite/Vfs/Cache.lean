import Mathlib.Data.List.AList
import OosLite.Env

/-!
# The cache of decompressed chunks

A map of chunks, the order in which they were last used, and the number of their bytes.
-/

namespace OosLite

/-- The chunks of a cache, under their identifiers. -/
abbrev CachedChunks := AList fun _ : ChunkId => Bytes

/-- The bytes of all chunks. -/
def CachedChunks.totalBytes (chunks : CachedChunks) : Nat :=
  (chunks.entries.map fun entry => entry.2.length).sum

structure LruState where
  chunks : CachedChunks
  accessOrder : List ChunkId
  currentBytes : Nat
  maxBytes : Nat

namespace LruState

/-- `DecompressedChunkCache::new`. -/
def new (maxBytes : Nat) : LruState :=
  ⟨∅, [], 0, if maxBytes = 0 then 128 * 1024 * 1024 else maxBytes⟩

variable (s : LruState)

/-- The chunk becomes the most recently used one. -/
def promote (id : ChunkId) : LruState :=
  { s with accessOrder := s.accessOrder.erase id ++ [id] }

/-- `get`. -/
def get (id : ChunkId) : Option Bytes × LruState :=
  match s.chunks.lookup id with
  | some data => (some data, s.promote id)
  | none => (none, s)

/-- There is too little room, and something to evict. -/
def Crowded (chunkSize : Nat) : Prop :=
  s.currentBytes + chunkSize > s.maxBytes ∧ s.accessOrder ≠ []

instance (chunkSize : Nat) : Decidable (s.Crowded chunkSize) :=
  inferInstanceAs (Decidable (_ ∧ _))

/-- The loop body of the eviction. -/
def evictOldest : LruState :=
  match s.accessOrder with
  | [] => s
  | oldId :: accessOrder =>
    match s.chunks.lookup oldId with
    | some evicted =>
      { s with
        chunks := s.chunks.erase oldId, accessOrder
        currentBytes := s.currentBytes - evicted.length }
    | none => { s with accessOrder }

/-- The eviction, with fuel for its loop. -/
def evict (chunkSize : Nat) : (fuel : Nat) → LruState → LruState
  | 0, s => s
  | fuel + 1, s => if s.Crowded chunkSize then evict chunkSize fuel s.evictOldest else s

/-- `insert`. The loop evicts one chunk after the other. -/
def insert (id : ChunkId) (data : Bytes) : Bytes × LruState :=
  match s.chunks.lookup id with
  | some existing => (existing, s.promote id)
  | none =>
    let room := s.evict data.length s.accessOrder.length
    (data,
      { room with
        chunks := room.chunks.insert id data
        accessOrder := room.accessOrder ++ [id]
        currentBytes := room.currentBytes + data.length })

/-- `clear`. -/
def clear : LruState := { s with chunks := ∅, accessOrder := [], currentBytes := 0 }

/-- `chunk_count`. -/
def chunkCount : Nat := s.chunks.entries.length

end LruState

/-- What is done with a cache. -/
inductive CacheCall where
  | get (id : ChunkId)
  | insert (id : ChunkId) (data : Bytes)
  | clear

/-- A cache, and the chunks that were got from it or put into it so far, in order. -/
structure CacheRun where
  cache : LruState
  used : List ChunkId

namespace CacheRun

def step (r : CacheRun) : CacheCall → CacheRun
  | .get id =>
    let (data, cache) := r.cache.get id
    ⟨cache, if data.isSome then r.used ++ [id] else r.used⟩
  | .insert id data => ⟨(r.cache.insert id data).2, r.used ++ [id]⟩
  | .clear => ⟨r.cache.clear, r.used⟩

/-- A new cache, and these calls one after the other. -/
def of (maxBytes : Nat) (calls : List CacheCall) : CacheRun :=
  calls.foldl step ⟨.new maxBytes, []⟩

end CacheRun

end OosLite
