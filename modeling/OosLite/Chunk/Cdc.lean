import OosLite.Lib.Bytes
import OosLite.Lib.FileSystem

/-!
# Content-defined chunking

The chunker of a slice and the chunker of a stream, both around the FastCDC iterator.
-/

namespace OosLite

open Files (IoError)

/-- The minimal, the desired and the maximal size of a chunk. -/
structure ChunkSizes where
  min : Nat
  target : Nat
  max : Nat
  positive : 0 < min
  min_le_target : min ≤ target
  target_le_max : target ≤ max

namespace ChunkSizes

/-- `MIN_CHUNK_SIZE`, `TARGET_CHUNK_SIZE` and `MAX_CHUNK_SIZE`. -/
def standard : ChunkSizes :=
  ⟨16 * 1024, 64 * 1024, 256 * 1024, by decide, by decide, by decide⟩

theorem min_le_max (sizes : ChunkSizes) : sizes.min ≤ sizes.max :=
  Nat.le_trans sizes.min_le_target sizes.target_le_max

theorem max_pos (sizes : ChunkSizes) : 0 < sizes.max :=
  Nat.lt_of_lt_of_le sizes.positive sizes.min_le_max

end ChunkSizes

structure ChunkCut where
  offset : Nat
  length : Nat
  deriving DecidableEq

/-- The fastcdc crate, as far as the chunkers rely on it. -/
structure FastCdc where
  /-- The sizes that `FastCDC::new` accepts. -/
  Accepts : ChunkSizes → Prop
  /-- The length of the first chunk. -/
  cut : ChunkSizes → Bytes → Nat
  /-- What is behind the longest possible chunk does not matter. -/
  cut_take : ∀ sizes data, Accepts sizes → cut sizes (data.take sizes.max) = cut sizes data
  le_cut : ∀ sizes data, Accepts sizes → Nat.min data.length sizes.min ≤ cut sizes data
  cut_le_max : ∀ sizes data, Accepts sizes → cut sizes data ≤ sizes.max
  cut_le_length : ∀ sizes data, Accepts sizes → cut sizes data ≤ data.length

namespace FastCdc

variable (cdc : FastCdc) (sizes : ChunkSizes)

/-- The iterator: the first chunk, and again on the rest. -/
def entries : (fuel : Nat) → (offset : Nat) → Bytes → List ChunkCut
  | 0, _, _ => []
  | fuel + 1, offset, data =>
    if data.isEmpty then []
    else
      let length := cdc.cut sizes data
      ⟨offset, length⟩ :: entries fuel (offset + length) (data.drop length)

/-- All entries of `FastCDC::new`. -/
def iter (data : Bytes) : List ChunkCut := cdc.entries sizes data.length 0 data

end FastCdc

/-- `Chunker`. -/
structure Chunker where
  data : Bytes
  sizes : ChunkSizes

namespace Chunker

variable (cdc : FastCdc) (c : Chunker)

/-- `cuts`. -/
def cuts : List ChunkCut :=
  if c.data.isEmpty then []
  else if c.data.length ≤ c.sizes.min then [⟨0, c.data.length⟩]
  else cdc.iter c.sizes c.data

/-- `chunks`. -/
def chunks : List Bytes :=
  if c.data.isEmpty then []
  else if c.data.length ≤ c.sizes.min then [c.data]
  else (cdc.iter c.sizes c.data).map fun entry => Bytes.slice c.data entry.offset entry.length

end Chunker

/-- `StreamChunker`. -/
structure StreamChunker (ρ : Type) where
  reader : ρ
  buffer : Bytes
  sizes : ChunkSizes
  eofReached : Bool

namespace StreamChunker

variable {ρ : Type}

/-- `with_sizes`. -/
def withSizes (reader : ρ) (sizes : ChunkSizes) : StreamChunker ρ := ⟨reader, [], sizes, false⟩

/-- What is left in the buffer at the end. -/
def takeRest (s : StreamChunker ρ) : Option Bytes × StreamChunker ρ :=
  if s.buffer.isEmpty then (none, s) else (some s.buffer, { s with buffer := [] })

/-- The loop body of `next_chunk` up to where it reads: what it returns, if it does. -/
def takeChunk (cdc : FastCdc) (s : StreamChunker ρ) : Option (Option Bytes × StreamChunker ρ) :=
  if s.buffer.length ≥ s.sizes.max ∨ s.eofReached ∧ s.buffer ≠ [] then
    if s.buffer.length ≤ s.sizes.min ∧ s.eofReached then
      some (some s.buffer, { s with buffer := [] })
    else
      match (cdc.iter s.sizes s.buffer).head? with
      | some entry =>
        some (some (Bytes.slice s.buffer entry.offset entry.length),
          { s with buffer := s.buffer.drop (entry.offset + entry.length) })
      | none => if s.eofReached then some s.takeRest else none
  else if s.eofReached then some s.takeRest
  else none

/-- How much `next_chunk` asks the reader for. -/
def readSize (s : StreamChunker ρ) : Nat := max (s.sizes.max * 2) (512 * 1024)

variable (cdc : FastCdc) (read : Nat → ρ → Except IoError Bytes × ρ)

/-- `next_chunk`, with fuel for its loop. A failed read leaves the room made for it. -/
def nextChunk : (fuel : Nat) → StreamChunker ρ →
    Option (Except IoError (Option Bytes) × StreamChunker ρ)
  | 0, _ => none
  | fuel + 1, s =>
    match s.takeChunk cdc with
    | some (chunk, s) => some (.ok chunk, s)
    | none =>
      match read s.readSize s.reader with
      | (.error e, reader) =>
        some (.error e, { s with reader, buffer := s.buffer ++ List.replicate s.readSize 0 })
      | (.ok bytes, reader) =>
        nextChunk fuel
          { s with reader, buffer := s.buffer ++ bytes, eofReached := bytes.isEmpty }

/-- `next_chunk` until it gives nothing more, at most `count` times. -/
def collect (fuel : Nat) : (count : Nat) → StreamChunker ρ → Option (Except IoError (List Bytes))
  | 0, _ => none
  | count + 1, s =>
    match nextChunk cdc read fuel s with
    | none => none
    | some (.error e, _) => some (.error e)
    | some (.ok none, _) => some (.ok [])
    | some (.ok (some chunk), s) => (collect fuel count s).map fun r => r.map (chunk :: ·)

/-- `next_chunk` until it gives nothing more, also after errors, at most `count` times. -/
def collectPast (fuel : Nat) : (count : Nat) → StreamChunker ρ → Option (List Bytes)
  | 0, _ => none
  | count + 1, s =>
    match nextChunk cdc read fuel s with
    | none => none
    | some (.error _, s) => collectPast fuel count s
    | some (.ok none, _) => some []
    | some (.ok (some chunk), s) => (collectPast fuel count s).map (chunk :: ·)

end StreamChunker

end OosLite
