import OosLite.Chunk.Cdc
import OosLite.Engine.Put

/-!
# Chunking a stream

Whatever pieces a reader delivers, the chunks of the stream are those of the whole slice.
-/

namespace OosLite

open Files (IoError)

/-- A reader that gives these bytes in pieces that are not empty, and then its end. -/
inductive Delivers {ρ : Type} (read : Nat → ρ → Except IoError Bytes × ρ) : ρ → Bytes → Prop where
  | eof {r : ρ} (next : Nat → ρ) :
      (∀ size, 0 < size → read size r = (.ok [], next size)) → Delivers read r []
  | piece {r : ρ} {data : Bytes} (piece : Nat → Bytes) (next : Nat → ρ) :
      (∀ size, 0 < size → read size r = (.ok (piece size), next size) ∧ piece size ≠ [] ∧
        (piece size).length ≤ size ∧ piece size <+: data) →
      (∀ size, 0 < size → Delivers read (next size) (data.drop (piece size).length)) →
      Delivers read r data

/-- The reader of a list of pieces, which gives a piece, or as much of it as is asked for. -/
def readPieces (size : Nat) : List Bytes → Except IoError Bytes × List Bytes
  | [] => (.ok [], [])
  | piece :: pieces =>
    (.ok (piece.take size), if piece.length ≤ size then pieces else piece.drop size :: pieces)

/-- Pieces of any sizes are delivered. -/
theorem delivers_readPieces {pieces : List Bytes} (nonempty : ∀ piece ∈ pieces, piece ≠ []) :
    Delivers readPieces pieces pieces.flatten := by
  induction hn : pieces.flatten.length using Nat.strongRecOn generalizing pieces with
  | ind n ih =>
    cases pieces with
    | nil => exact .eof (fun _ => []) fun size _ => rfl
    | cons piece pieces =>
      have first := nonempty piece List.mem_cons_self
      have long := List.length_pos_iff.2 first
      have others : ∀ p ∈ pieces, p ≠ [] := fun p hp => nonempty p (List.mem_cons_of_mem piece hp)
      rw [List.flatten_cons, List.length_append] at hn
      apply Delivers.piece (fun size => piece.take size)
        (fun size => if piece.length ≤ size then pieces else piece.drop size :: pieces)
      · intro size positive
        refine ⟨rfl, fun empty => ?_, List.length_take_le _ _, ?_⟩
        · rw [List.take_eq_nil_iff] at empty
          rcases empty with none | none
          · omega
          · exact first none
        · rw [List.flatten_cons]
          exact (List.take_prefix size piece).trans (List.prefix_append _ _)
      · intro size positive
        rw [List.flatten_cons, List.length_take]
        by_cases all : piece.length ≤ size
        · rw [if_pos all, Nat.min_eq_right all, List.drop_left]
          exact ih _ (by omega) others rfl
        · rw [if_neg all, Nat.min_eq_left (by omega), List.drop_append_of_le_length (by omega)]
          have left : ∀ p ∈ piece.drop size :: pieces, p ≠ [] := by
            intro p hp
            rcases List.mem_cons.1 hp with rfl | hp
            · intro empty
              rw [List.drop_eq_nil_iff] at empty
              omega
            · exact others p hp
          have shorter : (piece.drop size :: pieces).flatten.length < n := by
            rw [List.flatten_cons, List.length_append, List.length_drop]
            omega
          exact ih _ shorter left rfl

namespace FastCdc

variable {cdc : FastCdc} {sizes : ChunkSizes}

/-- The chunks of the iterator: the first chunk, and those of the rest. -/
def pieces (cdc : FastCdc) (sizes : ChunkSizes) : (fuel : Nat) → Bytes → List Bytes
  | 0, _ => []
  | fuel + 1, data =>
    if data.isEmpty then []
    else data.take (cdc.cut sizes data) :: pieces cdc sizes fuel (data.drop (cdc.cut sizes data))

theorem map_entries (fuel offset : Nat) (whole : Bytes) :
    (cdc.entries sizes fuel offset (whole.drop offset)).map
        (fun entry => Bytes.slice whole entry.offset entry.length) =
      cdc.pieces sizes fuel (whole.drop offset) := by
  induction fuel generalizing offset with
  | zero => rfl
  | succ fuel ih =>
    unfold entries pieces
    by_cases empty : (whole.drop offset).isEmpty = true
    · rw [if_pos empty, if_pos empty]
      rfl
    · rw [if_neg empty, if_neg empty]
      simp only [List.map_cons, List.drop_drop]
      rw [ih]
      rfl

/-- A chunk of something is not empty. -/
theorem cut_pos (accepts : cdc.Accepts sizes) {data : Bytes} (nonempty : data ≠ []) :
    0 < cdc.cut sizes data := by
  have lower := cdc.le_cut sizes data accepts
  have long := List.length_pos_iff.2 nonempty
  have positive := sizes.positive
  exact Nat.lt_of_lt_of_le (Nat.lt_min.2 ⟨long, positive⟩) lower

/-- What is no longer than a minimal chunk is one chunk. -/
theorem cut_eq_length (accepts : cdc.Accepts sizes) {data : Bytes}
    (short : data.length ≤ sizes.min) : cdc.cut sizes data = data.length := by
  have lower := cdc.le_cut sizes data accepts
  have upper := cdc.cut_le_length sizes data accepts
  have same : Nat.min data.length sizes.min = data.length := Nat.min_eq_left short
  omega

/-- The first chunk is found in any front that is long enough. -/
theorem cut_append (accepts : cdc.Accepts sizes) {front rest : Bytes}
    (long : sizes.max ≤ front.length) :
    cdc.cut sizes (front ++ rest) = cdc.cut sizes front := by
  rw [← cdc.cut_take sizes (front ++ rest) accepts, ← cdc.cut_take sizes front accepts,
    List.take_append_of_le_length long]

theorem head?_iter {data : Bytes} (nonempty : data ≠ []) :
    (cdc.iter sizes data).head? = some ⟨0, cdc.cut sizes data⟩ := by
  unfold iter
  cases data with
  | nil => exact absurd rfl nonempty
  | cons b bs =>
    rw [List.length_cons, entries, if_neg (by simp)]
    rfl

/-- The number of chunks is no bound to what the iterator gives. -/
theorem pieces_fuel (accepts : cdc.Accepts sizes) {fuel : Nat} {data : Bytes}
    (enough : data.length ≤ fuel) :
    cdc.pieces sizes fuel data = cdc.pieces sizes data.length data := by
  induction hn : data.length using Nat.strongRecOn generalizing data fuel with
  | ind n ih =>
    cases data with
    | nil =>
      subst hn
      cases fuel <;> rfl
    | cons b bs =>
      have positive := cut_pos accepts (List.cons_ne_nil b bs)
      have size : n = bs.length + 1 := hn.symm
      obtain ⟨fuel, rfl⟩ : ∃ k, fuel = k + 1 := ⟨fuel - 1, by omega⟩
      subst size
      have shorter : ((b :: bs).drop (cdc.cut sizes (b :: bs))).length < bs.length + 1 := by
        rw [List.length_drop, List.length_cons]
        omega
      have enough' : ((b :: bs).drop (cdc.cut sizes (b :: bs))).length ≤ fuel := by
        rw [List.length_cons] at enough
        omega
      have left := ih _ shorter enough' rfl
      have right := ih _ shorter (Nat.le_of_lt_succ shorter) rfl
      unfold pieces
      rw [if_neg (by simp), if_neg (by simp), left, right]

/-- All chunks of some data. -/
def split (cdc : FastCdc) (sizes : ChunkSizes) (data : Bytes) : List Bytes :=
  cdc.pieces sizes data.length data

@[simp] theorem split_nil : cdc.split sizes [] = [] := rfl

theorem split_cons (accepts : cdc.Accepts sizes) {data : Bytes} (nonempty : data ≠ []) :
    cdc.split sizes data =
      data.take (cdc.cut sizes data) :: cdc.split sizes (data.drop (cdc.cut sizes data)) := by
  have positive := cut_pos accepts nonempty
  have long := List.length_pos_iff.2 nonempty
  have shorter : (data.drop (cdc.cut sizes data)).length ≤ data.length - 1 := by
    rw [List.length_drop]
    omega
  obtain ⟨n, size⟩ : ∃ n, data.length = n + 1 := ⟨data.length - 1, by omega⟩
  have rest : cdc.pieces sizes n (data.drop (cdc.cut sizes data)) =
      cdc.pieces sizes (data.drop (cdc.cut sizes data)).length (data.drop (cdc.cut sizes data)) :=
    pieces_fuel accepts (by omega)
  unfold split
  rw [size, pieces, if_neg (by simpa using nonempty), rest]

/-- The chunks make up the data, none is longer than the maximum, and all but the last are at least
of the minimal size. -/
structure IsChunking (sizes : ChunkSizes) (data : Bytes) (chunks : List Bytes) : Prop where
  flatten : chunks.flatten = data
  max : ∀ chunk ∈ chunks, chunk.length ≤ sizes.max
  min : ∀ chunk ∈ chunks.dropLast, sizes.min ≤ chunk.length

theorem isChunking_split (accepts : cdc.Accepts sizes) (data : Bytes) :
    IsChunking sizes data (cdc.split sizes data) := by
  induction hn : data.length using Nat.strongRecOn generalizing data with
  | ind n ih =>
    by_cases empty : data = []
    · subst empty
      exact ⟨rfl, nofun, nofun⟩
    have positive := cut_pos accepts empty
    have within := cdc.cut_le_length sizes data accepts
    have shorter : (data.drop (cdc.cut sizes data)).length < n := by
      rw [List.length_drop]
      omega
    have later := ih _ shorter (data.drop (cdc.cut sizes data)) rfl
    have size : (data.take (cdc.cut sizes data)).length = cdc.cut sizes data := by
      rw [List.length_take, Nat.min_eq_left within]
    rw [split_cons accepts empty]
    refine ⟨?_, ?_, ?_⟩
    · rw [List.flatten_cons, later.flatten, List.take_append_drop]
    · intro chunk there
      rcases List.mem_cons.1 there with rfl | there
      · rw [size]
        exact cdc.cut_le_max sizes data accepts
      · exact later.max chunk there
    · intro chunk there
      by_cases last : data.drop (cdc.cut sizes data) = []
      · rw [last, split_nil] at there
        cases there
      · -- something is left behind the first chunk, so it is not the short end of the data
        have lower := cdc.le_cut sizes data accepts
        have long : ¬ data.length ≤ sizes.min := by
          intro short
          apply last
          rw [cut_eq_length accepts short, List.drop_length]
        have same : Nat.min data.length sizes.min = sizes.min := Nat.min_eq_right (by omega)
        rw [split_cons accepts last, List.dropLast_cons_cons, ← split_cons accepts last] at there
        rcases List.mem_cons.1 there with rfl | there
        · rw [size]
          omega
        · exact later.min chunk there

end FastCdc

open FastCdc

/-- The slice chunker gives the chunks of the iterator, short data included. -/
theorem Chunker.chunks_eq {cdc : FastCdc} {sizes : ChunkSizes} (accepts : cdc.Accepts sizes)
    (data : Bytes) : (Chunker.mk data sizes).chunks cdc = cdc.split sizes data := by
  unfold Chunker.chunks
  simp only
  by_cases empty : data.isEmpty = true
  · rw [if_pos empty]
    have none : data = [] := by simpa using empty
    subst none
    rfl
  rw [if_neg empty]
  by_cases short : data.length ≤ sizes.min
  · rw [if_pos short, split_cons accepts (by simpa using empty), cut_eq_length accepts short,
      List.take_length, List.drop_length]
    rfl
  · rw [if_neg short]
    have all := @map_entries cdc sizes data.length 0 data
    rw [List.drop_zero] at all
    exact all

/-- The slices of the cuts are the chunks. -/
theorem Chunker.chunks_eq_map_cuts (cdc : FastCdc) (c : Chunker) :
    c.chunks cdc = (c.cuts cdc).map fun cut => Bytes.slice c.data cut.offset cut.length := by
  unfold Chunker.chunks Chunker.cuts
  by_cases empty : c.data.isEmpty = true
  · rw [if_pos empty, if_pos empty]
    rfl
  rw [if_neg empty, if_neg empty]
  by_cases short : c.data.length ≤ c.sizes.min
  · rw [if_pos short, if_pos short, List.map_singleton, Bytes.slice, List.drop_zero,
      List.take_length]
  · rw [if_neg short, if_neg short]

namespace StreamChunker

variable {ρ : Type} {cdc : FastCdc} {read : Nat → ρ → Except IoError Bytes × ρ}

/-- What is still to come: the buffer, and what the reader has, if it has not come to its end. -/
structure Holds (read : Nat → ρ → Except IoError Bytes × ρ) (s : StreamChunker ρ)
    (data unread : Bytes) : Prop where
  eq_append : data = s.buffer ++ unread
  reader : if s.eofReached = true then unread = [] else Delivers read s.reader unread

/-- There is no need to read. -/
def Ready (s : StreamChunker ρ) : Prop := s.sizes.max ≤ s.buffer.length ∨ s.eofReached = true

theorem takeChunk_eq_none {s : StreamChunker ρ} (notReady : ¬ s.Ready) :
    s.takeChunk cdc = none := by
  unfold Ready at notReady
  push Not at notReady
  have running : s.eofReached = false := by simpa using notReady.2
  have short : ¬ (s.buffer.length ≥ s.sizes.max ∨ s.eofReached ∧ s.buffer ≠ []) := by
    rw [running]
    intro h
    rcases h with long | ended
    · exact absurd long (Nat.not_le.2 notReady.1)
    · exact absurd ended.1 Bool.false_ne_true
  unfold takeChunk
  rw [if_neg short, running]
  rfl

/-- With nothing left there is nothing to take. -/
theorem takeChunk_empty {s : StreamChunker ρ} (empty : s.buffer = []) (ended : s.eofReached = true) :
    s.takeChunk cdc = some (none, s) := by
  have positive := s.sizes.max_pos
  have none : ¬ (s.buffer.length ≥ s.sizes.max ∨ s.eofReached ∧ s.buffer ≠ []) := by
    rw [empty, List.length_nil]
    intro h
    rcases h with long | h
    · omega
    · exact h.2 rfl
  unfold takeChunk takeRest
  rw [if_neg none, if_pos ended, empty]
  rfl

/-- What the iterator gives first is taken from the buffer. -/
theorem takeChunk_buffer {s : StreamChunker ρ} (accepts : cdc.Accepts s.sizes)
    (nonempty : s.buffer ≠ []) (ready : s.Ready) :
    s.takeChunk cdc = some (some (s.buffer.take (cdc.cut s.sizes s.buffer)),
      { s with buffer := s.buffer.drop (cdc.cut s.sizes s.buffer) }) := by
  have there : s.buffer.length ≥ s.sizes.max ∨ s.eofReached ∧ s.buffer ≠ [] := by
    rcases ready with long | ended
    · exact .inl long
    · exact .inr ⟨ended, nonempty⟩
  unfold takeChunk
  rw [if_pos there]
  by_cases short : s.buffer.length ≤ s.sizes.min ∧ s.eofReached
  · rw [if_pos short, cut_eq_length accepts short.1, List.take_length, List.drop_length]
  · rw [if_neg short, head?_iter nonempty]
    simp only [Bytes.slice, List.drop_zero, Nat.zero_add]

/-- What is taken without reading is the first chunk of all that is to come. -/
theorem takeChunk_ready {s : StreamChunker ρ} (accepts : cdc.Accepts s.sizes)
    {data unread : Bytes} (holds : Holds read s data unread) (ready : s.Ready)
    (nonempty : data ≠ []) :
    ∃ s', s.takeChunk cdc = some (some (data.take (cdc.cut s.sizes data)), s') ∧
      s'.sizes = s.sizes ∧ Holds read s' (data.drop (cdc.cut s.sizes data)) unread := by
  obtain ⟨split, reader⟩ := holds
  have inner : s.buffer ≠ [] ∧ cdc.cut s.sizes data = cdc.cut s.sizes s.buffer := by
    cases ended : s.eofReached with
    | true =>
      rw [if_pos ended] at reader
      rw [reader, List.append_nil] at split
      rw [← split]
      exact ⟨nonempty, rfl⟩
    | false =>
      have long := ready.resolve_right (by rw [ended]; exact Bool.false_ne_true)
      rw [split]
      refine ⟨fun empty => ?_, cut_append accepts long⟩
      have positive := s.sizes.max_pos
      rw [empty, List.length_nil] at long
      omega
  obtain ⟨filled, same⟩ := inner
  have within := cdc.cut_le_length s.sizes s.buffer accepts
  refine ⟨{ s with buffer := s.buffer.drop (cdc.cut s.sizes s.buffer) },
    (takeChunk_buffer accepts filled ready).trans ?_, rfl, ?_, reader⟩
  · rw [same, split, List.take_append_of_le_length within]
  · rw [same, split, List.drop_append_of_le_length within]

/-- `next_chunk` gives the first chunk of what is to come, or nothing if nothing is to come. -/
theorem nextChunk_holds {s : StreamChunker ρ} (accepts : cdc.Accepts s.sizes)
    {data unread : Bytes} (holds : Holds read s data unread) {fuel : Nat}
    (enough : unread.length + 2 ≤ fuel) :
    if data = [] then ∃ s', nextChunk cdc read fuel s = some (.ok none, s')
    else ∃ s' unread', nextChunk cdc read fuel s =
        some (.ok (some (data.take (cdc.cut s.sizes data))), s') ∧ s'.sizes = s.sizes ∧
      Holds read s' (data.drop (cdc.cut s.sizes data)) unread' ∧ unread'.length ≤ unread.length := by
  induction fuel generalizing s unread with
  | zero => omega
  | succ fuel ih =>
    by_cases ready : s.Ready
    · by_cases empty : data = []
      · subst empty
        have none := List.append_eq_nil_iff.1 holds.eq_append.symm
        have ended : s.eofReached = true := by
          apply ready.resolve_left
          have positive := s.sizes.max_pos
          rw [none.1, List.length_nil]
          omega
        rw [if_pos rfl, nextChunk, takeChunk_empty none.1 ended]
        exact ⟨s, rfl⟩
      · obtain ⟨s', taken, sizes, holds'⟩ := takeChunk_ready accepts holds ready empty
        rw [if_neg empty, nextChunk, taken]
        exact ⟨s', unread, rfl, sizes, holds', Nat.le_refl _⟩
    · -- one read: a piece of what is unread, or the end
      have running : s.eofReached = false := by
        unfold Ready at ready
        push Not at ready
        simpa using ready.2
      have positive : 0 < s.readSize := by
        unfold readSize
        exact Nat.lt_of_lt_of_le (by decide) (Nat.le_max_right _ _)
      obtain ⟨split, reader⟩ := holds
      rw [running, if_neg Bool.false_ne_true] at reader
      rw [nextChunk, takeChunk_eq_none ready]
      cases reader with
      | eof next ends =>
        simp only [ends _ positive, List.append_nil, List.isEmpty_nil]
        have fuel' : ([] : Bytes).length + 2 ≤ fuel + 1 := enough
        cases fuel with
        | zero => exact absurd enough (by simp)
        | succ fuel =>
          obtain ⟨t, ht⟩ : ∃ t, t = { s with reader := next s.readSize, eofReached := true } := ⟨_, rfl⟩
          have sizes : t.sizes = s.sizes := by rw [ht]
          have now : Holds read t data [] := by
            rw [ht]
            exact ⟨split, by rw [if_pos rfl]⟩
          have ended : t.eofReached = true := by rw [ht]
          rw [← ht, ← sizes]
          rw [← sizes] at accepts
          by_cases empty : data = []
          · subst empty
            have none := (List.append_eq_nil_iff.1 now.eq_append.symm).1
            rw [if_pos rfl, nextChunk, takeChunk_empty none ended]
            exact ⟨t, rfl⟩
          · obtain ⟨s', taken, sizes', holds'⟩ := takeChunk_ready accepts now (.inr ended) empty
            rw [if_neg empty, nextChunk, taken]
            exact ⟨s', [], rfl, sizes', holds', Nat.le_refl _⟩
      | piece piece next gives later =>
        obtain ⟨answer, some, -, part⟩ := gives _ positive
        obtain ⟨rest, split'⟩ := part
        have more := later _ positive
        rw [← split', List.drop_left] at more
        have filled : (piece s.readSize).isEmpty = false := by simpa using some
        obtain ⟨t, ht⟩ : ∃ t, t = { s with
            reader := next s.readSize, buffer := s.buffer ++ piece s.readSize,
            eofReached := false } := ⟨_, rfl⟩
        have sizes : t.sizes = s.sizes := by rw [ht]
        have now : Holds read t data rest := by
          rw [ht]
          refine ⟨?_, by rw [if_neg Bool.false_ne_true]; exact more⟩
          rw [split, ← split', List.append_assoc]
        have shorter : rest.length + 2 ≤ fuel := by
          have := List.length_pos_iff.2 some
          rw [← split', List.length_append] at enough
          omega
        have next := ih (s := t) (by rw [sizes]; exact accepts) now shorter
        simp only [answer, filled]
        rw [← ht, ← sizes]
        by_cases empty : data = []
        · rw [if_pos empty] at next ⊢
          exact next
        · rw [if_neg empty] at next ⊢
          obtain ⟨s', unread', taken, sizes', holds', le⟩ := next
          refine ⟨s', unread', taken, sizes', holds', Nat.le_trans le ?_⟩
          rw [← split', List.length_append]
          omega

/-- All chunks of what is to come. -/
theorem collect_holds {s : StreamChunker ρ} (accepts : cdc.Accepts s.sizes) {data unread : Bytes}
    (holds : Holds read s data unread) {fuel count : Nat} (enough : unread.length + 2 ≤ fuel)
    (enough' : data.length < count) :
    collect cdc read fuel count s = some (.ok (cdc.split s.sizes data)) := by
  induction count generalizing s data unread with
  | zero => omega
  | succ count ih =>
    have next := nextChunk_holds accepts holds enough
    unfold collect
    by_cases empty : data = []
    · rw [if_pos empty] at next
      obtain ⟨s', taken⟩ := next
      rw [taken, empty]
      rfl
    · rw [if_neg empty] at next
      obtain ⟨s', unread', taken, sizes, holds', le⟩ := next
      have positive := cut_pos accepts empty
      have shorter : (data.drop (cdc.cut s.sizes data)).length < count := by
        have long := List.length_pos_iff.2 empty
        rw [List.length_drop]
        omega
      have rest := ih (by rw [sizes]; exact accepts) holds' (by omega) shorter
      rw [taken]
      simp only [rest, sizes]
      rw [split_cons accepts empty]
      rfl

end StreamChunker

/-- The engine stores a file as the chunks of its stream. -/
theorem chunksOf_eq_split {env : Env} {cdc : FastCdc} (accepts : cdc.Accepts ChunkSizes.standard)
    (same : ∀ data, cdc.cut ChunkSizes.standard data = env.fastcdc data) (data : Bytes) :
    chunksOf env data = cdc.split ChunkSizes.standard data := by
  have next : ∀ data, nextChunkLen env data = cdc.cut ChunkSizes.standard data := by
    intro data
    unfold nextChunkLen
    by_cases short : data.length ≤ minChunkSize
    · rw [if_pos short, cut_eq_length accepts short]
    · rw [if_neg short, same]
  have loop : ∀ fuel data, chunkLoop env fuel data = cdc.pieces ChunkSizes.standard fuel data := by
    intro fuel data
    fun_induction chunkLoop env fuel data with
    | case1 => rfl
    | case2 fuel => rfl
    | case3 fuel data nonempty ih =>
      unfold pieces
      rw [if_neg (by simpa using nonempty), ih, next]
  exact loop data.length data

/-- From any reader that delivers the data, the stream chunker gives the chunks of the slice chunker
and then nothing more; they make up the data and keep to the sizes. -/
theorem stream_chunks {ρ : Type} (cdc : FastCdc) (sizes : ChunkSizes)
    (read : Nat → ρ → Except IoError Bytes × ρ) (reader : ρ) (data : Bytes)
    (accepts : cdc.Accepts sizes) (delivers : Delivers read reader data) :
    (∃ enough, ∀ fuel ≥ enough, ∀ count ≥ enough,
      (StreamChunker.withSizes reader sizes).collect cdc read fuel count =
        some (.ok ((Chunker.mk data sizes).chunks cdc))) ∧
    IsChunking sizes data ((Chunker.mk data sizes).chunks cdc) := by
  have start : StreamChunker.Holds read (StreamChunker.withSizes reader sizes) data data :=
    ⟨rfl, delivers⟩
  rw [Chunker.chunks_eq accepts]
  refine ⟨⟨data.length + 2, fun fuel hfuel count hcount => ?_⟩, isChunking_split accepts data⟩
  exact StreamChunker.collect_holds accepts start hfuel (by omega)

namespace ChunkSample

/-- A cutter that makes one chunk of what is no longer than a minimal one. -/
def cdc : FastCdc where
  Accepts _ := True
  cut sizes data := Nat.min data.length sizes.max
  cut_take sizes data _ := by
    rw [List.length_take]
    exact Nat.min_eq_left (Nat.le_trans (Nat.min_le_left _ _) (Nat.le_refl _)) |>.trans
      (Nat.min_comm _ _)
  le_cut sizes data _ := by
    have le := sizes.min_le_max
    exact Nat.le_min.2 ⟨Nat.min_le_left _ _, Nat.le_trans (Nat.min_le_right _ _) le⟩
  cut_le_max sizes data _ := Nat.min_le_right _ _
  cut_le_length sizes data _ := Nat.min_le_left _ _

end ChunkSample

theorem stream_chunks_pieces :
    (∃ enough, ∀ fuel ≥ enough, ∀ count ≥ enough,
      (StreamChunker.withSizes [[1], [2, 3]] ChunkSizes.standard).collect ChunkSample.cdc readPieces
        fuel count = some (.ok ((Chunker.mk [1, 2, 3] ChunkSizes.standard).chunks ChunkSample.cdc))) ∧
    IsChunking ChunkSizes.standard [1, 2, 3]
      ((Chunker.mk [1, 2, 3] ChunkSizes.standard).chunks ChunkSample.cdc) :=
  stream_chunks ChunkSample.cdc ChunkSizes.standard readPieces [[1], [2, 3]] [1, 2, 3] trivial
    (delivers_readPieces (by decide))

end OosLite
