import OosLite.Chunk.Proofs.Streaming

/-!
# Read errors of a stream

A failed read leaves the room made for it in the buffer, and the chunks go on with its zeros.
-/

namespace OosLite

open Files (IoError)
open FastCdc

/-- A reader, always asked for so much, that gives these bytes in pieces, with this many errors among
them, and then its end. -/
inductive Interrupted {ρ : Type} (read : Nat → ρ → Except IoError Bytes × ρ) (size : Nat) :
    ρ → Nat → Bytes → Prop where
  | eof {r r' : ρ} : read size r = (.ok [], r') → Interrupted read size r 0 []
  | piece {r r' : ρ} {n : Nat} {piece data : Bytes} :
      read size r = (.ok piece, r') → piece ≠ [] → Interrupted read size r' n data →
      Interrupted read size r n (piece ++ data)
  | fails {r r' : ρ} {e : IoError} {n : Nat} {data : Bytes} :
      read size r = (.error e, r') → Interrupted read size r' n data →
      Interrupted read size r (n + 1) data

/-- `out` is `data` with so many runs of zeros in it. -/
inductive Padded (size : Nat) : Nat → Bytes → Bytes → Prop where
  | none : Padded size 0 [] []
  | piece {n : Nat} (piece : Bytes) {data out : Bytes} :
      Padded size n data out → Padded size n (piece ++ data) (piece ++ out)
  | zeros {n : Nat} {data out : Bytes} :
      Padded size n data out → Padded size (n + 1) data (List.replicate size 0 ++ out)

namespace Padded

variable {size n : Nat} {data out : Bytes}

theorem length (padded : Padded size n data out) : out.length = data.length + n * size := by
  induction padded with
  | none => rw [Nat.zero_mul, Nat.add_zero]
  | piece piece padded ih =>
    rw [List.length_append, List.length_append, ih]
    omega
  | zeros padded ih =>
    rw [List.length_append, List.length_replicate, ih, Nat.add_mul]
    omega

theorem eq_of_zero (padded : Padded size n data out) (zero : n = 0) : out = data := by
  induction padded with
  | none => rfl
  | piece piece padded ih => rw [ih zero]
  | zeros padded ih => exact absurd zero (Nat.succ_ne_zero _)

/-- Any run of zeros shows. -/
theorem eq_iff (padded : Padded size n data out) (positive : 0 < size) : out = data ↔ n = 0 := by
  constructor
  · intro same
    have long := padded.length
    rw [same] at long
    have none : n * size = 0 := by omega
    exact (Nat.mul_eq_zero.1 none).resolve_right (Nat.ne_of_gt positive)
  · exact padded.eq_of_zero

end Padded

namespace StreamChunker

variable {ρ : Type} {cdc : FastCdc} {read : Nat → ρ → Except IoError Bytes × ρ}

theorem readSize_pos (s : StreamChunker ρ) : 0 < s.readSize := by
  unfold readSize
  exact Nat.lt_of_lt_of_le (by decide) (Nat.le_max_right _ _)

theorem readSize_eq {s t : StreamChunker ρ} (same : s.sizes = t.sizes) :
    s.readSize = t.readSize := by
  unfold readSize
  rw [same]

/-- What the reader still has, with the number of errors on the way. -/
def Unread (read : Nat → ρ → Except IoError Bytes × ρ) (s : StreamChunker ρ) (n : Nat)
    (unread : Bytes) : Prop :=
  if s.eofReached = true then n = 0 ∧ unread = []
  else Interrupted read s.readSize s.reader n unread

/-- What one call does: nothing is left, or a chunk is taken from the buffer and what was read, or a
read has failed and the zeros are behind what was read. -/
inductive Called (read : Nat → ρ → Except IoError Bytes × ρ) (s : StreamChunker ρ) (n : Nat)
    (unread : Bytes) : Except IoError (Option Bytes) × StreamChunker ρ → Prop where
  | done {t : StreamChunker ρ} : s.buffer = [] → n = 0 → unread = [] →
      Called read s n unread (.ok none, t)
  | chunk {t : StreamChunker ρ} {chunk front rest : Bytes} : chunk ≠ [] → unread = front ++ rest →
      s.buffer ++ front = chunk ++ t.buffer → t.sizes = s.sizes → Unread read t n rest →
      Called read s n unread (.ok (some chunk), t)
  | failed {t : StreamChunker ρ} {e : IoError} {m : Nat} {front rest : Bytes} : n = m + 1 →
      unread = front ++ rest → t.buffer = s.buffer ++ front ++ List.replicate s.readSize 0 →
      t.sizes = s.sizes → Unread read t m rest → Called read s n unread (.error e, t)

/-- A call after something was read is a call. -/
theorem Called.of_read {s t : StreamChunker ρ} {n : Nat} {piece rest : Bytes}
    {result : Except IoError (Option Bytes) × StreamChunker ρ}
    (called : Called read t n rest result) (sizes : t.sizes = s.sizes)
    (buffer : t.buffer = s.buffer ++ piece) : Called read s n (piece ++ rest) result := by
  cases called with
  | done empty none nothing =>
    rw [buffer] at empty
    obtain ⟨before, read⟩ := List.append_eq_nil_iff.1 empty
    exact .done before none (by rw [read, nothing]; rfl)
  | chunk some split taken same unread =>
    rw [buffer, List.append_assoc] at taken
    exact .chunk some (by rw [split, List.append_assoc]) taken (same.trans sizes) unread
  | failed more split zeros same unread =>
    rw [buffer, readSize_eq sizes, List.append_assoc s.buffer] at zeros
    exact .failed more (by rw [split, List.append_assoc]) zeros (same.trans sizes) unread

/-- A call that need not read. -/
theorem called_ready {s : StreamChunker ρ} (accepts : cdc.Accepts s.sizes) {n : Nat}
    {unread : Bytes} (holds : Unread read s n unread) (ready : s.Ready) :
    ∃ result, s.takeChunk cdc = some result ∧
      Called read s n unread (.ok result.1, result.2) := by
  by_cases empty : s.buffer = []
  · have ended : s.eofReached = true := by
      apply ready.resolve_left
      have positive := s.sizes.max_pos
      rw [empty, List.length_nil]
      omega
    unfold Unread at holds
    rw [if_pos ended] at holds
    exact ⟨_, takeChunk_empty empty ended, .done empty holds.1 holds.2⟩
  · have positive := cut_pos accepts empty
    have some : s.buffer.take (cdc.cut s.sizes s.buffer) ≠ [] := by
      intro none
      rcases List.take_eq_nil_iff.1 none with zero | none
      · omega
      · exact empty none
    refine ⟨_, takeChunk_buffer accepts empty ready, ?_⟩
    have whole : s.buffer ++ [] = s.buffer.take (cdc.cut s.sizes s.buffer) ++
        s.buffer.drop (cdc.cut s.sizes s.buffer) := by
      rw [List.append_nil, List.take_append_drop]
    exact .chunk some (List.nil_append _).symm whole rfl holds

/-- `next_chunk` from any state, with fuel for all that is unread. -/
theorem nextChunk_called {s : StreamChunker ρ} (accepts : cdc.Accepts s.sizes) {n : Nat}
    {unread : Bytes} (holds : Unread read s n unread) {fuel : Nat}
    (enough : unread.length + 2 ≤ fuel) :
    ∃ result, nextChunk cdc read fuel s = some result ∧ Called read s n unread result := by
  induction fuel generalizing s n unread with
  | zero => omega
  | succ fuel ih =>
    by_cases ready : s.Ready
    · obtain ⟨result, taken, called⟩ := called_ready accepts holds ready
      rw [nextChunk, taken]
      exact ⟨_, rfl, called⟩
    · have running : s.eofReached = false := by
        unfold Ready at ready
        push Not at ready
        simpa using ready.2
      unfold Unread at holds
      rw [running, if_neg Bool.false_ne_true] at holds
      rw [nextChunk, takeChunk_eq_none ready]
      cases holds with
      | eof answer =>
        -- the loop comes round once more, and need not read again
        rename_i r'
        let t : StreamChunker ρ :=
          { s with reader := r', buffer := s.buffer ++ [], eofReached := true }
        have sizes : t.sizes = s.sizes := rfl
        have holds' : Unread read t 0 [] := ⟨rfl, rfl⟩
        obtain ⟨result, taken, called⟩ := called_ready (s := t) accepts holds' (.inr rfl)
        obtain ⟨fuel, rfl⟩ : ∃ k, fuel = k + 1 := ⟨fuel - 1, by
          rw [List.length_nil] at enough
          omega⟩
        simp only [answer, List.isEmpty_nil]
        rw [nextChunk, taken]
        exact ⟨_, rfl, called.of_read sizes rfl⟩
      | piece answer some later =>
        rename_i r' piece data
        have filled : piece.isEmpty = false := by simpa using some
        let t : StreamChunker ρ :=
          { s with reader := r', buffer := s.buffer ++ piece, eofReached := false }
        have holds' : Unread read t n data := by
          unfold Unread
          rw [if_neg (Bool.false_ne_true : t.eofReached ≠ true)]
          exact later
        have shorter : data.length + 2 ≤ fuel := by
          have long := List.length_pos_iff.2 some
          rw [List.length_append] at enough
          omega
        obtain ⟨result, next, called⟩ := ih (s := t) accepts holds' shorter
        simp only [answer, filled]
        exact ⟨result, next, called.of_read rfl rfl⟩
      | fails answer later =>
        simp only [answer]
        refine ⟨_, rfl, .failed rfl (List.nil_append _).symm ?_ rfl ?_⟩
        · rw [List.append_nil]
        · unfold Unread
          rw [running, if_neg Bool.false_ne_true]
          exact later

/-- All that is given, over the errors: the buffer, and what is unread with its zeros. -/
theorem collectPast_padded {s : StreamChunker ρ} (accepts : cdc.Accepts s.sizes) {n : Nat}
    {unread : Bytes} (holds : Unread read s n unread) {fuel count : Nat}
    (enough : unread.length + 2 ≤ fuel)
    (enough' : s.buffer.length + unread.length + n * (s.readSize + 1) < count) :
    ∃ chunks out, collectPast cdc read fuel count s = some chunks ∧
      chunks.flatten = s.buffer ++ out ∧ Padded s.readSize n unread out := by
  induction count generalizing s n unread with
  | zero => omega
  | succ count ih =>
    obtain ⟨result, next, called⟩ := nextChunk_called accepts holds enough
    unfold collectPast
    rw [next]
    cases called with
    | done empty none nothing =>
      subst none nothing
      exact ⟨[], [], rfl, by rw [empty]; rfl, .none⟩
    | chunk some split taken sizes later =>
      rename_i t chunk front rest
      have size := readSize_eq sizes
      have long := List.length_pos_iff.2 some
      have total : s.buffer.length + front.length = chunk.length + t.buffer.length := by
        rw [← List.length_append, taken, List.length_append]
      subst split
      rw [List.length_append] at enough enough'
      obtain ⟨chunks, out, rest', joined, padded⟩ :=
        ih (s := t) (by rw [sizes]; exact accepts) later (by omega) (by rw [size]; omega)
      refine ⟨chunk :: chunks, front ++ out, ?_, ?_, ?_⟩
      · simp only [rest', Option.map_some]
      · rw [List.flatten_cons, joined, ← List.append_assoc, ← taken, List.append_assoc]
      · rw [size] at padded
        exact padded.piece front
    | failed more split zeros sizes later =>
      rename_i t e m front rest
      have size := readSize_eq sizes
      have total : t.buffer.length = s.buffer.length + front.length + s.readSize := by
        rw [zeros, List.length_append, List.length_append, List.length_replicate]
      subst more split
      rw [List.length_append, Nat.add_mul] at enough'
      rw [List.length_append] at enough
      obtain ⟨chunks, out, rest', joined, padded⟩ :=
        ih (s := t) (by rw [sizes]; exact accepts) later (by omega) (by rw [size]; omega)
      refine ⟨chunks, front ++ (List.replicate s.readSize 0 ++ out), rest', ?_, ?_⟩
      · rw [joined, zeros, List.append_assoc, List.append_assoc]
      · rw [size] at padded
        exact padded.zeros.piece front

end StreamChunker

/-- All chunks of a new stream. -/
theorem collectPast_withSizes {ρ : Type} {cdc : FastCdc} {sizes : ChunkSizes}
    {read : Nat → ρ → Except IoError Bytes × ρ} {reader : ρ} {errors : Nat} {data : Bytes}
    (accepts : cdc.Accepts sizes)
    (interrupted : Interrupted read (StreamChunker.withSizes reader sizes).readSize reader errors
      data) :
    ∃ enough, ∀ fuel ≥ enough, ∀ count ≥ enough, ∃ chunks,
      (StreamChunker.withSizes reader sizes).collectPast cdc read fuel count = some chunks ∧
      Padded (StreamChunker.withSizes reader sizes).readSize errors data chunks.flatten := by
  have start : StreamChunker.Unread read (StreamChunker.withSizes reader sizes) errors data := by
    unfold StreamChunker.Unread
    exact interrupted
  let size := (StreamChunker.withSizes reader sizes).readSize
  refine ⟨data.length + errors * (size + 1) + 2, fun fuel hfuel count hcount => ?_⟩
  have total : ([] : Bytes).length + data.length + errors * (size + 1) < count := by
    rw [List.length_nil]
    omega
  obtain ⟨chunks, out, collected, joined, padded⟩ :=
    StreamChunker.collectPast_padded accepts start (Nat.le_trans (by omega) hfuel) total
  rw [← List.nil_append out] at padded
  exact ⟨chunks, collected, joined ▸ padded⟩

/-- Going on after errors gives the delivered bytes if and only if there were none. -/
theorem stream_past_errors {ρ : Type} (cdc : FastCdc) (sizes : ChunkSizes)
    (read : Nat → ρ → Except IoError Bytes × ρ) (reader : ρ) (errors : Nat) (data : Bytes)
    (accepts : cdc.Accepts sizes)
    (interrupted : Interrupted read (StreamChunker.withSizes reader sizes).readSize reader errors
      data) :
    ∃ enough, ∀ fuel ≥ enough, ∀ count ≥ enough, ∃ chunks,
      (StreamChunker.withSizes reader sizes).collectPast cdc read fuel count = some chunks ∧
      (chunks.flatten = data ↔ errors = 0) := by
  obtain ⟨enough, all⟩ := collectPast_withSizes accepts interrupted
  refine ⟨enough, fun fuel hfuel count hcount => ?_⟩
  obtain ⟨chunks, collected, padded⟩ := all fuel hfuel count hcount
  exact ⟨chunks, collected, padded.eq_iff (StreamChunker.readSize_pos _)⟩

namespace ChunkSample

/-- A reader of pieces and errors, in this order. -/
def readEvents (_ : Nat) : List (Except IoError Bytes) →
    Except IoError Bytes × List (Except IoError Bytes)
  | [] => (.ok [], [])
  | event :: events => (event, events)

/-- One read fails, and the next one gives everything. -/
def retried : List (Except IoError Bytes) := [.error .other, .ok [1, 2, 3]]

theorem interrupted_retried (size : Nat) : Interrupted readEvents size retried 1 [1, 2, 3] := by
  have pieces : Interrupted readEvents size [.ok [1, 2, 3]] 0 ([1, 2, 3] ++ []) :=
    .piece rfl (List.cons_ne_nil _ _) (.eof rfl)
  exact .fails rfl pieces

end ChunkSample

open ChunkSample in
theorem stream_past_errors_retried :
    ∃ enough, ∀ fuel ≥ enough, ∀ count ≥ enough, ∃ chunks,
      (StreamChunker.withSizes retried ChunkSizes.standard).collectPast ChunkSample.cdc readEvents
        fuel count = some chunks ∧
      (chunks.flatten = [1, 2, 3] ↔ 1 = 0) :=
  stream_past_errors ChunkSample.cdc ChunkSizes.standard readEvents retried 1 [1, 2, 3] trivial
    (interrupted_retried _)

open ChunkSample in
/-- However often it is called, the chunks are not what the reader delivered. -/
theorem retried_read_pads :
    ∃ enough, ∀ fuel ≥ enough, ∀ count ≥ enough, ∃ chunks,
      (StreamChunker.withSizes retried ChunkSizes.standard).collectPast ChunkSample.cdc readEvents
        fuel count = some chunks ∧ chunks.flatten ≠ [1, 2, 3] := by
  have accepts : ChunkSample.cdc.Accepts ChunkSizes.standard := trivial
  obtain ⟨enough, all⟩ := collectPast_withSizes accepts (interrupted_retried _)
  refine ⟨enough, fun fuel hfuel count hcount => ?_⟩
  obtain ⟨chunks, collected, padded⟩ := all fuel hfuel count hcount
  refine ⟨chunks, collected, fun same => ?_⟩
  have none := (padded.eq_iff (StreamChunker.readSize_pos _)).1 same
  exact absurd none Nat.one_ne_zero

end OosLite
