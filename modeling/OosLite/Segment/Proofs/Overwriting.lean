import OosLite.Segment.Proofs.FailedWrites

/-!
# A put that starts a segment file over

`rotate` opens the file of the next number without emptying it. Whatever is in that file, the chunk
that is put there is read back.
-/

namespace OosLite

open Files Effect SegmentStore

variable {env : Env} {side : Side} {s t : SegState} {path : SegPath} {base new bytes : Bytes}
  {start : Nat}

/-- Of these bytes, written over what a file had from a position on, the front is in the file and the
rest in the buffer of the writer. -/
structure Over (side : Side) (s : SegState) (path : SegPath) (base : Bytes) (start : Nat)
    (new written rest : Bytes) (t : SegState) : Prop where
  split : new = written ++ rest
  file : ∃ durable, t.fs.file path = some ⟨durable, Bytes.writeAt base start written⟩
  cursor : t.fs.cursor path = start + written.length
  mem : t.mem = s.mem.setWriter side { s.mem.writer side with buffer := rest }

namespace Over

theorem writer {written rest : Bytes} (h : Over side s path base start new written rest t) :
    t.mem.writer side = { s.mem.writer side with buffer := rest } := by
  rw [h.mem, setWriter_writer, if_pos rfl]

/-- Some bytes have gone to the file. -/
theorem wrote {written : Bytes} (h : Over side s path base start new written [] t)
    (long : start ≤ base.length) (more : Bytes) {f : File} (hf : t.fs.file path = some f) :
    Over side s path base start (new ++ more) (written ++ more) []
      (t.withFs (t.fs.wrote path f more)) := by
  obtain ⟨durable, there⟩ := h.file
  obtain rfl := Option.some.inj (hf.symm.trans there)
  refine ⟨?_, ⟨durable, ?_⟩, ?_, h.mem⟩
  · rw [h.split, List.append_nil, List.append_nil]
  · rw [Proc.withFs_fs, Fs.file_wrote, if_pos rfl, h.cursor, Bytes.writeAt_writeAt long]
  · rw [Proc.withFs_fs, Fs.cursor_wrote, if_pos rfl, h.cursor, List.length_append, Nat.add_assoc]

variable {written rest : Bytes} (own : (s.mem.writer side).path = path) (long : start ≤ base.length)
include own long

theorem safe_flush (segment : path ≠ .marker) (h : Over side s path base start new written rest t) :
    Safe steady (fun r u => r = .ok () ∧ Over side s path base start new new [] u) (fun _ => True)
      (SegmentWriter.flush side) t := by
  obtain ⟨durable, there⟩ := h.file
  rw [SegmentWriter.flush, safe_bind, safe_get, thenSafe_ok, h.writer]
  apply safe_when
  swap
  · intro empty
    have none : rest = [] := not_not.1 empty
    have all : new = written := by rw [h.split, none, List.append_nil]
    rw [none, ← all] at h
    exact ⟨rfl, h⟩
  intro _
  rw [show SegmentWriter.path { s.mem.writer side with buffer := rest } = path from own, safe_bind]
  apply safe_writeSome (counted_of_tidy tidy_steady) segment there (fun _ _ => trivial)
  intro count enough
  obtain rfl : count = rest.length := enough.resolve_right fun h => h.1
  rw [thenSafe_ok, safe_bind, safe_set, thenSafe_ok, Prog.when, if_neg (Nat.lt_irrefl _),
    List.take_length, List.drop_length]
  refine ⟨rfl, (List.append_nil _).symm, ⟨durable, ?_⟩, ?_, ?_⟩
  · rw [Proc.withMem_fs, Proc.withFs_fs, Fs.file_wrote, if_pos rfl, h.cursor,
      Bytes.writeAt_writeAt long, ← h.split]
  · rw [Proc.withMem_fs, Proc.withFs_fs, Fs.cursor_wrote, if_pos rfl, h.cursor, h.split,
      List.length_append, Nat.add_assoc]
  · simp [h.mem]

theorem safe_bufferedWrite (segment : path ≠ .marker)
    (h : Over side s path base start new written rest t) :
    Safe steady
      (fun r u => r = .ok () ∧ ∃ written' rest',
        Over side s path base start (new ++ bytes) written' rest' u)
      (fun _ => True) (SegmentWriter.bufferedWrite side bytes) t := by
  rw [SegmentWriter.bufferedWrite, safe_bind, safe_get, thenSafe_ok, h.writer]
  apply Safe.bind (P := fun r u => r = .ok () ∧ ∃ written' rest',
    Over side s path base start new written' rest' u ∧
      (bytes.length ≥ SegmentWriter.bufferCapacity → rest' = []))
  · apply safe_when
    · intro _
      apply (h.safe_flush own long segment).mono
      · rintro r u ⟨ok, flushed⟩
        exact ⟨ok, _, _, flushed, fun _ => rfl⟩
      · exact fun _ _ => trivial
    · intro fits
      refine ⟨rfl, written, rest, h, fun large => ?_⟩
      rw [← List.length_eq_zero_iff]
      simp only [SegmentWriter.bufferCapacity] at fits large
      omega
  · rintro _ u ⟨_, written', rest', begun, room⟩
    rw [SegmentWriter.push, safe_bind, safe_get, thenSafe_ok, begun.writer]
    split
    · rename_i large
      obtain rfl := room large
      obtain ⟨durable, there⟩ := begun.file
      rw [show SegmentWriter.path { s.mem.writer side with buffer := [] } = path from own]
      exact safe_writeAll (counted_of_tidy tidy_steady) segment there (fun _ _ => trivial)
        ⟨rfl, _, _, begun.wrote long bytes there⟩ fun h => h.elim
    · rw [safe_set]
      refine ⟨rfl, written', rest' ++ bytes, ?_, begun.file, begun.cursor, ?_⟩
      · rw [begun.split, List.append_assoc]
      · simp [begun.mem]
  · rintro e u ⟨ok, _⟩
    cases ok

end Over

/-- A record that is written over what a file has from a position on. -/
theorem safe_writeOut_over (segment : (s.mem.writer side).path ≠ .marker)
    (empty : (s.mem.writer side).buffer = []) {f : File}
    (file : s.fs.file (s.mem.writer side).path = some f)
    (long : s.fs.cursor (s.mem.writer side).path ≤ f.data.length) (record : RecordHeader × Bytes) :
    Safe steady
      (fun r t => r = .ok () ∧ t.mem = s.mem ∧ ∃ durable,
        t.fs.file (s.mem.writer side).path = some ⟨durable, Bytes.writeAt f.data
          (s.fs.cursor (s.mem.writer side).path) (record.1.toBytes env ++ record.2)⟩)
      (fun _ => True) (SegmentWriter.writeOut env side record) s := by
  have begun : Over side s (s.mem.writer side).path f.data (s.fs.cursor (s.mem.writer side).path)
      [] [] [] s := by
    refine ⟨rfl, ⟨f.durable, ?_⟩, rfl, ?_⟩
    · rw [file]
      simp [Bytes.writeAt, Nat.sub_eq_zero_of_le long]
    · rw [← empty]
      exact (setWriter_self s.mem side).symm
  rw [SegmentWriter.writeOut]
  apply Safe.bind (begun.safe_bufferedWrite rfl long segment)
  · rintro _ t ⟨_, written, rest, header⟩
    apply Safe.bind (header.safe_bufferedWrite rfl long segment)
    · rintro _ u ⟨_, written', rest', whole⟩
      apply (whole.safe_flush rfl long segment).mono
      · rintro r v ⟨ok, flushed⟩
        refine ⟨ok, ?_, flushed.file⟩
        rw [flushed.mem, ← empty]
        exact setWriter_self s.mem side
      · exact fun _ _ => trivial
    · rintro e u ⟨ok, _⟩
      cases ok
  · rintro e t ⟨ok, _⟩
    cases ok

/-- Opening a segment file with a new header, whatever the file has. -/
theorem safe_open_over (staging : Option Nat) (id maxSegmentSize : Nat) :
    Safe steady
      (fun r t => ∃ m, r = .ok (SegmentWriter.mk staging id true [] segmentHeaderSize m) ∧
        t.mem = s.mem ∧ t.fs.cursor (.segment staging id) = segmentHeaderSize ∧
        ∃ f, t.fs.file (.segment staging id) = some f ∧ segmentHeaderSize ≤ f.data.length)
      (fun _ => True) (SegmentWriter.open staging id 0 maxSegmentSize) s := by
  obtain ⟨path, hpath⟩ : ∃ path, path = SegPath.segment staging id := ⟨_, rfl⟩
  have segment : path ≠ .marker := hpath ▸ SegPath.segment_ne_marker staging id
  rw [SegmentWriter.open]
  simp only [SegmentWriter.path, ← hpath]
  obtain ⟨fs, hfs⟩ : ∃ fs, fs = s.fs.opened path := ⟨_, rfl⟩
  obtain ⟨f, hf⟩ : ∃ f, fs.file path = some f := by
    rw [hfs, Fs.file_opened, if_pos rfl]
    exact ⟨_, rfl⟩
  have cursor : fs.cursor path = 0 := by rw [hfs]; simp
  rw [safe_bind]
  apply Proc.safe_create hfs trivial trivial _ fun h => h.elim
  rw [thenSafe_ok, safe_bind, SegmentWriter.begin, if_pos rfl, safe_bind]
  apply Proc.safe_ask.2
  intro createdAt _
  obtain ⟨h, hh⟩ : ∃ h : SegmentHeader, h = { segmentId := id, createdAt } := ⟨_, rfl⟩
  rw [thenSafe_ok, safe_bind, ← hh]
  refine safe_writeAll (counted_of_tidy tidy_steady) segment hf (fun _ _ => trivial) ?_
    fun h => h.elim
  have wrote : (fs.wrote path f h.toBytes).file path =
      some ⟨f.durable, h.toBytes ++ f.data.drop h.toBytes.length⟩ := by
    simp [cursor, Bytes.writeAt]
  rw [thenSafe_ok, safe_bind]
  refine Proc.safe_sync wrote trivial trivial ?_ fun h => h.elim
  refine ⟨_, rfl, rfl, ?_, ⟨_, by simp; rfl, ?_⟩⟩
  · simp [cursor]
  · simp

/-- A chunk is where the index says. -/
def Located (env : Env) (s : SegState) (c : ChunkId) (d : Bytes) : Prop :=
  ∃ loc f, (s.mem.index .own)[c]? = some loc ∧ s.fs.file (.active loc.segmentId) = some f ∧
    readRecord env f.data c loc = .ok d

theorem Located.safe_getChunk {c : ChunkId} {d : Bytes} (h : Located env s c d) :
    Safe steady (fun r t => r = .ok d ∧ t = s) (fun _ => True) (getChunk env c) s := by
  obtain ⟨loc, f, found, file, ok⟩ := h
  rw [getChunk, safe_bind, Proc.safe_load, thenSafe_ok, safe_bind, locationOf, found, safe_ofExcept,
    thenSafe_ok, readChunk, safe_bind, safe_handle]
  apply Proc.safe_read
  · intro g there
    obtain rfl := Option.some.inj (file.symm.trans there)
    show Safe _ _ _ (Prog.ofExcept (readRecord env f.data c loc)) s
    rw [ok, safe_ofExcept]
    exact ⟨rfl, rfl⟩
  · intro absent
    rw [file] at absent
    cases absent
  · exact fun h => h.elim

/-- A chunk that is read is where the index says. -/
theorem Located.of_returns {c : ChunkId} {d : Bytes} (run : Returns steady (getChunk env c) s (.ok d) t) :
    Located env s c d := by
  have only : Safe steady (fun r _ => r = .ok d → Located env s c d) (fun _ => True)
      (getChunk env c) s := by
    rw [getChunk, safe_bind, Proc.safe_load, thenSafe_ok, safe_bind, locationOf]
    cases found : (s.mem.index .own)[c]? with
    | none =>
      rw [safe_ofExcept]
      exact fun h => by cases h
    | some loc =>
      rw [safe_ofExcept, thenSafe_ok, readChunk, safe_bind, safe_handle]
      apply Proc.safe_read
      · intro f file
        show Safe _ _ _ (Prog.ofExcept (readRecord env f.data c loc)) s
        rw [safe_ofExcept]
        exact fun ok => ⟨loc, f, found, file, ok⟩
      · exact fun _ h => by cases h
      · exact fun h => h.elim
  exact only.returns run rfl

theorem located_iff {c : ChunkId} {d : Bytes} :
    Located env s c d ↔ Ends steady (getChunk env c) s fun r _ => r = .ok d := by
  constructor
  · intro h
    exact (h.safe_getChunk.ends (total_segMachine _)).mono fun _ _ post => post.1
  · intro ends
    obtain ⟨r, t, run⟩ := ends.some
    rw [ends.all r t run] at run
    exact .of_returns run

theorem safe_freshNonce {Q : Result Nonce → SegState → Prop} (h : ∀ nonce, Q (.ok nonce) s) :
    Safe steady Q (fun _ => True) (SegmentWriter.freshNonce env) s := by
  rw [SegmentWriter.freshNonce]
  split
  · exact Proc.safe_ask.2 fun nonce _ => h nonce
  · exact h _

section Closed

variable {data : Bytes} (closed : (s.mem.writer .own).isOpen = false)
  (absent : (s.mem.index .own).contains (ChunkId.fromData env data) = false)
include closed absent

/-- A closed writer refuses a chunk that goes behind what it wrote. -/
theorem safe_putChunk_closed (room : ¬ Rotates env s data) :
    Safe steady (fun r _ => ∃ e, r = .error e) (fun _ => True) (putChunk env data) s := by
  unfold Rotates at room
  rw [putChunk, safe_bind, Proc.safe_load, thenSafe_ok, if_neg (by simp [absent]),
    safe_bind, SegmentWriter.appendChunk, safe_bind]
  apply safe_freshNonce
  intro nonce
  rw [thenSafe_ok, safe_bind, safe_get, thenSafe_ok, safe_bind, length_chunkRecord_payload, Prog.when,
    if_neg room]
  change Safe _ _ _ (SegmentWriter.writeRecord env .own _ data _) s
  rw [SegmentWriter.writeRecord, safe_bind, safe_get, thenSafe_ok, safe_bind, SegmentWriter.file,
    closed, if_neg Bool.false_ne_true, safe_ofExcept]
  exact ⟨_, rfl⟩

omit closed absent in
/-- A chunk whose record was written where its writer was. -/
theorem located_written {nonce : Nonce} {w w' : SegmentWriter} {index : SegmentIndex}
    {front after : Bytes} {f : File} (path : w.path = .active w.currentSegmentId) (fits : Fits env data)
    (offset : w.currentOffset = front.length) (file : s.fs.file w.path = some f)
    (content : f.data =
      front ++ (chunkRecordBytes env (ChunkId.fromData env data) data nonce ++ after)) :
    Located env (s.withMem ((s.mem.setWriter .own w').setIndex .own
      (index.insert (ChunkId.fromData env data)
        (w.location data (chunkRecord env (ChunkId.fromData env data) data nonce).2))))
      (ChunkId.fromData env data) data := by
  refine ⟨w.location data (chunkRecord env (ChunkId.fromData env data) data nonce).2, f, by simp, ?_,
    ?_⟩
  · rw [← file, path]
    rfl
  · rw [content]
    exact readRecord_chunkRecordBytes nonce fits front after offset rfl

/-- A chunk for which a new segment is started goes there even if the writer is closed. -/
theorem safe_putChunk_rotates (own : (s.mem.writer .own).staging = none)
    (rotates : Rotates env s data) (fits : Fits env data) :
    Safe steady
      (fun r t => r = .ok (ChunkId.fromData env data, true) ∧
        Located env t (ChunkId.fromData env data) data)
      (fun _ => True) (putChunk env data) s := by
  unfold Rotates at rotates
  rw [putChunk, safe_bind, Proc.safe_load, thenSafe_ok, if_neg (by simp [absent]),
    safe_bind, SegmentWriter.appendChunk, safe_bind]
  apply safe_freshNonce
  intro nonce
  rw [thenSafe_ok, safe_bind, safe_get, thenSafe_ok, safe_bind, length_chunkRecord_payload, Prog.when,
    if_pos rotates, SegmentWriter.rotate, safe_bind, SegmentWriter.sync, safe_bind, safe_get,
    thenSafe_ok, Prog.when, if_neg (by simp [closed])]
  change Safe _ _ _ (SegmentWriter.get .own >>= _) s
  rw [safe_bind, safe_get, thenSafe_ok, own]
  apply Safe.bind (safe_open_over none _ _)
  swap
  · rintro e t ⟨_, ok, _⟩
    cases ok
  rintro w t ⟨m, ok, mem, cursor, f, file, long⟩
  cases ok
  rw [safe_set]
  obtain ⟨u, hu⟩ : ∃ u, u = t.withMem (t.mem.setWriter .own
    ⟨none, (s.mem.writer .own).currentSegmentId + 1, true, [], segmentHeaderSize, m⟩) := ⟨_, rfl⟩
  have writer : u.mem.writer .own =
      ⟨none, (s.mem.writer .own).currentSegmentId + 1, true, [], segmentHeaderSize, m⟩ := by
    rw [hu, Proc.withMem_mem, setWriter_writer, if_pos rfl]
  have fs : u.fs = t.fs := by rw [hu]; rfl
  have path : (u.mem.writer .own).path = .segment none ((s.mem.writer .own).currentSegmentId + 1) := by
    rw [writer]; rfl
  rw [← hu]
  change Safe _ _ _ (SegmentWriter.writeRecord env .own _ data _) u
  rw [← fs, ← path] at file cursor
  rw [SegmentWriter.writeRecord, safe_bind, safe_get, thenSafe_ok, safe_bind, SegmentWriter.file,
    if_pos (by rw [writer]), safe_ofExcept, thenSafe_ok]
  apply Safe.bind (safe_writeOut_over (path ▸ SegPath.segment_ne_marker _ _) (by rw [writer]) file
    (cursor ▸ long) _)
  swap
  · rintro e t ⟨ok, _⟩
    cases ok
  rintro _ v ⟨_, mem', durable, file'⟩
  have written : Bytes.writeAt f.data (u.fs.cursor (u.mem.writer .own).path)
      (chunkRecordBytes env (ChunkId.fromData env data) data nonce) =
      f.data.take segmentHeaderSize ++ (chunkRecordBytes env (ChunkId.fromData env data) data nonce ++
        f.data.drop (segmentHeaderSize +
          (chunkRecordBytes env (ChunkId.fromData env data) data nonce).length)) := by
    rw [cursor]
    simp [Bytes.writeAt, Nat.sub_eq_zero_of_le long]
  rw [safe_bind, Proc.safe_load, thenSafe_ok, Proc.safe_save]
  have there : v.fs.file (v.mem.writer .own).path = some ⟨durable, Bytes.writeAt f.data
      (u.fs.cursor (u.mem.writer .own).path)
      (chunkRecordBytes env (ChunkId.fromData env data) data nonce)⟩ := by
    rw [mem']
    exact file'
  refine ⟨rfl, located_written ?_ fits ?_ there written⟩
  · rw [mem', writer]
    rfl
  · rw [mem', writer, List.length_take, Nat.min_eq_left long]

end Closed

end OosLite
