import OosLite.Segment.Proofs.Buffering

/-!
# Writing and reading chunks

A store or the new segments of a compaction, attached to the files they write: what each
operation of the writer leaves, what a crash in it leaves, and what reading a chunk gives.
-/

namespace OosLite

open Files Effect SegmentStore

variable {env : Env} {faulty : FsOp SegPath → Prop} {C : SegState → Prop}

/-- The segments that one side of the store writes, with its index and its writer. -/
structure Attached (side : Side) (staging : Option Nat) (s : SegState) (L : Layout env)
    (n k : Nat) : Prop where
  disk : OnDisk (.segment staging) s.fs L n k
  index : IndexOf L.entries (s.mem.index side)
  writer : ∃ seg f maxSegmentSize, L n = some seg ∧
    s.fs.file (.segment staging n) = some f ∧ f.data = seg.bytes ∧
    s.fs.cursor (.segment staging n) = seg.bytes.length ∧
    s.mem.writer side = { staging, currentSegmentId := n, isOpen := true, buffer := []
                          currentOffset := seg.bytes.length, maxSegmentSize }

/-- Files outside one directory are the same. -/
def SameOutside (staging : Option Nat) (fs fs' : Fs SegPath) : Prop :=
  ∀ p : SegPath, (∀ id, p ≠ .segment staging id) → fs'.file p = fs.file p

theorem SameOutside.trans {staging : Option Nat} {fs fs' fs'' : Fs SegPath}
    (h : SameOutside staging fs fs') (h' : SameOutside staging fs' fs'') :
    SameOutside staging fs fs'' := fun p hp => (h' p hp).trans (h p hp)

/-- What a crash leaves while records are added: nothing that was on the medium is lost, and
nothing but the new record is added. -/
def Grown (staging : Option Nat) (fs : Fs SegPath) (L : Layout env) (n k : Nat)
    (new : Set (Bytes × RecordHeader)) (fs' : Fs SegPath) : Prop :=
  SameOutside staging fs fs' ∧ ∃ (L' : Layout env) (n' k' : Nat), OnDisk (.segment staging) fs' L' n' k' ∧
    (L.cut n k).records ⊆ (L'.cut n' k').records ∧ L'.records ⊆ L.records ∪ new

section Grown

variable {staging : Option Nat} {fs fs' fs'' : Fs SegPath} {L L' : Layout env} {n k n' k' : Nat}
  {new : Set (Bytes × RecordHeader)}

theorem Grown.same (disk : OnDisk (.segment staging) fs' L n k)
    (outside : SameOutside staging fs fs') : Grown staging fs L n k new fs' :=
  ⟨outside, L, n, k, disk, fun _ h => h, fun _ h => .inl h⟩

theorem Grown.trans (outside : SameOutside staging fs fs')
    (below : (L.cut n k).records ⊆ (L'.cut n' k').records) (above : L'.records ⊆ L.records)
    (h : Grown staging fs' L' n' k' new fs'') : Grown staging fs L n k new fs'' := by
  obtain ⟨outside', L'', n'', k'', disk, below', above'⟩ := h
  exact ⟨outside.trans outside', L'', n'', k'', disk, below.trans below',
    above'.trans (Set.union_subset_union_left _ above)⟩

end Grown

/-! ## Opening a segment for writing -/

/-- A segment file that is being created. -/
def Creating (path : SegPath) (fs fs' : Fs SegPath) : Prop :=
  (∀ p, p ≠ path → fs'.file p = fs.file p) ∧ (fs'.file path = none ∨
    ∃ (h : SegmentHeader) (f : File), fs'.file path = some f ∧ f.durable <+: h.toBytes ∧
      f.data <+: h.toBytes)

theorem safe_open_new (tidy : ∀ o, faulty o → Cleanup o) {s : SegState} (staging : Option Nat)
    {id : Nat} (absent : s.fs.file (.segment staging id) = none)
    (safe : ∀ t : SegState, Creating (.segment staging id) s.fs t.fs → C t)
    (maxSegmentSize : Nat) :
    Safe (segMachine faulty)
      (fun r t => ∃ (h : SegmentHeader) (m : Nat), r = .ok (SegmentWriter.mk staging id true []
          segmentHeaderSize m) ∧ t.mem = s.mem ∧
        (∀ p, p ≠ .segment staging id →
          t.fs.file p = s.fs.file p ∧ t.fs.cursor p = s.fs.cursor p) ∧
        t.fs.file (.segment staging id) = some ⟨h.toBytes, h.toBytes⟩ ∧
        t.fs.cursor (.segment staging id) = segmentHeaderSize) C
      (SegmentWriter.open staging id 0 maxSegmentSize) s := by
  obtain ⟨path, hpath⟩ : ∃ path, path = SegPath.segment staging id := ⟨_, rfl⟩
  rw [← hpath] at absent safe ⊢
  rw [SegmentWriter.open]
  simp only [SegmentWriter.path, ← hpath]
  rw [safe_bind]
  refine Proc.safe_create (Fs.opened_of_none absent).symm ?_ ?_ ?_
    fun h => absurd (tidy _ h) (by simp [Cleanup])
  · exact safe _ ⟨fun _ _ => rfl, .inl absent⟩
  · exact safe _ ⟨fun p hp => by simp [Ne.symm hp],
      .inr ⟨⟨id, 0⟩, ⟨[], []⟩, by simp, List.nil_prefix, List.nil_prefix⟩⟩
  rw [thenSafe_ok, safe_bind, SegmentWriter.begin, if_pos rfl, safe_bind]
  refine Proc.safe_ask.2 fun createdAt _ => ?_
  obtain ⟨h, hh⟩ : ∃ h : SegmentHeader, h = { segmentId := id, createdAt } := ⟨_, rfl⟩
  have written (new : Bytes) : Bytes.writeAt [] 0 new = new := by simp [Bytes.writeAt]
  rw [thenSafe_ok, safe_bind, ← hh]
  refine safe_writeAll (counted_of_tidy tidy)
    (hpath ▸ SegPath.segment_ne_marker staging id) (f := ⟨[], []⟩) (by simp) (fun part sub => ?_) ?_ fun h => h.elim
  · refine safe _ ⟨fun p hp => by simp [Ne.symm hp], .inr ⟨h, ⟨[], part⟩,
      by simp [written], List.nil_prefix, sub⟩⟩
  rw [thenSafe_ok, safe_bind]
  refine Proc.safe_sync (f := ⟨[], h.toBytes⟩) (by simp [written]) ?_ ?_ ?_
    fun h => absurd (tidy _ h) (by simp [Cleanup])
  · exact safe _ ⟨fun p hp => by simp [Ne.symm hp], .inr ⟨h, ⟨[], h.toBytes⟩, by simp [written],
      List.nil_prefix, List.prefix_rfl⟩⟩
  · exact safe _ ⟨fun p hp => by simp [Ne.symm hp], .inr ⟨h, ⟨h.toBytes, h.toBytes⟩,
      by simp, List.prefix_rfl, List.prefix_rfl⟩⟩
  · exact ⟨h, _, rfl, rfl, fun p hp => ⟨by simp [Ne.symm hp], by simp [hp]⟩, by simp, by simp⟩

theorem safe_open_resume (tidy : ∀ o, faulty o → Cleanup o) {s : SegState} (staging : Option Nat)
    {id : Nat} {f : File} (present : s.fs.file (.segment staging id) = some f)
    {resumeOffset : Nat} (some : resumeOffset ≠ 0)
    (safe : ∀ t : SegState, (∀ p, t.fs.file p = s.fs.file p) → C t) (maxSegmentSize : Nat) :
    Safe (segMachine faulty)
      (fun r t => ∃ m : Nat, r = .ok (SegmentWriter.mk staging id true [] resumeOffset m) ∧
        t.mem = s.mem ∧ (∀ p, t.fs.file p = s.fs.file p) ∧
        t.fs.cursor (.segment staging id) = resumeOffset) C
      (SegmentWriter.open staging id resumeOffset maxSegmentSize) s := by
  rw [SegmentWriter.open]
  simp only [SegmentWriter.path]
  rw [safe_bind]
  refine Proc.safe_create (Fs.opened_of_file present).symm ?_ ?_ ?_
    fun h => absurd (tidy _ h) (by simp [Cleanup])
  · exact safe _ fun _ => rfl
  · exact safe _ fun _ => rfl
  rw [thenSafe_ok, safe_bind, SegmentWriter.begin, if_neg some, safe_bind]
  refine Proc.safe_seek ?_ fun h => absurd (tidy _ h) (by simp [Cleanup])
  exact ⟨_, rfl, rfl, fun _ => rfl, by simp⟩

/-- A created file as the newest segment of its directory. -/
theorem OnDisk.created (staging : Option Nat) {fs fs' : Fs SegPath} {L : Layout env} {n : Nat}
    {h : SegmentHeader} {f : File} (sealed : Exactly (.segment staging) fs L)
    (last : ∀ id, n ≤ id → L id = none)
    (others : ∀ p, p ≠ .segment staging n → fs'.file p = fs.file p)
    (hf : fs'.file (.segment staging n) = some f) (durable : f.durable <+: h.toBytes)
    (data : f.data <+: h.toBytes) :
    OnDisk (.segment staging) fs' (L.put n (.created env h)) n 0 where
  sealed id hid := by
    rw [others _ fun same => hid (SegPath.segment_inj staging same), sealed id,
      Layout.put_of_ne _ _ hid]
  absent none := by rw [Layout.put_self] at none; cases none
  newest seg hseg := by
    obtain rfl := Option.some.inj ((Layout.put_self ..).symm.trans hseg)
    exact ⟨f, hf, by simpa using durable, by simpa using data, fun h => absurd h (by simp),
      Nat.zero_le _⟩
  last id above := by rw [Layout.put_of_ne _ _ (by omega), last id (by omega)]

/-! ## Appending -/

namespace Attached

variable {side : Side} {staging : Option Nat} {s : SegState} {L : Layout env} {n k : Nat}

/-- What a process reads from the files. -/
theorem content (h : Attached side staging s L n k) {id : Nat} {seg : Segment env}
    (hseg : L id = some seg) :
    ∃ f, s.fs.file (.segment staging id) = some f ∧ f.data = seg.bytes := by
  by_cases hid : id = n
  · subst hid
    obtain ⟨seg', f, _, hseg', hf, data, -⟩ := h.writer
    obtain rfl := Option.some.inj (hseg.symm.trans hseg')
    exact ⟨f, hf, data⟩
  · exact ⟨_, by rw [h.disk.sealed id hid, hseg]; rfl, rfl⟩

theorem contains_iff (h : Attached side staging s L n k) (c : ChunkId) :
    (s.mem.index side).contains c = true ↔ L.Has c := by
  rw [h.index.contains_iff, Layout.has_iff]

/-- The state after the newest file was synced. -/
theorem synced (h : Attached side staging s L n k) {t : SegState} (mem : t.mem.writer side =
      s.mem.writer side) (index : t.mem.index side = s.mem.index side)
    (cursor : t.fs.cursor (.segment staging n) = s.fs.cursor (.segment staging n))
    {seg : Segment env} (hseg : L n = some seg)
    (others : ∀ p, p ≠ .segment staging n → t.fs.file p = s.fs.file p)
    (hf : t.fs.file (.segment staging n) = some seg.whole) :
    Attached side staging t L n seg.records.length ∧ Exactly (.segment staging) t.fs L := by
  obtain ⟨seg', f, m, hseg', -, data, pos, writer⟩ := h.writer
  obtain rfl := Option.some.inj (hseg.symm.trans hseg')
  have disk := h.disk.replace (fun _ => SegPath.segment_inj staging) hseg others hf
    (.whole seg (Nat.le_refl _))
  refine ⟨⟨disk, by rw [index]; exact h.index, seg, _, m, hseg, hf, rfl, cursor.trans pos,
    mem.trans writer⟩, fun id => ?_⟩
  by_cases hid : id = n
  · rw [hid, hf, hseg]
    rfl
  · exact disk.sealed id hid

end Attached

/-- `sync` puts the newest file on the medium. -/
theorem safe_writer_sync (tidy : ∀ o, faulty o → Cleanup o) {side : Side} {staging : Option Nat}
    {s : SegState} {L : Layout env} {n k : Nat} {seg : Segment env}
    (h : Attached side staging s L n k) (hseg : L n = some seg)
    (safe : ∀ t : SegState, OnDisk (.segment staging) t.fs L n k →
      SameOutside staging s.fs t.fs → C t) :
    Safe (segMachine faulty)
      (fun r t => r = .ok () ∧ t.mem = s.mem ∧ t.fs.cursor = s.fs.cursor ∧
        (∀ p, p ≠ .segment staging n → t.fs.file p = s.fs.file p) ∧
        t.fs.file (.segment staging n) = some seg.whole) C (SegmentWriter.sync side) s := by
  obtain ⟨seg', f, m, hseg', hf, data, pos, writer⟩ := h.writer
  obtain rfl := Option.some.inj (hseg.symm.trans hseg')
  have others : ∀ p, p ≠ .segment staging n →
      (s.fs.put (.segment staging n) ⟨f.data, f.data⟩).file p = s.fs.file p :=
    fun p hp => by simp [Ne.symm hp]
  have synced : (s.fs.put (.segment staging n) ⟨f.data, f.data⟩).file (.segment staging n) =
      some seg.whole := by
    simp [Segment.whole, data]
  rw [SegmentWriter.sync, safe_bind, safe_get, thenSafe_ok, writer]
  refine safe_when (fun _ => ?_) fun closed => absurd rfl closed
  rw [safe_bind]
  refine safe_flush_empty (by rw [writer]) ?_
  rw [thenSafe_ok]
  refine Proc.safe_sync hf ?_ ?_ ?_ fun h => absurd (tidy _ h) (by simp [Cleanup])
  · exact safe s h.disk fun _ _ => rfl
  · refine safe _ (h.disk.replace (fun _ => SegPath.segment_inj staging) hseg others synced
      (.whole seg ?_)) fun p hp => others p (hp n)
    exact (h.disk.newest seg hseg).elim fun f hf => hf.2.bound
  · exact ⟨rfl, rfl, rfl, others, synced⟩

/-- A crash while the next segment is created. -/
theorem Grown.creating {staging : Option Nat} {fs fs' : Fs SegPath} {L : Layout env} {n k : Nat}
    {new : Set (Bytes × RecordHeader)} (exactly : Exactly (.segment staging) fs L)
    (last : ∀ id, n < id → L id = none) (creating : Creating (.segment staging (n + 1)) fs fs') :
    Grown staging fs L n k new fs' := by
  obtain ⟨others, file⟩ := creating
  refine ⟨fun p hp => others p (hp _), ?_⟩
  rcases file with absent | ⟨h, f, hf, durable, data⟩
  · have still : Exactly (.segment staging) fs' L := by
      intro id
      by_cases hid : id = n + 1
      · rw [hid, absent, last _ (by omega)]
        rfl
      · rw [others _ fun same => hid (SegPath.segment_inj staging same), exactly id]
    refine ⟨L, n + 1, 0, still.onDisk (fun id above => last id (by omega)) fun _ _ =>
      Nat.zero_le _, ?_, fun _ h => .inl h⟩
    rw [Layout.cut_of_length_le (n := n + 1) (L := L) fun seg hseg => by
      rw [last _ (by omega)] at hseg; cases hseg]
    exact L.records_cut_subset n k
  · refine ⟨L.put (n + 1) (.created env h), n + 1, 0, .created staging exactly
      (fun id above => last id (by omega)) others hf durable data, ?_, ?_⟩
    · rw [Layout.cut_put_created, Layout.records_put_created h (last _ (by omega))]
      exact L.records_cut_subset n k
    · rw [Layout.records_put_created h (last _ (by omega))]
      exact fun _ h => .inl h

/-- `rotate` goes on in a new segment. -/
theorem safe_rotate (tidy : ∀ o, faulty o → Cleanup o) {side : Side} {staging : Option Nat}
    {s : SegState} {L : Layout env} {n k : Nat} (h : Attached side staging s L n k)
    {new : Set (Bytes × RecordHeader)}
    (safe : ∀ t : SegState, Grown staging s.fs L n k new t.fs → C t) :
    Safe (segMachine faulty)
      (fun r t => r = .ok () ∧ (∃ header : SegmentHeader,
          Attached side staging t (L.put (n + 1) (.created env header)) (n + 1) 0) ∧
        SameOutside staging s.fs t.fs ∧ t.mem.index = s.mem.index ∧
        ∀ side', side' ≠ side → t.mem.writer side' = s.mem.writer side')
      C (SegmentWriter.rotate side) s := by
  obtain ⟨seg, f, m, hseg, hf, data, pos, writer⟩ := h.writer
  rw [SegmentWriter.rotate]
  refine Safe.bind (safe_writer_sync tidy h hseg fun t disk outside =>
    safe t (.same disk outside)) ?_ ?_
  swap
  · rintro e t ⟨ok, -⟩
    cases ok
  rintro ⟨⟩ t ⟨-, mem, cursor, others, file⟩
  obtain ⟨attached, exactly⟩ := h.synced (by rw [mem]) (by rw [mem]) (by rw [cursor]) hseg others file
  have outside : SameOutside staging s.fs t.fs := fun p hp => others p (hp n)
  have last := h.disk.last
  have free : L (n + 1) = none := last _ (by omega)
  rw [safe_bind, safe_get, thenSafe_ok, mem, writer]
  refine Safe.bind (safe_open_new tidy staging (by rw [exactly (n + 1), free]; rfl)
    (fun u creating => safe u ?_) m) ?_ ?_
  · exact Grown.trans outside (fun _ h => h) (fun _ h => h) (Grown.creating exactly last creating)
  · rintro w u ⟨header, m', ok, umem, others', file', cursor'⟩
    cases ok
    rw [safe_set]
    refine ⟨rfl, ⟨header, ⟨?_, ?_, ?_⟩⟩, fun p hp => ?_, ?_, fun side' other => ?_⟩
    · exact .created staging exactly (fun id above => last id (by omega)) (fun p hp => (others' p hp).1)
        file' List.prefix_rfl List.prefix_rfl
    · rw [Layout.entries_put_created header free, Proc.withMem_mem, setWriter_index, umem, mem]
      exact h.index
    · refine ⟨_, _, m', Layout.put_self .., file', by simp, ?_, ?_⟩
      · simpa using cursor'
      · simp [segmentHeaderSize]
    · rw [Proc.withMem_fs, (others' p (hp _)).1, outside p hp]
    · rw [Proc.withMem_mem, setWriter_index, umem, mem]
    · rw [Proc.withMem_mem, setWriter_writer, if_neg other, umem, mem]
  · rintro e u ⟨_, _, ok, -⟩
    cases ok

/-- The record that `append_chunk` writes for a chunk. -/
def recordOf (env : Env) (c : ChunkId) (data : Bytes) (nonce : Nonce) : Bytes × RecordHeader :=
  (chunkRecordBytes env c data nonce, (chunkRecord env c data nonce).1)

/-- The records that `append_chunk` may write for a chunk. -/
def recordsOf (env : Env) (c : ChunkId) (data : Bytes) : Set (Bytes × RecordHeader) :=
  {r | ∃ nonce, r = recordOf env c data nonce}

/-- What appending a chunk leaves. -/
structure Appended (side : Side) (staging : Option Nat) (s : SegState) (L : Layout env) (n k : Nat)
    (c : ChunkId) (data : Bytes) (r : Result Unit) (t : SegState) : Prop where
  ok : r = .ok ()
  grown : ∃ (L' : Layout env) (n' k' : Nat), ∃ record ∈ recordsOf env c data,
    Attached side staging t L' n' k' ∧ L'.records = insert record L.records ∧
    (L.cut n k).records ⊆ (L'.cut n' k').records
  outside : SameOutside staging s.fs t.fs
  mem : ∀ side', side' ≠ side →
    t.mem.writer side' = s.mem.writer side' ∧ t.mem.index side' = s.mem.index side'

/-- A record, or part of it, behind the newest segment. -/
theorem OnDisk.push {staging : Option Nat} {fs fs' : Fs SegPath} {L : Layout env} {n k : Nat}
    {seg : Segment env} (h : OnDisk (.segment staging) fs L n k) {record : Bytes}
    {header : RecordHeader}
    {isFrame : Framing.IsFrame (nextRecord env) record header} {f : File} (part : Partly f seg k)
    {data : Bytes} (front : seg.bytes <+: data)
    (within : data <+: (seg.push record header isFrame).bytes)
    (others : ∀ p, p ≠ .segment staging n → fs'.file p = fs.file p)
    (file : fs'.file (.segment staging n) = some ⟨f.durable, data⟩) :
    OnDisk (.segment staging) fs' (L.put n (seg.push record header isFrame)) n k where
  sealed id hid := by
    rw [others _ fun same => hid (SegPath.segment_inj staging same), h.sealed id hid,
      Layout.put_of_ne _ _ hid]
  absent none := by rw [Layout.put_self] at none; cases none
  newest seg₁ h₁ := by
    obtain rfl := Option.some.inj ((Layout.put_self ..).symm.trans h₁)
    refine ⟨_, file, part.durable.trans ?_, within, fun pos => ?_, ?_⟩
    · rw [Segment.bytes_push]
      exact List.prefix_append _ _
    · rw [Segment.take_push _ _ _ _ part.bound]
      exact ⟨(part.kept pos).1, (seg.isPrefix_take k).trans front⟩
    · rw [Segment.records_push, List.length_append]
      have := part.bound
      omega
  last id above := by rw [Layout.put_of_ne _ _ (by omega), h.last id above]

/-- The write at the end of the newest segment. -/
theorem safe_writeRecord (tidy : ∀ o, faulty o → Cleanup o) {side : Side} {staging : Option Nat}
    {s : SegState} {L : Layout env} {n k : Nat} (h : Attached side staging s L n k) {c : ChunkId}
    {data : Bytes} (nonce : Nonce) (fits : Fits env data)
    (safe : ∀ t : SegState, Grown staging s.fs L n k (recordsOf env c data) t.fs → C t) :
    Safe (segMachine faulty) (Appended side staging s L n k c data) C
      (SegmentWriter.writeRecord env side c data (chunkRecord env c data nonce)) s := by
  obtain ⟨seg, f, m, hseg, hf, content, pos, writer⟩ := h.writer
  have isRecord := isRecord_chunkRecord c nonce fits
  obtain ⟨header, hheader⟩ : ∃ header, header = (chunkRecord env c data nonce).1 := ⟨_, rfl⟩
  obtain ⟨payload, hpayload⟩ : ∃ payload, payload = (chunkRecord env c data nonce).2 := ⟨_, rfl⟩
  have record : recordOf env c data nonce = (header.toBytes env ++ payload, header) := by
    rw [hheader, hpayload]
    rfl
  rw [← hheader, ← hpayload] at isRecord
  have number : header.chunkId = c := by rw [hheader, chunkRecord_chunkId]
  -- the layout with the record, and what part of it the file may hold
  obtain ⟨seg', hseg'⟩ : ∃ seg', seg' = seg.push (header.toBytes env ++ payload) header
    isRecord.isFrame := ⟨_, rfl⟩
  have bytes : seg'.bytes = seg.bytes ++ (header.toBytes env ++ payload) := by
    rw [hseg', Segment.bytes_push]
  have new : (L.put n seg').records = insert (recordOf env c data nonce) L.records := by
    rw [hseg', record, Layout.records_put_push hseg]
  obtain ⟨f', hf', part⟩ := h.disk.newest seg hseg
  obtain rfl := Option.some.inj (hf'.symm.trans hf)
  have grows : (L.cut n k).records ⊆ ((L.put n seg').cut n k).records := by
    rw [Layout.cut_eq_put hseg, Layout.cut_eq_put (Layout.put_self ..), hseg', Segment.take_push]
    · simp [Layout.put]
    · exact part.bound
  have onDisk (fs : Fs SegPath) (data' : Bytes) (front : seg.bytes <+: data')
      (within : data' <+: seg'.bytes)
      (others : ∀ p, p ≠ .segment staging n → fs.file p = s.fs.file p)
      (file : fs.file (.segment staging n) = some ⟨f'.durable, data'⟩) :
      OnDisk (.segment staging) fs (L.put n seg') n k := by
    rw [hseg'] at within ⊢
    exact h.disk.push part front within others file
  have path : (s.mem.writer side).path = .segment staging n := by rw [writer]; rfl
  have atEnd : AtEnd (s.mem.writer side).path s.fs f' := by
    rw [path]
    exact ⟨hf, by rw [pos, content]⟩
  have others {fs : Fs SegPath} {part : Bytes} (grown : Extends (s.mem.writer side).path s.fs f' part fs)
      (p : SegPath) (hp : p ≠ .segment staging n) : fs.file p = s.fs.file p :=
    (grown.others p (by rwa [path])).1
  have file {fs : Fs SegPath} {part : Bytes} (grown : Extends (s.mem.writer side).path s.fs f' part fs) :
      fs.file (.segment staging n) = some ⟨f'.durable, seg.bytes ++ part⟩ := by
    rw [← path, grown.atEnd.1, content]
  rw [SegmentWriter.writeRecord, safe_bind, safe_get, thenSafe_ok, safe_bind, SegmentWriter.file,
    if_pos (by rw [writer]), safe_ofExcept, thenSafe_ok]
  refine Safe.bind (safe_writeOut (counted_of_tidy tidy) (by rw [writer]) atEnd _ fun u part sub grown => ?_) ?_ ?_
  · rw [← hheader, ← hpayload] at sub
    refine safe u ⟨fun p hp => others grown p (hp n), L.put n seg', n, k,
      onDisk _ _ (List.prefix_append _ _) ?_ (others grown) (file grown), grows, ?_⟩
    · rw [bytes]
      exact (List.prefix_append_right_inj _).2 sub
    · rw [new]
      rintro r (rfl | hr)
      · exact .inr ⟨nonce, rfl⟩
      · exact .inl hr
  · rintro ⟨⟩ u (⟨-, mem, grown⟩ | ⟨failing, -⟩)
    swap
    · exact failing.elim
    rw [← hheader, ← hpayload] at grown
    rw [safe_bind, Proc.safe_load, thenSafe_ok, Proc.safe_save, mem]
    refine ⟨rfl, ⟨L.put n seg', n, k, _, ⟨nonce, rfl⟩, ⟨?_, ?_, ?_⟩, new, grows⟩, ?_, ?_⟩
    · exact onDisk _ seg'.bytes (bytes ▸ List.prefix_append _ _) List.prefix_rfl (others grown)
        (by rw [bytes]; exact file grown)
    · have location : (c, (SegmentWriter.mk staging n true [] seg.bytes.length m).location data
          payload) = entry n (seg.bytes.length, header) := by
        rw [entry, number, hheader, hpayload]
        rfl
      have after : ∀ e ∈ L.entries, e.2.Before (entry n (seg.bytes.length, header)).2 :=
        fun e he => Layout.before_end hseg h.disk.last he rfl rfl
      rw [hseg', Layout.entries_put_push hseg, ← location]
      rw [← location] at after
      simpa [← hpayload, writer] using h.index.insert (c := c) after
    · refine ⟨seg', ⟨f'.durable, seg'.bytes⟩, m, Layout.put_self .., ?_, rfl, ?_, ?_⟩
      · rw [bytes]
        exact file grown
      · rw [Proc.withMem_fs, ← path, grown.atEnd.2, content, bytes]
      · simp [bytes, writer, ← hpayload]
    · exact fun p hp => others grown p (hp n)
    · exact fun side' other => by simp [other]
  · rintro e u (⟨ok, -⟩ | ⟨failing, -⟩)
    · cases ok
    · exact failing.elim

/-- `append_chunk` adds one record to the newest segment, or to the next one. -/
theorem safe_appendChunk (tidy : ∀ o, faulty o → Cleanup o) {side : Side} {staging : Option Nat}
    {s : SegState} {L : Layout env} {n k : Nat} (h : Attached side staging s L n k) (c : ChunkId)
    {data : Bytes} (fits : Fits env data)
    (safe : ∀ t : SegState, Grown staging s.fs L n k (recordsOf env c data) t.fs → C t) :
    Safe (segMachine faulty) (Appended side staging s L n k c data) C
      (SegmentWriter.appendChunk env side c data) s := by
  rw [SegmentWriter.appendChunk]
  refine Safe.bind (P := fun r t => (∃ nonce, r = .ok nonce) ∧ t = s) ?_ ?_ ?_
  · rw [SegmentWriter.freshNonce]
    split
    · exact Proc.safe_ask.2 fun nonce _ => ⟨⟨nonce, rfl⟩, rfl⟩
    · exact ⟨⟨_, rfl⟩, rfl⟩
  swap
  · rintro e t ⟨⟨_, ok⟩, -⟩
    cases ok
  rintro nonce t ⟨-, rfl⟩
  simp only
  rw [safe_bind, safe_get, thenSafe_ok]
  refine Safe.bind (P := fun r u => r = .ok () ∧ ∃ (L' : Layout env) (n' k' : Nat),
    Attached side staging u L' n' k' ∧ L'.records = L.records ∧
    (L.cut n k).records ⊆ (L'.cut n' k').records ∧ SameOutside staging t.fs u.fs ∧
    ∀ side', side' ≠ side →
      u.mem.writer side' = t.mem.writer side' ∧ u.mem.index side' = t.mem.index side') ?_ ?_ ?_
  · refine safe_when (fun _ => ?_) fun _ => ?_
    · refine (safe_rotate tidy h safe).mono ?_ fun _ hc => hc
      rintro r u ⟨rfl, ⟨header, attached⟩, outside, index, writers⟩
      have free : L (n + 1) = none := h.disk.last _ (by omega)
      have same := Layout.records_put_created header free
      refine ⟨rfl, _, _, _, attached, same, ?_, outside, fun side' other => ⟨writers side' other, ?_⟩⟩
      · rw [Layout.cut_put_created, same]
        exact L.records_cut_subset n k
      · rw [index]
    · exact ⟨rfl, L, n, k, h, rfl, fun _ h => h, fun _ _ => rfl, fun _ _ => ⟨rfl, rfl⟩⟩
  · rintro ⟨⟩ u ⟨-, L', n', k', attached, same, below, outside, others⟩
    refine (safe_writeRecord tidy attached nonce fits fun v grown => safe v ?_).mono ?_
      fun _ hc => hc
    · exact Grown.trans outside below same.le grown
    · rintro r v ⟨ok, ⟨L'', n'', k'', record, hrecord, attached', new, below'⟩, outside', others'⟩
      refine ⟨ok, ⟨L'', n'', k'', record, hrecord, attached', by rw [new, same],
        below.trans below'⟩, outside.trans outside', fun side' other => ?_⟩
      exact ⟨(others' side' other).1.trans (others side' other).1,
        (others' side' other).2.trans (others side' other).2⟩
  · rintro e u ⟨ok, -⟩
    cases ok

/-! ## The operations of a store -/

/-- What `put_chunk` leaves: the chunk was there, or it is a new record. -/
def PutPost (s : SegState) (L : Layout env) (n k : Nat) (data : Bytes) (r : Result (ChunkId × Bool))
    (t : SegState) : Prop :=
  L.Has (ChunkId.fromData env data) ∧ r = .ok (ChunkId.fromData env data, false) ∧ t = s ∨
  ¬ L.Has (ChunkId.fromData env data) ∧ r = .ok (ChunkId.fromData env data, true) ∧
    Appended .own none s L n k (ChunkId.fromData env data) data (.ok ()) t

theorem safe_putChunk (tidy : ∀ o, faulty o → Cleanup o) {s : SegState} {L : Layout env}
    {n k : Nat} (h : Attached .own none s L n k) {data : Bytes} (fits : Fits env data)
    (safe : ∀ t : SegState,
      Grown none s.fs L n k (recordsOf env (ChunkId.fromData env data) data) t.fs → C t) :
    Safe (segMachine faulty) (PutPost s L n k data) C (putChunk env data) s := by
  rw [putChunk, safe_bind, Proc.safe_load, thenSafe_ok]
  split
  · rename_i there
    exact .inl ⟨(h.contains_iff _).1 there, rfl, rfl⟩
  · rename_i absent
    refine Safe.bind (safe_appendChunk tidy h _ fits safe) ?_ ?_
    · rintro ⟨⟩ t post
      exact .inr ⟨fun has => absent ((h.contains_iff _).2 has), rfl, post⟩
    · rintro e t post
      cases post.ok

/-- Reading a chunk through its last record. -/
theorem safe_readChunk (tidy : ∀ o, faulty o → Cleanup o) {s : SegState} {seg : Segment env}
    {loc : ChunkLocation} {f : File} (hf : s.fs.file (.active loc.segmentId) = some f)
    (content : f.data = seg.bytes) (c : ChunkId) :
    Safe (segMachine faulty) (fun r t => t = s ∧ r = readRecord env seg.bytes c loc) C
      (readChunk env c loc) s := by
  rw [readChunk, safe_bind, safe_handle]
  refine Proc.safe_read (fun f' hf' => ?_) (fun absent => ?_) fun h =>
    absurd (tidy _ h) (by simp [Cleanup])
  · obtain rfl := Option.some.inj (hf.symm.trans hf')
    simp only
    rw [thenSafe_ok, safe_ofExcept, content]
    exact ⟨rfl, rfl⟩
  · rw [hf] at absent
    cases absent

theorem safe_getChunk (tidy : ∀ o, faulty o → Cleanup o) {s : SegState} {L : Layout env}
    {n k : Nat} (h : Attached .own none s L n k) {c : ChunkId} {loc : ChunkLocation}
    {seg : Segment env} (latest : Latest L.entries c loc) (hseg : L loc.segmentId = some seg) :
    Safe (segMachine faulty) (fun r t => t = s ∧ r = readRecord env seg.bytes c loc) C
      (getChunk env c) s := by
  obtain ⟨loc', found⟩ := h.index.complete c loc latest.mem
  obtain rfl := (h.index.latest c loc' found).unique latest
  obtain ⟨f, hf, content⟩ := h.content hseg
  rw [getChunk, safe_bind, Proc.safe_load, thenSafe_ok, safe_bind]
  simp only [locationOf, found]
  rw [safe_ofExcept, thenSafe_ok]
  exact safe_readChunk tidy hf content c

/-- A chunk that can be read is read. -/
theorem safe_getChunk_reads (tidy : ∀ o, faulty o → Cleanup o) {s : SegState} {L : Layout env}
    {n k : Nat} (h : Attached .own none s L n k) {c : ChunkId} {d : Bytes} (reads : L.Reads c d) :
    Safe (segMachine faulty) (fun r t => t = s ∧ r = .ok d) C (getChunk env c) s := by
  obtain ⟨loc, seg, latest, hseg, ok⟩ := reads
  rw [← ok]
  exact safe_getChunk tidy h latest hseg

/-- Whatever `get_chunk` gives is what the layout says. -/
theorem safe_getChunk_only (tidy : ∀ o, faulty o → Cleanup o) {s : SegState} {L : Layout env}
    {n k : Nat} (h : Attached .own none s L n k) (c : ChunkId) :
    Safe (segMachine faulty) (fun r t => t = s ∧ ∀ d, r = .ok d → L.Reads c d) C
      (getChunk env c) s := by
  cases found : (s.mem.index .own)[c]? with
  | none =>
    rw [getChunk, safe_bind, Proc.safe_load, thenSafe_ok, safe_bind]
    simp only [locationOf, found]
    rw [safe_ofExcept]
    exact ⟨rfl, nofun⟩
  | some loc =>
    have latest := h.index.latest c loc found
    obtain ⟨seg, hseg, -⟩ := Layout.mem_entries.1 latest.mem
    refine (safe_getChunk tidy h latest hseg).mono ?_ fun _ hc => hc
    rintro r t ⟨rfl, rfl⟩
    exact ⟨rfl, fun d ok => ⟨loc, seg, latest, hseg, ok⟩⟩

/-- The store's chunks, if all records are known. -/
theorem Sound.exists_reads {V : ChunkId → Bytes → Prop} {side : Side} {staging : Option Nat}
    {s : SegState} {L : Layout env} {n k : Nat} (sound : Sound V L)
    (h : Attached side staging s L n k) {c : ChunkId} (has : L.Has c) : ∃ d, V c d ∧ L.Reads c d := by
  obtain ⟨loc, hmem⟩ := Layout.has_iff.1 has
  obtain ⟨loc', found⟩ := h.index.complete c loc hmem
  exact sound.reads (h.index.latest c loc' found)

theorem safe_sync (tidy : ∀ o, faulty o → Cleanup o) {s : SegState} {L : Layout env} {n k : Nat}
    (h : Attached .own none s L n k)
    (safe : ∀ t : SegState, Grown none s.fs L n k ∅ t.fs → C t) :
    Safe (segMachine faulty)
      (fun r t => r = .ok () ∧ t.mem = s.mem ∧ (∃ k', Attached .own none t L n k' ∧
        L.cut n k' = L) ∧ Exactly .active t.fs L ∧ SameOutside none s.fs t.fs) C sync s := by
  obtain ⟨seg, f, m, hseg, -⟩ := h.writer
  refine (safe_writer_sync tidy h hseg fun t disk outside => safe t (.same disk outside)).mono ?_
    fun _ hc => hc
  rintro r t ⟨rfl, mem, cursor, others, file⟩
  obtain ⟨attached, exactly⟩ := h.synced (by rw [mem]) (by rw [mem]) (by rw [cursor]) hseg others file
  refine ⟨rfl, mem, ⟨_, attached, Layout.cut_of_length_le fun seg' h' => ?_⟩, exactly,
    fun p hp => others p (hp n)⟩
  rw [Option.some.inj (hseg.symm.trans h')]

/-- A store opened on a recoverable directory. -/
theorem safe_openStore (tidy : ∀ o, faulty o → Cleanup o) {P : Layout env → Prop} {s : SegState}
    (h : Recoverable s.fs P) (forward : Forward s.fs) (alive : ¬ Dead s.fs)
    (create : ∀ L n header, L n = none → P L → P (L.put n (.created env header)))
    (maxSegmentSize : Nat) :
    Safe (segMachine faulty)
      (fun r t => r = .ok () ∧ (∃ L n k, Attached .own none t L n k ∧
          ∀ j, k ≤ j → P (L.cut n j)) ∧
        (¬ MarkerDone s.fs → ∀ id, t.fs.file (.old id) = none) ∧
        ((∀ o, ¬ faulty o) → (∀ id, t.fs.file (.old id) = none) ∧ t.fs.file .marker = none))
      (RecoveryCut faulty P s.fs) (openStore env maxSegmentSize) s := by
  rw [openStore, safe_bind, Proc.safe_load, thenSafe_ok, safe_bind, Proc.safe_save, thenSafe_ok]
  refine Safe.bind (safe_recoverAndIndex tidy (s := s.withMem (s.mem.setIndex .own ∅)) h forward
    alive (by simp)) ?_ ?_
  swap
  · rintro e t ⟨⟨_, _, _, _, -, -, -, -, ⟨-, ok⟩ | ⟨_, _, -, ok, -⟩⟩, -⟩ <;> cases ok
  rintro ⟨latest, resume⟩ t ⟨⟨L, n, k, index, disk, all, indexed, mem, found⟩, noOld, clean⟩
  have gone : Orderly faulty s.fs → ∀ id, t.fs.file (.old id) = none := fun orderly =>
    orderly.elim noOld fun sound => (clean sound).1
  rcases found with ⟨rfl, first⟩ | ⟨seg, f, hseg, ok, hf, content, behind⟩
  · -- an empty directory: the first segment is created
    cases first
    have exactly : Exactly .active t.fs (Layout.empty : Layout env) := by
      intro id
      by_cases hid : id = n
      · rw [hid, disk.absent rfl]
        rfl
      · exact disk.sealed id hid
    have hP : P .empty := by
      have := all k (Nat.le_refl k)
      rwa [Layout.cut_of_length_le fun seg hseg => by cases hseg] at this
    have hP' (header : SegmentHeader) (j : Nat) :
        P (((Layout.empty : Layout env).put 1 (.created env header)).cut 1 j) := by
      rw [Layout.cut_put_created]
      exact create _ _ header rfl hP
    refine Safe.bind (safe_open_new tidy none (exactly 1) (fun u creating => ?_)
      maxSegmentSize) ?_ ?_
    · obtain ⟨others, file⟩ := creating
      have quiet' : Orderly faulty s.fs → Quiet u.fs := fun orderly => .inl fun id => by
        rw [others _ (by simp [SegPath.segment]), gone orderly id]
      rcases file with absent | ⟨header, f, hf, durable, data⟩
      · have still : Exactly .active u.fs (Layout.empty : Layout env) := by
          intro id
          by_cases hid : id = 1
          · rw [hid]
            exact absent
          · rw [others _ (by simpa [SegPath.segment] using hid), exactly id]
        refine .onDisk (still.onDisk (n := 0) (k := 0) (fun _ _ => rfl) fun _ h => by cases h)
          (fun j _ => ?_) quiet'
        rwa [Layout.cut_of_length_le fun seg hseg => by cases hseg]
      · exact .onDisk (OnDisk.created none exactly (fun _ _ => rfl) others hf durable
          data) (fun j _ => hP' header j) quiet'
    · rintro w u ⟨header, m, ok, umem, others, file, cursor⟩
      cases ok
      rw [safe_set]
      refine ⟨rfl, ⟨_, 1, 0, ⟨.created none exactly (fun _ _ => rfl) (fun p hp => (others p hp).1) file
        List.prefix_rfl List.prefix_rfl, ?_, ?_⟩, fun j _ => hP' header j⟩, fun unmarked id => ?_,
        fun sound => ⟨fun id => ?_, ?_⟩⟩
      · rw [Layout.entries_put_created header rfl, Proc.withMem_mem, setWriter_index, umem, mem,
          setIndex_index, if_pos rfl]
        exact indexed
      · exact ⟨_, _, m, Layout.put_self .., file, by simp, by simpa using cursor,
          by simp [segmentHeaderSize]⟩
      · rw [Proc.withMem_fs, (others _ (by simp [SegPath.segment])).1, noOld unmarked id]
      · rw [Proc.withMem_fs, (others _ (by simp [SegPath.segment])).1, (clean sound).1 id]
      · rw [Proc.withMem_fs, (others _ (by simp [SegPath.segment])).1, (clean sound).2]
    · rintro e u ⟨_, _, ok, -⟩
      cases ok
  · cases ok
    have some : seg.bytes.length ≠ 0 := by
      have := seg.length_bytes
      simp only [segmentHeaderSize] at this
      omega
    refine Safe.bind (safe_open_resume tidy none hf some (fun u same => ?_)
      maxSegmentSize) ?_ ?_
    · refine .onDisk (disk.congr fun id => same _) all fun orderly => .inl fun id => ?_
      rw [same, gone orderly id]
    · rintro w u ⟨m, ok, umem, same, cursor⟩
      cases ok
      rw [safe_set]
      refine ⟨rfl, ⟨L, latest, k, ⟨disk.congr fun id => same _, ?_, ?_⟩, all⟩, fun unmarked id => ?_,
        fun sound => ⟨fun id => ?_, ?_⟩⟩
      · rw [Proc.withMem_mem, setWriter_index, umem, mem, setIndex_index, if_pos rfl]
        exact indexed
      · exact ⟨seg, f, m, hseg, by rw [Proc.withMem_fs, same]; exact hf, content, cursor, by simp⟩
      · rw [Proc.withMem_fs, same, noOld unmarked id]
      · rw [Proc.withMem_fs, same, (clean sound).1 id]
      · rw [Proc.withMem_fs, same, (clean sound).2]
    · rintro e u ⟨_, ok, -⟩
      cases ok

end OosLite
