import OosLite.Segment.Proofs.ReaderAgreement

/-!
# Writes that fail

A process puts and syncs chunks while writes fail after any part of their bytes, and goes on. When
is every acknowledged chunk read back, by this process and after the store is reopened?
-/

namespace OosLite

open Files Effect SegmentStore

/-- Buffered writes may fail. -/
abbrev failing := segMachine (fun _ => False) True

section Definitions

variable (env : Env)

/-- What the file and the buffer of the writer hold beyond the offset it keeps: of an append that
failed. -/
def leftover (s : SegState) : Bytes :=
  ((s.fs.data (s.mem.writer .own).path).getD [] ++ (s.mem.writer .own).buffer).drop
    (s.mem.writer .own).currentOffset

/-- The next append goes to a new segment. -/
def Rotates (s : SegState) (data : Bytes) : Prop :=
  (s.mem.writer .own).currentOffset + (recordHeaderSizeV3 + storedLen env data) >
    (s.mem.writer .own).maxSegmentSize

/-- A chunk that is put where it is indexed: it is there already, or the writer's offset is the end
of its file, or the chunk goes to a new file and what a failed append has left is a whole record. -/
def Placed (s : SegState) (data : Bytes) : Prop :=
  Fits env data ∧ ((s.mem.index .own).contains (ChunkId.fromData env data) = true ∨
    leftover s = [] ∨ (∃ h, WellFormed env (leftover s) h) ∧ Rotates env s data)

/-- A running store puts and syncs chunks, and writes may fail. -/
inductive WritesReach (allowed : SegState → Bytes → Prop) : SegState → History → Prop where
  | start {s g} : StoreReachable env (Spared env) ⟨.running s, g⟩ → WritesReach allowed s g
  | put {s g data r t} : WritesReach allowed s g → allowed s data →
      Returns failing ((StoreOp.put data).run env) s r t →
      WritesReach allowed t ((StoreOp.put data).after env g r)
  | sync {s g r t} : WritesReach allowed s g → Returns failing (StoreOp.sync.run env) s r t →
      WritesReach allowed t (StoreOp.sync.after env g r)

/-- Every acknowledged chunk is read back. -/
def ReadsBack (fails : Prop) (g : History) (s : SegState) : Prop :=
  ∀ d ∈ g.held, Ends (segMachine (fun _ => False) fails) (getChunk env (ChunkId.fromData env d)) s
    fun r _ => g.Original env d r

/-- After a sync and a reopening every acknowledged chunk is read back. -/
def ReadsBackReopened (g : History) (s : SegState) : Prop :=
  ∀ t, Returns failing SegmentStore.sync s (.ok ()) t → ¬ Dead t.fs → ∀ maxSegmentSize mem,
    Ends steady (openStore env maxSegmentSize) ⟨t.fs, mem⟩ fun r u =>
      r = .ok () ∧ ReadsBack env False g u

end Definitions

section FailedWrites

variable {env : Env}

/-- A part of a record that gives back known data. -/
def PartOfRecord (env : Env) (V : Known) (tail : Bytes) : Prop :=
  ∃ bytes h, WellFormed env bytes h ∧ Stores env V (bytes, h) ∧ tail <+: bytes

/-- A running store in which an append may have failed: its newest segment goes up to the writer's
offset, and behind it is a part of a record, some of which is still in the buffer. -/
structure Frayed (env : Env) (V : Known) (s : SegState) (L : Layout env) (n : Nat)
    (seg : Segment env) (written rest : Bytes) : Prop where
  sound : Sound V L
  newest : L n = some seg
  last : ∀ id, n < id → L id = none
  sealed : ∀ id, id ≠ n → id ≠ n + 1 → s.fs.file (.active id) = (L id).map Segment.whole
  next : ∀ f, s.fs.file (.active (n + 1)) = some f → f.data.length < segmentHeaderSize
  file : ∃ f, AtEnd (.active n) s.fs f ∧ f.data = seg.bytes ++ written
  writer : ∃ m, s.mem.writer .own =
    { staging := none, currentSegmentId := n, isOpen := true, buffer := rest
      currentOffset := seg.bytes.length, maxSegmentSize := m }
  indexed : ∀ c loc, (s.mem.index .own)[c]? = some loc → (c, loc) ∈ L.entries
  tail : written ++ rest = [] ∨ PartOfRecord env V (written ++ rest)
  clean : Clean s.fs

namespace Frayed

variable {V : Known} {s t : SegState} {L : Layout env} {n : Nat} {seg : Segment env}
  {written rest : Bytes}

theorem path (h : Frayed env V s L n seg written rest) :
    (s.mem.writer .own).path = .active n := by
  obtain ⟨m, hw⟩ := h.writer
  rw [hw]
  rfl

theorem leftover_eq (h : Frayed env V s L n seg written rest) : leftover s = written ++ rest := by
  obtain ⟨f, atEnd, data⟩ := h.file
  obtain ⟨m, hw⟩ := h.writer
  rw [leftover, h.path, Fs.data, atEnd.1, hw]
  simp [data]

theorem known {W : Known} (h : Frayed env V s L n seg written rest)
    (le : ∀ c d, V c d → W c d) : Frayed env W s L n seg written rest :=
  { h with
    sound := fun r hr => (h.sound r hr).mono (le _)
    tail := h.tail.imp id fun ⟨bytes, header, record, stores, part⟩ =>
      ⟨bytes, header, record, stores.mono (le _), part⟩ }

/-- A store in which nothing has failed yet. -/
theorem ofHolds {H K : Set ChunkId} (holds : Holds env V s H K) (clean : Clean s.fs) :
    ∃ L n seg, Frayed env V s L n seg [] [] := by
  obtain ⟨L, n, k, attached, sound, -, -⟩ := holds
  obtain ⟨seg, f, m, hseg, hf, data, pos, hw⟩ := attached.writer
  refine ⟨L, n, seg, sound, hseg, attached.disk.last, fun id hid _ => attached.disk.sealed id hid,
    fun g hg => ?_, ⟨f, ⟨hf, ?_⟩, ?_⟩, ⟨m, hw⟩, fun c loc found =>
      (attached.index.latest c loc found).mem, .inl rfl, clean⟩
  · have same : s.fs.file (.active (n + 1)) = (L (n + 1)).map Segment.whole :=
      attached.disk.sealed (n + 1) (by omega)
    rw [attached.disk.last (n + 1) (by omega), hg] at same
    cases same
  · rw [data]
    exact pos
  · rw [data, List.append_nil]

/-- What went through the buffer is behind the newest segment. -/
theorem buffered (h : Frayed env V s L n seg written rest) {f : File}
    (data : f.data = seg.bytes ++ written) {new written' rest' : Bytes}
    (b : Buffered .own s f new written' rest' t)
    (tail : written ++ new = [] ∨ PartOfRecord env V (written ++ new)) :
    Frayed env V t L n seg (written ++ written') rest' := by
  have others (p : SegPath) (hp : p ≠ .active n) : t.fs.file p = s.fs.file p :=
    (b.file.others p (by rwa [h.path])).1
  obtain ⟨m, hw⟩ := h.writer
  refine ⟨h.sound, h.newest, h.last, fun id hid hnext => ?_, fun g hg => h.next g ?_, ?_, ?_, ?_, ?_,
    ?_⟩
  · rw [others _ (by simpa using hid)]
    exact h.sealed id hid hnext
  · rwa [others _ (by simp)] at hg
  · refine ⟨⟨f.durable, f.data ++ written'⟩, ?_, ?_⟩
    · rw [← h.path]
      exact b.file.atEnd
    · rw [data, List.append_assoc]
  · exact ⟨m, by rw [b.writer, hw]⟩
  · rw [b.mem, setWriter_index]
    exact h.indexed
  · rwa [List.append_assoc, ← b.split]
  · exact h.clean.congr ⟨fun id => others _ (by simp), others _ (by simp)⟩

/-! ## Syncing -/

/-- The state after the newest file was synced. -/
theorem synced (h : Frayed env V s L n seg written rest) {f : File}
    (file : s.fs.file (.active n) = some f) :
    Frayed env V (s.withFs (s.fs.put (.active n) ⟨f.data, f.data⟩)) L n seg written rest := by
  have others (p : SegPath) (hp : p ≠ .active n) :
      (s.fs.put (.active n) ⟨f.data, f.data⟩).file p = s.fs.file p := by
    rw [Fs.file_put, if_neg (Ne.symm hp)]
  obtain ⟨f', atEnd, data⟩ := h.file
  obtain rfl := Option.some.inj (atEnd.1.symm.trans file)
  refine { h with
    sealed := fun id hid hnext => ?_
    next := fun g hg => h.next g ?_
    file := ⟨⟨f'.data, f'.data⟩, ⟨by simp, atEnd.2⟩, data⟩
    clean := h.clean.congr ⟨fun id => others _ (by simp), others _ (by simp)⟩ }
  · rw [Proc.withFs_fs, others _ (by simpa using hid)]
    exact h.sealed id hid hnext
  · rwa [Proc.withFs_fs, others _ (by simp)] at hg

/-- What a sync, or a part of it, leaves: the same bytes behind the newest segment. -/
def Kept (env : Env) (V : Known) (s : SegState) (L : Layout env) (n : Nat) (seg : Segment env)
    (tail : Bytes) (t : SegState) : Prop :=
  t.mem.index .own = s.mem.index .own ∧
    ∃ written rest, written ++ rest = tail ∧ Frayed env V t L n seg written rest

/-- What is behind the newest segment does not change when it is synced. -/
theorem safe_sync (h : Frayed env V s L n seg written rest) :
    Safe failing
      (fun r t => (r = .ok () ∧ t.mem.index .own = s.mem.index .own ∧
          Frayed env V t L n seg (written ++ rest) [] ∧
          t.fs.file (.active n) = some ⟨seg.bytes ++ (written ++ rest),
            seg.bytes ++ (written ++ rest)⟩) ∨
        (∃ e, r = .error e) ∧ Kept env V s L n seg (written ++ rest) t)
      (fun _ => True) (SegmentWriter.sync .own) s := by
  obtain ⟨f, atEnd, data⟩ := h.file
  obtain ⟨m, hw⟩ := h.writer
  have buffer : (s.mem.writer .own).buffer = rest := by rw [hw]
  rw [← h.path] at atEnd
  have start := Buffered.start atEnd
  rw [buffer] at start
  rw [SegmentWriter.sync, safe_bind, safe_get, thenSafe_ok]
  refine safe_when (fun _ => ?_) fun closed => absurd (by rw [hw]) closed
  refine Safe.bind (safe_flush (counted_of_tidy tidy_steady) start fun _ _ _ _ => trivial) ?_ ?_
  · rintro ⟨⟩ t (⟨-, flushed⟩ | ⟨_, ok, -⟩)
    swap
    · cases ok
    have frayed := h.buffered data flushed h.tail
    obtain ⟨g, atEnd', data'⟩ := frayed.file
    rw [h.path]
    refine Proc.safe_sync atEnd'.1 trivial trivial ?_ fun h => h.elim
    refine .inl ⟨rfl, ?_, frayed.synced atEnd'.1, ?_⟩
    · rw [Proc.withFs_mem, flushed.mem, setWriter_index]
    · rw [Proc.withFs_fs, Fs.file_put, if_pos rfl, data']
  · rintro e t (⟨ok, -⟩ | ⟨-, -, written', rest', still⟩)
    · cases ok
    · refine .inr ⟨⟨e, rfl⟩, ?_, written ++ written', rest', ?_, h.buffered data still h.tail⟩
      · rw [still.mem, setWriter_index]
      · rw [List.append_assoc, ← still.split]

end Frayed

/-! ## Closing a segment -/

variable {V : Known} {s : SegState} {L : Layout env} {n : Nat} {seg : Segment env}
  {written rest : Bytes}

/-- A whole record has no other whole record in front. -/
theorem WellFormed.eq_of_prefix {bytes part : Bytes} {h h' : RecordHeader}
    (record : WellFormed env bytes h) (record' : WellFormed env part h') (sub : part <+: bytes) :
    part = bytes := by
  obtain ⟨rest, rfl⟩ := sub
  have short := (isFrame_iff.2 record').parse_append rest
  have long := (isFrame_iff.2 record).parse_append []
  rw [List.append_nil, short] at long
  have same : part.length = (part ++ rest).length := by
    injection long with _ same
  have none : rest = [] := by
    rw [← List.length_eq_zero_iff]
    rw [List.length_append] at same
    omega
  rw [none, List.append_nil]

/-- A newest segment with the record of which a part is behind it. -/
theorem Frayed.close (h : Frayed env V s L n seg written rest) :
    ∃ seg' : Segment env, seg.bytes ++ (written ++ rest) <+: seg'.bytes ∧
      seg'.take seg.records.length = seg ∧ seg.records.length ≤ seg'.records.length ∧
      Sound V (L.put n seg') ∧ L.entries ⊆ (L.put n seg').entries ∧
      ((written ++ rest = [] ∨ ∃ header, WellFormed env (written ++ rest) header) →
        seg'.bytes = seg.bytes ++ (written ++ rest)) := by
  by_cases none : written ++ rest = []
  · have same : L.put n seg = L := Layout.put_eq_self h.newest
    rw [none, List.append_nil]
    refine ⟨seg, List.prefix_rfl, Segment.take_of_length_le (Nat.le_refl _), Nat.le_refl _, ?_, ?_,
      fun _ => rfl⟩
    · rw [same]
      exact h.sound
    · rw [same]
  · obtain ⟨bytes, header, record, stores, part⟩ := h.tail.resolve_left none
    have isFrame := isFrame_iff.2 record
    refine ⟨seg.push bytes header isFrame, ?_, ?_, ?_, ?_, ?_, fun whole => ?_⟩
    · rw [Segment.bytes_push]
      exact (List.prefix_append_right_inj _).2 part
    · rw [Segment.take_push _ _ _ _ (Nat.le_refl _)]
      exact Segment.take_of_length_le (Nat.le_refl _)
    · simp
    · intro r hr
      rw [Layout.records_put_push h.newest] at hr
      rcases hr with rfl | hr
      · exact stores
      · exact h.sound r hr
    · rw [Layout.entries_put_push h.newest]
      exact Set.subset_insert _ _
    · obtain ⟨header', record'⟩ := whole.resolve_left none
      rw [Segment.bytes_push, record.eq_of_prefix record' part]

/-! ## Rotating -/

/-- What starting a segment leaves when its header may not be written: the whole of it, or a file
that is shorter. -/
structure Begun (s : SegState) (id : Nat) (r : Result SegmentWriter) (t : SegState) : Prop where
  mem : t.mem = s.mem
  others : ∀ p, p ≠ .active id → t.fs.file p = s.fs.file p ∧ t.fs.cursor p = s.fs.cursor p
  result : (∃ (h : SegmentHeader) (m : Nat), r = .ok (SegmentWriter.mk none id true []
      segmentHeaderSize m) ∧ AtEnd (.active id) t.fs ⟨h.toBytes, h.toBytes⟩) ∨
    (∃ e, r = .error e) ∧
      ∀ f, t.fs.file (.active id) = some f → f.data.length < segmentHeaderSize

theorem safe_open_short {s : SegState} {id : Nat}
    (short : ∀ f, s.fs.file (.active id) = some f → f.data.length < segmentHeaderSize)
    (maxSegmentSize : Nat) :
    Safe failing (Begun s id) (fun _ => True) (SegmentWriter.open none id 0 maxSegmentSize) s := by
  rw [SegmentWriter.open]
  simp only [SegmentWriter.path, SegPath.segment]
  -- the file before the header is written
  obtain ⟨f, fs, hfs, hf, length, others⟩ : ∃ (f : File) (fs : Fs SegPath),
      fs = s.fs.opened (.active id) ∧ fs.file (.active id) = some f ∧
      f.data.length < segmentHeaderSize ∧
      ∀ p, p ≠ .active id → fs.file p = s.fs.file p ∧ fs.cursor p = s.fs.cursor p := by
    have others (p : SegPath) (hp : p ≠ .active id) :
        (s.fs.opened (.active id)).file p = s.fs.file p ∧
          (s.fs.opened (.active id)).cursor p = s.fs.cursor p := ⟨by simp [Ne.symm hp], by simp [hp]⟩
    cases there : s.fs.file (.active id) with
    | none => exact ⟨⟨[], []⟩, _, rfl, by simp [there], by simp [segmentHeaderSize], others⟩
    | some f => exact ⟨f, _, rfl, by simp [there], short f there, others⟩
  have cursor : fs.cursor (.active id) = 0 := by rw [hfs]; simp
  rw [safe_bind]
  refine Proc.safe_create hfs trivial trivial ?_ fun h => h.elim
  rw [thenSafe_ok, safe_bind, SegmentWriter.begin, if_pos rfl, safe_bind]
  refine Proc.safe_ask.2 fun createdAt _ => ?_
  obtain ⟨h, hh⟩ : ∃ h : SegmentHeader, h = { segmentId := id, createdAt } := ⟨_, rfl⟩
  have wrote (part : Bytes) : (fs.wrote (.active id) f part).file (.active id) =
      some ⟨f.durable, part ++ f.data.drop part.length⟩ := by
    simp [cursor, Bytes.writeAt]
  have others' (part : Bytes) (p : SegPath) (hp : p ≠ .active id) :
      (fs.wrote (.active id) f part).file p = s.fs.file p ∧
        (fs.wrote (.active id) f part).cursor p = s.fs.cursor p := by
    rw [Fs.file_wrote, if_neg (Ne.symm hp), Fs.cursor_wrote, if_neg hp]
    exact others p hp
  rw [thenSafe_ok, safe_bind, ← hh]
  have segment : SegPath.active id ≠ .marker := SegPath.segment_ne_marker none id
  refine safe_writeAll (counted_of_tidy tidy_steady) segment hf (fun _ _ => trivial) ?_
    fun _ count less => ?_
  · have whole : f.data.drop h.toBytes.length = [] := by
      rw [List.drop_eq_nil_iff, SegmentHeader.length_toBytes]
      omega
    rw [thenSafe_ok, safe_bind]
    refine Proc.safe_sync (f := ⟨f.durable, h.toBytes⟩) ?_ trivial trivial ?_ fun h => h.elim
    · rw [Proc.withFs_fs, Proc.withFs_fs, wrote, whole, List.append_nil]
    · refine ⟨rfl, fun p hp => ?_, .inl ⟨h, _, rfl, by simp, ?_⟩⟩
      · refine ⟨?_, (others' _ p hp).2⟩
        rw [Proc.withFs_fs, Fs.file_put, if_neg (Ne.symm hp)]
        exact (others' h.toBytes p hp).1
      · simp [cursor]
  · refine ⟨rfl, others' _, .inr ⟨⟨_, rfl⟩, fun g hg => ?_⟩⟩
    rw [Proc.withFs_fs, Proc.withFs_fs, wrote] at hg
    obtain rfl := Option.some.inj hg
    rw [SegmentHeader.length_toBytes] at less
    simp only [List.length_append, List.length_take, List.length_drop,
      SegmentHeader.length_toBytes]
    omega

/-- Behind a whole record, or behind nothing, a new segment starts in which nothing has failed. -/
theorem Frayed.safe_rotate (h : Frayed env V s L n seg written rest)
    (whole : written ++ rest = [] ∨ ∃ header, WellFormed env (written ++ rest) header) :
    Safe failing
      (fun r t => (r = .ok () ∧ t.mem.index .own = s.mem.index .own ∧
          ∃ (L' : Layout env) (header : SegmentHeader),
            Frayed env V t L' (n + 1) (.created env header) [] []) ∨
        (∃ e, r = .error e) ∧ Frayed.Kept env V s L n seg (written ++ rest) t)
      (fun _ => True) (SegmentWriter.rotate .own) s := by
  obtain ⟨seg', -, -, -, sound, entries, closed⟩ := h.close
  rw [SegmentWriter.rotate]
  refine Safe.bind h.safe_sync ?_ ?_
  swap
  · rintro e t (⟨ok, -⟩ | kept)
    · cases ok
    · exact .inr kept
  rintro ⟨⟩ t (⟨-, index, frayed, file⟩ | ⟨⟨_, ok⟩, -⟩)
  swap
  · cases ok
  obtain ⟨m, hw⟩ := frayed.writer
  rw [safe_bind, safe_get, thenSafe_ok, hw]
  refine Safe.bind (safe_open_short frayed.next m) ?_ ?_
  · rintro w u ⟨mem, others, ⟨header, m', ok, atEnd⟩ | ⟨⟨_, ok⟩, -⟩⟩
    swap
    · cases ok
    cases ok
    have free : L.put n seg' (n + 1) = none := by
      rw [Layout.put_of_ne _ _ (by omega), h.last _ (by omega)]
    have index' : u.mem.index = t.mem.index := by rw [mem]
    rw [safe_set]
    refine .inl ⟨rfl, ?_, (L.put n seg').put (n + 1) (.created env header), header, ?_, ?_, ?_, ?_,
      ?_, ?_, ?_, ?_, .inl rfl, ?_⟩
    · rw [Proc.withMem_mem, setWriter_index, index', index]
    · exact sound.subset (Layout.records_put_created header free).le
    · exact Layout.put_self ..
    · intro id above
      rw [Layout.put_of_ne _ _ (by omega), Layout.put_of_ne _ _ (by omega), h.last _ (by omega)]
    · intro id hid hnext
      rw [Proc.withMem_fs, (others _ (by simpa using hid)).1, Layout.put_of_ne _ _ hid]
      by_cases same : id = n
      · rw [same, file, Layout.put_self, ← closed whole]
        rfl
      · rw [Layout.put_of_ne _ _ same, frayed.sealed id same hid]
    · intro f hf
      rw [Proc.withMem_fs, (others _ (by simp)).1, frayed.sealed _ (by omega) (by omega),
        h.last _ (by omega)] at hf
      cases hf
    · exact ⟨_, atEnd, by simp⟩
    · exact ⟨m', by simp [segmentHeaderSize]⟩
    · intro c loc found
      rw [Proc.withMem_mem, setWriter_index, index', index] at found
      rw [Layout.entries_put_created header free]
      exact entries (h.indexed c loc found)
    · exact frayed.clean.congr ⟨fun id => (others _ (by simp)).1, (others _ (by simp)).1⟩
  · rintro e u ⟨mem, others, ⟨_, _, ok, -⟩ | ⟨-, short⟩⟩
    · cases ok
    have index' : u.mem.index = t.mem.index := by rw [mem]
    refine .inr ⟨⟨e, rfl⟩, by rw [index', index], written ++ rest, [], by simp, { frayed with
      sealed := fun id hid hnext => ?_
      next := short
      file := ?_
      writer := ?_
      indexed := ?_
      clean := frayed.clean.congr ⟨fun id => (others _ (by simp)).1, (others _ (by simp)).1⟩ }⟩
    · rw [(others _ (by simpa using hnext)).1]
      exact frayed.sealed id hid hnext
    · obtain ⟨f, ⟨hf, cursor⟩, data⟩ := frayed.file
      refine ⟨f, ⟨?_, ?_⟩, data⟩
      · rw [(others _ (by simp)).1, hf]
      · rw [(others _ (by simp)).2, cursor]
    · rw [mem]
      exact frayed.writer
    · rw [index']
      exact frayed.indexed

/-! ## Putting -/

/-- What an attempt to put a chunk leaves. -/
structure Tried {α : Type} (env : Env) (V : Known) (s : SegState) (c : ChunkId) (r : Result α)
    (t : SegState) : Prop where
  frayed : ∃ L n seg written rest, Frayed env V t L n seg written rest
  keeps : ∀ c', (s.mem.index .own).contains c' = true → (t.mem.index .own).contains c' = true
  done : ∀ a, r = .ok a → (t.mem.index .own).contains c = true

/-- A record goes behind a segment in which nothing has failed: all of it, or a part. -/
theorem Frayed.safe_writeRecord (h : Frayed env V s L n seg [] []) {data : Bytes} (nonce : Nonce)
    (fits : Fits env data) (known : V (ChunkId.fromData env data) data) :
    Safe failing (Tried env V s (ChunkId.fromData env data)) (fun _ => True)
      (SegmentWriter.writeRecord env .own (ChunkId.fromData env data) data
        (chunkRecord env (ChunkId.fromData env data) data nonce)) s := by
  obtain ⟨c, hc⟩ : ∃ c, c = ChunkId.fromData env data := ⟨_, rfl⟩
  obtain ⟨f, atEnd, content⟩ := h.file
  obtain ⟨m, writer⟩ := h.writer
  have stores := stores_chunkRecord nonce fits known
  have isRecord := isRecord_chunkRecord c nonce fits
  rw [← hc] at stores ⊢
  obtain ⟨header, hheader⟩ : ∃ header, header = (chunkRecord env c data nonce).1 := ⟨_, rfl⟩
  obtain ⟨payload, hpayload⟩ : ∃ payload, payload = (chunkRecord env c data nonce).2 := ⟨_, rfl⟩
  have number : header.chunkId = c := by rw [hheader, chunkRecord_chunkId]
  rw [← hheader, ← hpayload] at isRecord
  replace stores : Stores env V (header.toBytes env ++ payload, header) := by
    rw [hheader, hpayload]
    exact stores
  have start : Buffered .own s f [] [] [] s := by
    have start := @Buffered.start .own s f (by rwa [h.path])
    rwa [writer] at start
  rw [List.append_nil] at content
  rw [SegmentWriter.writeRecord, safe_bind, safe_get, thenSafe_ok, safe_bind, SegmentWriter.file,
    if_pos (by rw [writer]), safe_ofExcept, thenSafe_ok]
  refine Safe.bind (safe_writeOut (counted_of_tidy tidy_steady) (f := f) (by rw [writer]) (by rwa [h.path]) _
    fun _ _ _ _ => trivial) ?_ ?_
  · rintro ⟨⟩ u (⟨-, mem, grown⟩ | ⟨_, ok, -⟩)
    swap
    · cases ok
    rw [← hheader, ← hpayload, h.path] at grown
    rw [safe_bind, Proc.safe_load, thenSafe_ok, Proc.safe_save, mem]
    have location : (c, (SegmentWriter.mk none n true [] seg.bytes.length m).location data
        payload) = entry n (seg.bytes.length, header) := by
      rw [entry, number, hheader, hpayload]
      rfl
    obtain ⟨seg', hseg'⟩ : ∃ seg', seg' = seg.push (header.toBytes env ++ payload) header
      isRecord.isFrame := ⟨_, rfl⟩
    have bytes : seg'.bytes = seg.bytes ++ (header.toBytes env ++ payload) := by
      rw [hseg', Segment.bytes_push]
    have others (p : SegPath) (hp : p ≠ .active n) : u.fs.file p = s.fs.file p :=
      (grown.others p hp).1
    refine ⟨⟨L.put n seg', n, seg', [], [], ?_, Layout.put_self .., ?_, ?_, ?_, ?_, ?_, ?_, .inl rfl,
      ?_⟩, ?_, ?_⟩
    · intro r hr
      rw [hseg', Layout.records_put_push h.newest] at hr
      rcases hr with rfl | hr
      · exact stores
      · exact h.sound r hr
    · intro id above
      rw [Layout.put_of_ne _ _ (by omega), h.last id above]
    · intro id hid hnext
      rw [Proc.withMem_fs, others _ (by simpa using hid), Layout.put_of_ne _ _ hid,
        h.sealed id hid hnext]
    · intro g hg
      rw [Proc.withMem_fs, others _ (by simp)] at hg
      exact h.next g hg
    · exact ⟨_, grown.atEnd, by rw [content, bytes, List.append_nil]⟩
    · exact ⟨m, by simp [bytes, writer, ← hpayload]⟩
    · intro c' loc found
      rw [hseg', Layout.entries_put_push h.newest, ← location]
      simp only [Proc.withMem_mem, setIndex_index, if_pos, writer,
        Std.ExtTreeMap.getElem?_insert] at found
      split at found
      · rename_i same
        obtain rfl := Std.LawfulEqOrd.eq_of_compare same
        obtain rfl := Option.some.inj found
        rw [← hpayload]
        exact .inl rfl
      · exact .inr (h.indexed c' loc found)
    · exact h.clean.congr ⟨fun id => others _ (by simp), others _ (by simp)⟩
    · intro c' there
      simp [there]
    · intro _ _
      simp
  · rintro e u (⟨ok, -⟩ | ⟨-, -, part, written, rest, -, sub, still⟩)
    · cases ok
    · refine ⟨⟨L, n, seg, written, rest, ?_⟩, ?_, fun _ h => by cases h⟩
      · refine h.buffered (by rw [content, List.append_nil]) still (.inr ?_)
        rw [← hheader, ← hpayload] at sub
        exact ⟨_, header, isFrame_iff.1 isRecord.isFrame, stores, sub⟩
      · rw [still.mem, setWriter_index]
        exact fun _ h => h

/-- Putting a chunk where it is indexed. -/
theorem Frayed.safe_put (h : Frayed env V s L n seg written rest) {data : Bytes}
    (placed : Placed env s data) (known : V (ChunkId.fromData env data) data) :
    Safe failing (Tried env V s (ChunkId.fromData env data)) (fun _ => True)
      ((StoreOp.put data).run env) s := by
  obtain ⟨fits, place⟩ := placed
  rw [h.leftover_eq] at place
  refine Safe.bind (P := Tried env V s (ChunkId.fromData env data)) ?_ ?_ ?_
  rotate_left
  · exact fun a t tried => ⟨tried.frayed, tried.keeps, fun _ _ => tried.done a rfl⟩
  · exact fun e t tried => ⟨tried.frayed, tried.keeps, fun _ h => by cases h⟩
  rw [putChunk, safe_bind, Proc.safe_load, thenSafe_ok]
  split
  · rename_i there
    exact ⟨⟨L, n, seg, written, rest, h⟩, fun _ h => h, fun _ _ => there⟩
  rename_i absent
  replace place := place.resolve_left absent
  refine Safe.bind (P := Tried env V s (ChunkId.fromData env data)) ?_ ?_ ?_
  rotate_left
  · exact fun a t tried => ⟨tried.frayed, tried.keeps, fun _ _ => tried.done a rfl⟩
  · exact fun e t tried => ⟨tried.frayed, tried.keeps, fun _ h => by cases h⟩
  rw [SegmentWriter.appendChunk]
  refine Safe.bind (P := fun r t => (∃ nonce, r = .ok nonce) ∧ t = s) ?_ ?_ ?_
  · rw [SegmentWriter.freshNonce]
    split
    · exact Proc.safe_ask.2 fun nonce _ => ⟨⟨nonce, rfl⟩, rfl⟩
    · exact ⟨⟨_, rfl⟩, rfl⟩
  swap
  · rintro e t ⟨⟨_, ok⟩, -⟩
    cases ok
  rintro nonce t ⟨-, rfl⟩
  simp only
  rw [safe_bind, safe_get, thenSafe_ok]
  -- the record goes to a segment in which nothing has failed
  refine Safe.bind (P := fun r u => u.mem.index .own = t.mem.index .own ∧
    ((r = .ok () ∧ ∃ L' n' seg', Frayed env V u L' n' seg' [] []) ∨
      (∃ e, r = .error e) ∧ ∃ written' rest', Frayed env V u L n seg written' rest')) ?_ ?_ ?_
  · refine safe_when (fun _ => ?_) fun stays => ?_
    · refine (h.safe_rotate (place.imp id And.left)).mono ?_ fun _ hc => hc
      rintro r u (⟨rfl, index, L', header, frayed⟩ | ⟨failed, index, written', rest', -, frayed⟩)
      · exact ⟨index, .inl ⟨rfl, L', _, _, frayed⟩⟩
      · exact ⟨index, .inr ⟨failed, written', rest', frayed⟩⟩
    · have none : written ++ rest = [] := by
        refine place.resolve_right fun rotates => stays ?_
        rw [length_chunkRecord_payload]
        exact rotates.2
      obtain ⟨rfl, rfl⟩ := List.append_eq_nil_iff.1 none
      exact ⟨rfl, .inl ⟨rfl, L, n, seg, h⟩⟩
  · rintro ⟨⟩ u ⟨index, ⟨-, L', n', seg', frayed⟩ | ⟨⟨_, ok⟩, -⟩⟩
    swap
    · cases ok
    refine (frayed.safe_writeRecord nonce fits known).mono ?_ fun _ hc => hc
    rintro r v tried
    exact ⟨tried.frayed, fun c' there => tried.keeps c' (by rwa [index]), tried.done⟩
  · rintro e u ⟨index, ⟨ok, -⟩ | ⟨-, written', rest', frayed⟩⟩
    · cases ok
    · exact ⟨⟨L, n, seg, written', rest', frayed⟩, fun c' there => by rwa [index], fun _ h => by cases h⟩

/-! ## Reading and reopening -/

/-- A chunk that is indexed is read, whatever is behind the newest segment. -/
theorem Frayed.safe_getChunk {fails : Prop} (h : Frayed env V s L n seg written rest) {c : ChunkId}
    (there : (s.mem.index .own).contains c = true) :
    Safe (segMachine (fun _ => False) fails) (fun r _ => ∃ d, V c d ∧ r = .ok d) (fun _ => True)
      (getChunk env c) s := by
  rw [← Std.ExtTreeMap.isSome_getElem?_eq_contains, Option.isSome_iff_exists] at there
  obtain ⟨loc, found⟩ := there
  obtain ⟨seg', d, hseg, known, reads⟩ := h.sound.read_append (h.indexed c loc found)
  -- the file of the chunk starts with its segment
  obtain ⟨f, tail, hf, content⟩ : ∃ f tail, s.fs.file (.active loc.segmentId) = some f ∧
      f.data = seg'.bytes ++ tail := by
    by_cases hid : loc.segmentId = n
    · rw [hid, h.newest] at hseg
      obtain rfl := Option.some.inj hseg
      obtain ⟨f, ⟨hf, -⟩, content⟩ := h.file
      exact ⟨f, written, by rw [hid, hf], content⟩
    · have hnext : loc.segmentId ≠ n + 1 := fun same => by
        rw [h.last _ (by omega)] at hseg
        cases hseg
      exact ⟨seg'.whole, [], by rw [h.sealed _ hid hnext, hseg]; rfl, (List.append_nil _).symm⟩
  rw [getChunk, safe_bind, Proc.safe_load, thenSafe_ok, safe_bind]
  simp only [locationOf, found]
  rw [safe_ofExcept, thenSafe_ok, readChunk, safe_bind, safe_handle]
  refine Proc.safe_read (fun f' hf' => ?_) (fun absent => ?_) fun h => h.elim
  · obtain rfl := Option.some.inj (hf.symm.trans hf')
    simp only
    rw [thenSafe_ok, safe_ofExcept, content]
    exact ⟨d, known, reads tail⟩
  · rw [hf] at absent
    cases absent

/-- After a sync the directory is that of a store that stopped while it appended a record. -/
theorem Frayed.recoverable (h : Frayed env V s L n seg written []) {f : File}
    (file : s.fs.file (.active n) = some f) (durable : f.durable = f.data) (alive : ¬ Dead s.fs)
    {K : Set ChunkId} (indexed : ∀ c ∈ K, (s.mem.index .own).contains c = true) :
    Forward s.fs ∧ Recoverable s.fs (Keeps V K : Layout env → Prop) := by
  obtain ⟨seg', part, front, bound, sound, entries, -⟩ := h.close
  rw [List.append_nil] at part
  have noNext : s.fs.file (.active (n + 1)) = none := by
    cases hn : s.fs.file (.active (n + 1)) with
    | none => rfl
    | some g => exact absurd ⟨_, g, hn, h.next g hn⟩ alive
  have exactly (id : Nat) (hid : id ≠ n) : s.fs.file (.active id) = (L id).map Segment.whole := by
    by_cases hnext : id = n + 1
    · rw [hnext, noNext, h.last _ (by omega)]
      rfl
    · exact h.sealed id hid hnext
  obtain ⟨f', ⟨hf, -⟩, content⟩ := h.file
  obtain rfl := Option.some.inj (hf.symm.trans file)
  rw [← content] at part
  have start : seg.bytes <+: f'.data := by
    rw [content]
    exact List.prefix_append _ _
  refine ⟨fun id g hg => ?_, .settled (L.put n seg') n seg.records.length h.clean.quiet
    ⟨fun id hid => ?_, fun none => ?_, fun seg₁ h₁ => ?_, fun id above => ?_⟩
    fun j hj => .cut sound (fun c hc => ?_) hj⟩
  · by_cases hid : id = n
    · rw [hid, hf] at hg
      obtain rfl := Option.some.inj hg
      rw [durable]
    · rw [exactly id hid] at hg
      obtain ⟨_, -, rfl⟩ := Option.map_eq_some_iff.1 hg
      exact List.prefix_rfl
  · rw [Layout.put_of_ne _ _ hid]
    exact exactly id hid
  · rw [Layout.put_self] at none
    cases none
  · obtain rfl := Option.some.inj ((Layout.put_self ..).symm.trans h₁)
    refine ⟨f', hf, durable ▸ part, part, fun _ => ?_, bound⟩
    rw [front]
    exact ⟨durable ▸ start, start⟩
  · rw [Layout.put_of_ne _ _ (by omega), h.last id above]
  · have there := indexed c hc
    rw [← Std.ExtTreeMap.isSome_getElem?_eq_contains, Option.isSome_iff_exists] at there
    obtain ⟨loc, found⟩ := there
    have has : L.Has c := Layout.has_iff.2 ⟨loc, h.indexed c loc found⟩
    have same : (L.put n seg').cut n seg.records.length = L := by
      rw [Layout.cut_eq_put (Layout.put_self ..), front, Layout.put, Layout.put,
        Function.update_idem]
      exact Layout.put_eq_self h.newest
    rwa [same]

/-! ## Runs -/

/-- What holds in every state of a run in which writes may fail. -/
structure WritesInv (env : Env) (s : SegState) (g : History) : Prop where
  held : g.held ⊆ g.puts
  frayed : ∃ L n seg written rest, Frayed env (g.known env) s L n seg written rest
  indexed : ∀ d ∈ g.held, (s.mem.index .own).contains (ChunkId.fromData env d) = true

variable {g : History}

theorem WritesInv.ofStoreInv (inv : StoreInv env ⟨.running s, g⟩) : WritesInv env s g := by
  obtain ⟨clean, H, sub, holds⟩ := inv.running s rfl
  obtain ⟨L, n, seg, frayed⟩ := Frayed.ofHolds holds clean
  exact ⟨inv.held, ⟨L, n, seg, [], [], frayed⟩, fun d hd =>
    (holds.contains_iff _).2 (sub ⟨d, hd, rfl⟩)⟩

theorem WritesInv.put (inv : WritesInv env s g) {data : Bytes} (placed : Placed env s data)
    {r : Result Unit} {t : SegState}
    (returned : Returns failing ((StoreOp.put data).run env) s r t) :
    WritesInv env t ((StoreOp.put data).after env g r) := by
  obtain ⟨L, n, seg, written, rest, frayed⟩ := inv.frayed
  have wider := frayed.known (W := History.known env { g with puts := insert data g.puts })
    fun c d => History.known_mono (g := g) (Set.subset_insert data g.puts) c d
  have tried := (wider.safe_put placed ⟨Set.mem_insert .., rfl⟩).returns returned
  cases r with
  | ok a =>
    refine ⟨Set.insert_subset_insert inv.held, tried.frayed, ?_⟩
    rintro d (rfl | hd)
    · exact tried.done a rfl
    · exact tried.keeps _ (inv.indexed d hd)
  | error e =>
    exact ⟨inv.held.trans (Set.subset_insert _ _), tried.frayed,
      fun d hd => tried.keeps _ (inv.indexed d hd)⟩

theorem WritesInv.sync (inv : WritesInv env s g) {r : Result Unit} {t : SegState}
    (returned : Returns failing (StoreOp.sync.run env) s r t) :
    WritesInv env t (StoreOp.sync.after env g r) := by
  obtain ⟨L, n, seg, written, rest, frayed⟩ := inv.frayed
  rcases frayed.safe_sync.returns returned with ⟨rfl, index, frayed', -⟩ | ⟨⟨e, rfl⟩, index, kept⟩
  · exact ⟨inv.held, ⟨_, _, _, _, _, frayed'⟩, fun d hd => by rw [index]; exact inv.indexed d hd⟩
  · obtain ⟨written', rest', -, frayed'⟩ := kept
    exact ⟨inv.held, ⟨_, _, _, _, _, frayed'⟩, fun d hd => by rw [index]; exact inv.indexed d hd⟩

theorem writesInv (h : WritesReach env (Placed env) s g) : WritesInv env s g := by
  induction h with
  | start reachable => exact .ofStoreInv (storeInv reachable)
  | put _ placed returned ih => exact ih.put placed returned
  | sync _ returned ih => exact ih.sync returned

theorem readsBack_of_known {fails : Prop} {V : Known} (held : g.held ⊆ g.puts)
    (known : ∀ c d, V c d → g.known env c d)
    (reads : ∀ d ∈ g.held, Safe (segMachine (fun _ => False) fails)
      (fun r _ => ∃ e, V (ChunkId.fromData env d) e ∧ r = .ok e) (fun _ => True)
      (getChunk env (ChunkId.fromData env d)) s) : ReadsBack env fails g s := by
  intro d hd
  refine ((reads d hd).ends (total_segMachine _)).mono ?_
  rintro r t ⟨e, he, rfl⟩
  obtain ⟨put, same⟩ := known _ e he
  exact ⟨e, put, rfl, same, fun distinct => distinct put (held hd) same⟩

/-- In a run in which writes may fail, every acknowledged chunk is read back, also after a sync and
a reopening, if each chunk was put where it is indexed and no segment file is left without its
header. -/
theorem acknowledged_chunks_are_read (env : Env) (s : SegState) (g : History)
    (h : WritesReach env (Placed env) s g) : ReadsBack env True g s ∧ ReadsBackReopened env g s := by
  have inv := writesInv h
  obtain ⟨L, n, seg, written, rest, frayed⟩ := inv.frayed
  refine ⟨readsBack_of_known inv.held (fun _ _ h => h) fun d hd =>
    frayed.safe_getChunk (inv.indexed d hd), fun t synced alive maxSegmentSize mem => ?_⟩
  rcases frayed.safe_sync.returns synced with ⟨-, index, frayed', file⟩ | ⟨⟨_, ok⟩, -⟩
  swap
  · cases ok
  obtain ⟨forward, recoverable⟩ := frayed'.recoverable
    (K := ChunkId.fromData env '' g.held) file rfl alive (by
      rintro _ ⟨d, hd, rfl⟩
      rw [index]
      exact inv.indexed d hd)
  refine ((Recoverable.openStore tidy_steady (s := ⟨t.fs, mem⟩) recoverable forward alive
    maxSegmentSize).ends (total_segMachine _)).mono ?_
  rintro r u ⟨ok, ⟨H, holds⟩, -⟩
  refine ⟨ok, readsBack_of_known inv.held (fun _ _ h => h) fun d hd => ?_⟩
  obtain ⟨e, known, reads⟩ := holds.getChunk tidy_steady (holds.le ⟨d, hd, rfl⟩)
  exact (reads _).mono (fun _ _ hr => ⟨e, known, hr.2⟩) fun _ hc => hc

end FailedWrites

/-! ## A write that fails after ten bytes -/

namespace StoreSample

/-- The write of a record with three bytes of data fails. -/
def shortAnswer : ∀ q : SegQuestion, q.Ans
  | .accepts count => if count = recordHeaderSizeV3 + 3 then (10 : Nat) else count
  | q => answer q

theorem legal_shortAnswer (q : SegQuestion) : q.Allowed True (shortAnswer q) := by
  cases q with
  | entries index => exact List.Perm.refl _
  | accepts count =>
    rw [SegQuestion.Allowed, shortAnswer]
    split
    · rename_i same
      rw [same]
      exact .inr ⟨trivial, show 10 < recordHeaderSizeV3 + 3 by decide⟩
    · exact .inl rfl
  | _ => trivial

/-- A program run while that write fails. -/
def runShort {α : Type} (p : SegProg α) (s : SegState) : Result α × SegState :=
  Proc.exec OosLiteError.ofIo (fun _ => false) shortAnswer p [] s

theorem returns_runShort {α : Type} (p : SegProg α) (s : SegState) :
    Returns failing p s (runShort p s).1 (runShort p s).2 :=
  (Proc.returns_exec legal_shortAnswer p [] s).mono
    (Proc.machine_le _ _ _ _ fun _ h => Bool.false_ne_true h)

theorem fits (data : Bytes) (h : data.length = 3) : Fits env data :=
  fits_of_length_le (by rw [h]; decide)

/-- A run up to a store with one chunk. -/
theorem reachable_stored :
    StoreReachable env (Spared env) ⟨.running stored, ⟨{chunk}, {chunk}, ∅⟩⟩ := by
  have opens := returns_run (openStore env 0) ⟨empty, memory⟩
  rw [show (run (openStore env 0) ⟨empty, memory⟩).1 = .ok () by decide +kernel] at opens
  have puts := returns_run ((StoreOp.put chunk).run env) opened
  rw [show (run ((StoreOp.put chunk).run env) opened).1 = .ok () by decide +kernel] at puts
  have first : StoreReachable env (Spared env) ⟨.running opened, ⟨∅, ∅, ∅⟩⟩ := by
    refine .step .start (.opened opens) fun fs h => ?_
    obtain rfl := StorePhase.down.inj h
    rintro ⟨id, f, hf, -⟩
    simp [Fs.file] at hf
  have all : insert chunk ∅ = ({chunk} : Set Bytes) := by simp
  have second := first.step (.op puts) (fits chunk rfl)
  rwa [StoreOp.after, all] at second

/-- The store after the write of a second chunk has failed. -/
def frayed : SegState := (runShort ((StoreOp.put lastChunk).run env) stored).2

theorem placed_lastChunk : Placed env stored lastChunk :=
  ⟨fits lastChunk rfl, .inr (.inl (by decide +kernel))⟩

theorem reach_frayed {allowed : SegState → Bytes → Prop} (h : allowed stored lastChunk) :
    WritesReach env allowed frayed ⟨{lastChunk, chunk}, {chunk}, ∅⟩ := by
  have puts := returns_runShort ((StoreOp.put lastChunk).run env) stored
  obtain ⟨e, failed⟩ := Result.exists_error
    (x := (runShort ((StoreOp.put lastChunk).run env) stored).1) (by decide +kernel)
  rw [failed] at puts
  exact WritesReach.put (.start reachable_stored) h puts

/-- A chunk that is put then. -/
def nextChunk : Bytes := [115, 105, 120]

def misplaced : SegState := (runShort ((StoreOp.put nextChunk).run env) frayed).2

end StoreSample

theorem acknowledged_chunks_are_read_sample :
    ReadsBack StoreSample.env True ⟨{StoreSample.lastChunk, StoreSample.chunk},
        {StoreSample.chunk}, ∅⟩ StoreSample.frayed ∧
      ReadsBackReopened StoreSample.env ⟨{StoreSample.lastChunk, StoreSample.chunk},
        {StoreSample.chunk}, ∅⟩ StoreSample.frayed :=
  acknowledged_chunks_are_read StoreSample.env StoreSample.frayed _
    (StoreSample.reach_frayed StoreSample.placed_lastChunk)

/-- The chunk put after a failed append is indexed where the rest of that append lies. -/
theorem chunk_after_failed_append_is_not_read :
    ¬ ∀ s g, WritesReach StoreSample.env (fun _ data => Fits StoreSample.env data) s g →
      ReadsBack StoreSample.env True g s ∧ ReadsBackReopened StoreSample.env g s := by
  intro all
  have puts := StoreSample.returns_runShort
    ((StoreOp.put StoreSample.nextChunk).run StoreSample.env) StoreSample.frayed
  rw [show (StoreSample.runShort ((StoreOp.put StoreSample.nextChunk).run StoreSample.env)
    StoreSample.frayed).1 = .ok () by decide +kernel] at puts
  have before := @StoreSample.reach_frayed (fun _ data => Fits StoreSample.env data)
    (StoreSample.fits _ rfl)
  have reach := WritesReach.put before (StoreSample.fits StoreSample.nextChunk rfl) puts
  have reads := (all _ _ reach).1 StoreSample.nextChunk (Set.mem_insert ..)
  have returned := StoreSample.returns_runShort (getChunk StoreSample.env
    (ChunkId.fromData StoreSample.env StoreSample.nextChunk)) StoreSample.misplaced
  obtain ⟨e, failed⟩ := Result.exists_error (x := (StoreSample.runShort (getChunk StoreSample.env
    (ChunkId.fromData StoreSample.env StoreSample.nextChunk)) StoreSample.misplaced).1)
    (by decide +kernel)
  rw [failed] at returned
  obtain ⟨d, -, ok, -⟩ := reads.all _ _ returned
  cases ok

end OosLite
