import OosLite.Segment.Proofs.Progress
import OosLite.Segment.Proofs.TailRecovery

/-!
# The scan and the reader

`recover_and_index` and `read_chunk` parse the same records with bounds of their own. They differ
for a payload that is longer than a segment by default, and for a record with the header of 56
bytes near the end of its file, of which the reader expects 80.
-/

namespace OosLite

open Files Effect SegmentStore

section ReaderAgreement

variable {env : Env}

/-! ## One record -/

/-- What the payload of a record decodes to, if it has the digest that the header names. -/
structure Content (env : Env) (bytes : Bytes) (h : RecordHeader) (d : Bytes) : Prop where
  digest : ChunkId.fromData env d = h.chunkId
  decodes : ∃ plain, decryptPayload env h (bytes.drop h.headerSize) = .ok plain ∧
    ∀ offset, decompress env offset h.chunkId h.compressionCodec plain = .ok d

/-- The record that `append_chunk` writes holds its chunk. -/
theorem content_chunkRecord (data : Bytes) (nonce : Nonce) :
    Content env (chunkRecordBytes env (ChunkId.fromData env data) data nonce)
      (chunkRecord env (ChunkId.fromData env data) data nonce).1 data where
  digest := rfl
  decodes := by
    have payload : (chunkRecordBytes env (ChunkId.fromData env data) data nonce).drop
        (chunkRecord env (ChunkId.fromData env data) data nonce).1.headerSize =
        (chunkRecord env (ChunkId.fromData env data) data nonce).2 := by
      rw [chunkRecordBytes]
      exact Bytes.drop_field (by rw [RecordHeader.length_toBytes]; rfl)
    refine ⟨_, by rw [payload]; exact decryptPayload_chunkRecord _ data nonce, fun offset => ?_⟩
    rw [compressionCodec_chunkRecord]
    exact decompress_compress offset _ data

/-- What the reader asks of a record at an offset of a file and the scan does not: a payload no
longer than a segment by default, and behind a record with the header of 56 bytes the 24 bytes
that this header is shorter. -/
def Readable (fileLength offset : Nat) (h : RecordHeader) : Prop :=
  h.payloadLen.toNat ≤ defaultMaxSegmentSize ∧
    (h.headerSize = recordHeaderSizeV2 → offset + h.size + 24 ≤ fileLength)

theorem headerSize_eq {r : Bytes} {h : RecordHeader}
    (ok : RecordHeader.readFrom env r = .ok (some h)) :
    h.headerSize = recordHeaderSizeV2 ∨ h.headerSize = recordHeaderSizeV3 := by
  rw [RecordHeader.readFrom] at ok
  split at ok
  · cases ok
  split at ok
  · exact .inr (RecordHeader.readV3_eq_some ok).2
  split at ok
  · exact .inl (RecordHeader.readV2_eq_some ok).2
  · cases ok

/-- The reader returns the content of a record exactly if it accepts it where it lies. -/
theorem readRecord_iff {bytes before after d : Bytes} {h : RecordHeader} {loc : ChunkLocation}
    (record : WellFormed env bytes h) (content : Content env bytes h d)
    (offset : loc.recordOffset = before.length) (len : loc.payloadLen = h.payloadLen) :
    readRecord env (before ++ (bytes ++ after)) h.chunkId loc = .ok d ↔
      Readable (before ++ (bytes ++ after)).length before.length h := by
  obtain ⟨file, hfile⟩ : ∃ file, file = before ++ (bytes ++ after) := ⟨_, rfl⟩
  have total : file.length = before.length + (h.size + after.length) := by
    rw [hfile, List.length_append, List.length_append, record.length]
  have sizes := headerSize_eq record.header
  have item := (isFrame_iff.2 record).parse_append after
  obtain ⟨header, -, -⟩ := nextRecord_eq_item item
  have rest : file.drop loc.recordOffset = bytes ++ after := by
    rw [hfile, offset, List.drop_left]
  have stored : Bytes.slice file (loc.recordOffset + h.headerSize) h.payloadLen.toNat =
      bytes.drop h.headerSize := by
    have long : h.headerSize ≤ bytes.length := by rw [record.length, RecordHeader.size]; omega
    rw [Bytes.slice, ← List.drop_drop, rest, List.drop_append_of_le_length long, List.take_left']
    rw [List.length_drop, record.length, RecordHeader.size]
    omega
  obtain ⟨plain, decrypted, raw⟩ := content.decodes
  rw [← hfile, readRecord, rest, header, Readable, ← offset, RecordHeader.size]
  rw [← offset, RecordHeader.size] at total
  simp only [recordHeaderSizeV2, recordHeaderSizeV3] at sizes ⊢
  constructor
  · intro ok
    split at ok
    · cases ok
    replace ok : readPayload env file h.chunkId loc h = .ok d := ok
    simp only [readPayload] at ok
    split at ok
    · cases ok
    split at ok
    · cases ok
    split at ok
    · cases ok
    rename_i small fits
    simp only [recordHeaderSize, recordHeaderSizeV3] at fits
    exact ⟨Nat.le_of_not_lt small, by omega⟩
  · rintro ⟨small, fits⟩
    have enough : loc.recordOffset + recordHeaderSize + h.payloadLen.toNat ≤ file.length := by
      simp only [recordHeaderSize, recordHeaderSizeV3]
      omega
    rw [if_neg (by omega)]
    show readPayload env file h.chunkId loc h = .ok d
    rw [readPayload, if_neg (by simp [len]), if_neg (by omega), if_neg (by omega), stored,
      if_neg (not_not_intro record.checksum.symm), decrypted]
    simp only [bind, Except.bind]
    rw [raw]
    simp only
    rw [if_neg (not_not_intro content.digest)]

/-! ## The records of a directory -/

/-- A record that recovery inserts into the index: where it lies, its bytes and its header. -/
structure Inserted (L : Layout env) (n length id : Nat) (seg : Segment env) (offset : Nat)
    (bytes : Bytes) (h : RecordHeader) : Prop where
  segment : L id = some seg
  record : ∃ front after, seg.records = front ++ (bytes, h) :: after ∧
    offset = segmentHeaderSize + (Framing.join front).length
  within : id = n → offset + h.size ≤ length

/-- The length of a segment file after recovery. -/
def Segment.keptLength (seg : Segment env) (n length id : Nat) : Nat :=
  if id = n then seg.endBefore length else seg.bytes.length

variable {L : Layout env} {n length id offset : Nat} {seg : Segment env} {bytes : Bytes}
  {h : RecordHeader}

theorem Inserted.wellFormed (inserted : Inserted L n length id seg offset bytes h) :
    WellFormed env bytes h := by
  obtain ⟨front, after, split, -⟩ := inserted.record
  exact isFrame_iff.1 (seg.isFrame (bytes, h) (by simp [split]))

theorem Inserted.mem_records (inserted : Inserted L n length id seg offset bytes h) :
    (bytes, h) ∈ L.records := by
  obtain ⟨front, after, split, -⟩ := inserted.record
  exact ⟨id, seg, inserted.segment, by simp [split]⟩

/-- What recovery inserts is what its index comes from. -/
theorem mem_entriesBefore {e : ChunkId × ChunkLocation} (he : e ∈ L.entriesBefore n length) :
    ∃ id seg offset bytes h, Inserted L n length id seg offset bytes h ∧
      e = entry id (offset, h) := by
  obtain ⟨id, seg, hseg, hmem⟩ := he
  obtain ⟨x, hx, rfl⟩ := List.mem_map.1 hmem
  have found : x ∈ seg.found ∧ (id = n → x.1 + x.2.size ≤ length) := by
    split at hx
    · obtain ⟨there, short⟩ := List.mem_filter.1 hx
      exact ⟨there, fun _ => of_decide_eq_true short⟩
    · rename_i other
      exact ⟨hx, fun same => absurd same other⟩
  obtain ⟨front, bytes, after, split, offset⟩ := Framing.mem_locate found.1
  exact ⟨id, seg, x.1, bytes, x.2, ⟨hseg, ⟨front, after, split, offset⟩, found.2⟩, rfl⟩

/-- The front of a segment that is not shorter than its header. -/
theorem Segment.header_le_endBefore (seg : Segment env) (long : segmentHeaderSize ≤ length) :
    segmentHeaderSize ≤ seg.endBefore length := by
  obtain ⟨j, -, -, -, -, -, ends⟩ := seg.exists_before long
  rw [ends, Segment.length_bytes]
  omega

/-- An inserted record lies within what recovery leaves of its file. -/
theorem Inserted.bytes_eq (inserted : Inserted L n length id seg offset bytes h)
    (long : segmentHeaderSize ≤ length) : ∃ before after : Bytes, offset = before.length ∧
      seg.bytes.take (seg.keptLength n length id) = before ++ (bytes ++ after) := by
  obtain ⟨front, after, split, place⟩ := inserted.record
  have whole : seg.bytes = (seg.header ++ Framing.join front ++ bytes) ++ Framing.join after := by
    simp [Segment.bytes, split]
  have start : offset = (seg.header ++ Framing.join front).length := by
    rw [List.length_append, seg.length_header, place]
  have reach : offset + bytes.length ≤ seg.keptLength n length id := by
    rw [Segment.keptLength]
    split
    · rename_i same
      have found : (offset, h) ∈ seg.found := by
        rw [Segment.found, split, Framing.locate_append]
        simp [Framing.locate, place]
      have here : (offset, h) ∈ seg.before length :=
        List.mem_filter.2 ⟨found, decide_eq_true (inserted.within same)⟩
      obtain ⟨j, -, -, -, -, before, ends⟩ := seg.exists_before long
      rw [before] at here
      obtain ⟨i, -, -, size⟩ := Segment.mem_found here
      have := ((seg.take j).isPrefix_take (i + 1)).length_le
      rw [inserted.wellFormed.length, ends, size]
      exact this
    · rw [whole, List.length_append, List.length_append, ← start]
      omega
  refine ⟨seg.header ++ Framing.join front,
    (Framing.join after).take (seg.keptLength n length id - (offset + bytes.length)), start, ?_⟩
  have long' : (seg.header ++ Framing.join front ++ bytes).length ≤ seg.keptLength n length id := by
    rw [List.length_append, ← start]
    exact reach
  rw [whole, List.take_append, List.take_of_length_le long', List.length_append, ← start,
    List.append_assoc]

/-! ## The directory after recovery -/

/-- A store that was opened on a directory of which the end of the newest segment is missing. -/
structure OpenedCut (L : Layout env) (n length : Nat) (t : SegState) : Prop where
  index : IndexOf (L.entriesBefore n length) (t.mem.index .own)
  opened : Side.Open .own t
  empty : (t.mem.writer .own).buffer = []
  mine : (t.mem.writer .own).staging = none
  data : ∀ id seg, L id = some seg →
    t.fs.data (.active id) = some (seg.bytes.take (seg.keptLength n length id))

theorem safe_openStore_cut {s : SegState} {newest : Segment env}
    (cut : CutDirectory s L n newest length) (maxSegmentSize : Nat) :
    Safe steady (fun r t => r = .ok () ∧ OpenedCut L n length t) (fun _ => True)
      (openStore env maxSegmentSize) s := by
  rw [openStore, safe_bind, Proc.safe_load, thenSafe_ok, safe_bind, Proc.safe_save, thenSafe_ok]
  have cut' : CutDirectory (s.withMem (s.mem.setIndex .own ∅)) L n newest length :=
    ⟨cut.noOld, by simp, cut.newest, cut.last, cut.long, cut.sealed, cut.cut⟩
  refine Safe.bind (safe_recover_cut cut') ?_ ?_
  swap
  · rintro e t recovered
    cases recovered.resume
  rintro ⟨latest, resume⟩ t recovered
  obtain ⟨rfl, rfl⟩ := Prod.mk.inj (Except.ok.inj recovered.resume)
  obtain ⟨f, hf, content⟩ := Option.map_eq_some_iff.1 recovered.truncated
  have ahead := newest.header_le_endBefore cut.long
  refine Safe.bind (safe_open_resume (C := fun _ => True) tidy_steady none hf
    (by simp only [segmentHeaderSize] at ahead; omega) (fun _ _ => trivial) maxSegmentSize) ?_ ?_
  · rintro w u ⟨m, ok, mem, same, -⟩
    cases ok
    rw [safe_set]
    refine ⟨rfl, ?_, ⟨?_, ?_⟩, by simp, by simp, fun id seg hseg => ?_⟩
    · simpa [mem] using recovered.index
    · simp
    · rw [← isSome_file, Proc.withMem_fs, same]
      simp only [Proc.withMem_mem, setWriter_writer, if_true, SegmentWriter.path, SegPath.segment]
      rw [hf]
      rfl
    · rw [Fs.data, Proc.withMem_fs, same, Segment.keptLength]
      split
      · rename_i this
        subst this
        obtain rfl := Option.some.inj (cut.newest.symm.trans hseg)
        exact recovered.truncated
      · rename_i other
        have := cut.sealed id other
        rw [recovered.others id other, List.take_length]
        rw [hseg, Fs.data] at this
        exact this
  · rintro e u ⟨_, ok, -⟩
    cases ok

/-- What the reader makes of an inserted record in what recovery leaves of its file. -/
theorem Inserted.readRecord_iff (inserted : Inserted L n length id seg offset bytes h)
    (long : segmentHeaderSize ≤ length) {d : Bytes} (content : Content env bytes h d) :
    readRecord env (seg.bytes.take (seg.keptLength n length id)) h.chunkId
        (entry id (offset, h)).2 = .ok d ↔
      Readable (seg.keptLength n length id) offset h := by
  obtain ⟨before, after, start, split⟩ := inserted.bytes_eq long
  have kept : (before ++ (bytes ++ after)).length = seg.keptLength n length id := by
    rw [← split, List.length_take, Nat.min_eq_left]
    rw [Segment.keptLength]
    split
    · obtain ⟨j, -, -, -, -, -, ends⟩ := seg.exists_before long
      rw [ends]
      exact (seg.isPrefix_take j).length_le
    · exact Nat.le_refl _
  have verdict := @OosLite.readRecord_iff _ bytes before after d h (entry id (offset, h)).2
    inserted.wellFormed content start rfl
  rwa [kept, ← start, ← split] at verdict

theorem OpenedCut.readChunk_iff {t : SegState} (opened : OpenedCut L n length t)
    (long : segmentHeaderSize ≤ length) (inserted : Inserted L n length id seg offset bytes h)
    {d : Bytes} (content : Content env bytes h d) :
    Ends steady (readChunk env h.chunkId (entry id (offset, h)).2) t (fun r _ => r = .ok d) ↔
      Readable (seg.keptLength n length id) offset h := by
  have reads := @safe_readChunk_data env t h.chunkId (entry id (offset, h)).2 _
    (opened.data id seg inserted.segment)
  rw [← inserted.readRecord_iff long content]
  constructor
  · rintro ⟨⟨r, u, run⟩, all⟩
    rw [← all r u run, ← (reads.returns run).2]
  · exact fun ok => (reads.ends (total_segMachine _)).mono fun _ _ h => h.2.trans ok

/-- The records of the newest segment may have been cut: the scan of a directory and the reader
agree, and a compaction of it succeeds, if and only if every record that the scan inserts is
readable. -/
theorem readers_agree_iff (env : Env) (s : SegState) (L : Layout env) (n : Nat)
    (newest : Segment env) (length : Nat) (cut : CutDirectory s L n newest length)
    (sound : ∀ r ∈ L.records, ∃ d, Content env r.1 r.2 d) (maxSegmentSize : Nat) :
    Ends steady (openStore env maxSegmentSize) s fun r t =>
      r = .ok () ∧ IndexOf (L.entriesBefore n length) (t.mem.index .own) ∧
        (((∀ id seg offset bytes h d, Inserted L n length id seg offset bytes h →
              Content env bytes h d →
              Ends steady (readChunk env h.chunkId (entry id (offset, h)).2) t
                fun r _ => r = .ok d) ∧
            ∀ reachable, Ends steady (compactAndReclaim env reachable) t
              fun r _ => ∃ count, r = .ok count) ↔
          ∀ id seg offset bytes h, Inserted L n length id seg offset bytes h →
            Readable (seg.keptLength n length id) offset h) := by
  refine ((safe_openStore_cut cut maxSegmentSize).ends (total_segMachine _)).mono ?_
  rintro r t ⟨ok, opened⟩
  refine ⟨ok, opened.index, ?_, fun readable => ⟨?_, fun reachable => ?_⟩⟩
  · rintro ⟨reads, -⟩ id seg offset bytes h inserted
    obtain ⟨d, content⟩ := sound _ inserted.mem_records
    exact (opened.readChunk_iff cut.long inserted content).1 (reads _ _ _ _ _ d inserted content)
  · intro id seg offset bytes h d inserted content
    exact (opened.readChunk_iff cut.long inserted content).2 (readable _ _ _ _ _ inserted)
  · have all : AllRead env reachable t := by
      intro c loc found _
      obtain ⟨id, seg, offset, bytes, h, inserted, same⟩ :=
        mem_entriesBefore (opened.index.latest c loc found).mem
      obtain ⟨rfl, rfl⟩ := Prod.mk.inj same
      obtain ⟨d, content⟩ := sound _ inserted.mem_records
      exact ⟨_, d, opened.data id seg inserted.segment,
        (inserted.readRecord_iff cut.long content).2 (readable _ _ _ _ _ inserted)⟩
    exact ((goes_compactAndReclaim opened.opened opened.empty opened.mine all).ends (total_segMachine _)).mono
      fun _ _ ⟨count, ok, _⟩ => ⟨count, ok⟩

end ReaderAgreement

namespace StoreSample

theorem whole_directory : CutDirectory (directory segment.bytes) layout 1 segment 115 where
  noOld id := by simp [file_directory]
  fresh := rfl
  newest := Layout.put_self ..
  last id above := by rw [layout, Layout.put_of_ne _ _ (by omega)]; rfl
  long := by decide
  sealed id hid := by
    rw [Fs.data, file_directory, layout, Layout.put_of_ne _ _ hid]
    simp [hid, Layout.empty]
  cut := by
    rw [Fs.data, file_directory, if_pos rfl]
    decide +kernel

theorem sound_layout : ∀ r ∈ layout.records, ∃ d, Content env r.1 r.2 d := by
  rintro r ⟨id, seg, hseg, hr⟩
  rw [layout, Layout.put_apply] at hseg
  split at hseg
  · obtain rfl := Option.some.inj hseg
    obtain rfl := List.mem_singleton.1 hr
    exact ⟨chunk, content_chunkRecord chunk _⟩
  · cases hseg

theorem readable_layout {id : Nat} {seg : Segment env} {offset : Nat} {bytes : Bytes}
    {h : RecordHeader} (inserted : Inserted layout 1 115 id seg offset bytes h) :
    Readable (seg.keptLength 1 115 id) offset h := by
  obtain ⟨i, seg', hseg, hr⟩ := inserted.mem_records
  rw [layout, Layout.put_apply] at hseg
  split at hseg
  · obtain rfl := Option.some.inj hseg
    obtain ⟨rfl, rfl⟩ := Prod.mk.inj (List.mem_singleton.1 hr)
    exact ⟨by decide +kernel, fun v2 => absurd v2 (by decide)⟩
  · cases hseg

/-- The header of 56 bytes of a chunk that is stored as it is. -/
def legacyHeader (data : Bytes) : RecordHeader where
  chunkId := ChunkId.fromData env data
  compressionCodec := .none
  encryptionScheme := .none
  rawLen := UInt32.ofNat data.length
  payloadLen := UInt32.ofNat data.length
  payloadCrc := env.crc32 data
  nonce := FixedBytes.ofBytes 24 []
  headerSize := recordHeaderSizeV2

/-- A record of version 2 up to the checksum of its header. -/
def legacyBody (data : Bytes) : Bytes :=
  recordMagicV2 ++ (ChunkId.fromData env data).bytes ++ [0, 0, 0, 0] ++
    Bytes.ofU32 (UInt32.ofNat data.length) ++ Bytes.ofU32 (UInt32.ofNat data.length) ++
    Bytes.ofU32 (env.crc32 data)

/-- A record of version 2. -/
def legacyRecord (data : Bytes) : Bytes :=
  legacyBody data ++ Bytes.ofU32 (env.crc32 (legacyBody data)) ++ data

/-- A second chunk. -/
def lastChunk : Bytes := [116, 119, 111]

theorem wellFormed_legacyRecords :
    WellFormed env (legacyRecord chunk) (legacyHeader chunk) ∧
      WellFormed env (legacyRecord lastChunk) (legacyHeader lastChunk) :=
  ⟨⟨by decide +kernel, by decide +kernel, by decide +kernel⟩,
    ⟨by decide +kernel, by decide +kernel, by decide +kernel⟩⟩

/-- A segment with two records of version 2. -/
def legacySegment : Segment env :=
  ((Segment.created env ⟨1, 0⟩).push _ _ (isFrame_iff.2 wellFormed_legacyRecords.1)).push _ _
    (isFrame_iff.2 wellFormed_legacyRecords.2)

def legacyLayout : Layout env := Layout.empty.put 1 legacySegment

def legacyDirectory : SegState := directory legacySegment.bytes

theorem legacy_directory : CutDirectory legacyDirectory legacyLayout 1 legacySegment 150 where
  noOld id := by simp [legacyDirectory, file_directory]
  fresh := rfl
  newest := Layout.put_self ..
  last id above := by rw [legacyLayout, Layout.put_of_ne _ _ (by omega)]; rfl
  long := by decide
  sealed id hid := by
    rw [Fs.data, legacyDirectory, file_directory, legacyLayout, Layout.put_of_ne _ _ hid]
    simp [hid, Layout.empty]
  cut := by
    rw [Fs.data, legacyDirectory, file_directory, if_pos rfl]
    decide +kernel

theorem content_legacyRecord (data : Bytes) :
    Content env (legacyRecord data) (legacyHeader data) data where
  digest := rfl
  decodes := by
    refine ⟨_, rfl, fun offset => ?_⟩
    rw [legacyRecord, Bytes.drop_field]
    · rfl
    · simp [legacyBody, recordMagicV2, legacyHeader, recordHeaderSizeV2]

theorem sound_legacyLayout : ∀ r ∈ legacyLayout.records, ∃ d, Content env r.1 r.2 d := by
  rintro r ⟨id, seg, hseg, hr⟩
  rw [legacyLayout, Layout.put_apply] at hseg
  split at hseg
  · obtain rfl := Option.some.inj hseg
    have two : r ∈ [(legacyRecord chunk, legacyHeader chunk),
      (legacyRecord lastChunk, legacyHeader lastChunk)] := hr
    rcases List.mem_cons.1 two with rfl | one
    · exact ⟨chunk, content_legacyRecord chunk⟩
    · obtain rfl := List.mem_singleton.1 one
      exact ⟨lastChunk, content_legacyRecord lastChunk⟩
  · cases hseg

/-- The store opened on it. -/
def legacyOpened : SegState := (run (openStore env 0) legacyDirectory).2

/-- Where its index has the second chunk. -/
def lastLocation : ChunkLocation := (entry 1 (91, legacyHeader lastChunk)).2

end StoreSample

theorem readers_agree_sample :
    Ends steady (openStore StoreSample.env 0) (StoreSample.directory StoreSample.segment.bytes)
      fun r t => r = .ok () ∧
        (∀ id seg offset bytes h d, Inserted StoreSample.layout 1 115 id seg offset bytes h →
          Content StoreSample.env bytes h d →
          Ends steady (readChunk StoreSample.env h.chunkId (entry id (offset, h)).2) t
            fun r _ => r = .ok d) ∧
        ∀ reachable, Ends steady (compactAndReclaim StoreSample.env reachable) t
          fun r _ => ∃ count, r = .ok count :=
  (readers_agree_iff _ _ _ _ _ _ StoreSample.whole_directory StoreSample.sound_layout 0).mono
    fun _ _ ⟨ok, _, agree⟩ => ⟨ok, agree.2 fun _ _ _ _ _ => StoreSample.readable_layout⟩

/-- A record of version 2 at the end of its file is indexed, but neither read nor compacted. -/
theorem last_legacy_record_is_not_read :
    (CutDirectory StoreSample.legacyDirectory StoreSample.legacyLayout 1 StoreSample.legacySegment
        150 ∧
      ∀ r ∈ StoreSample.legacyLayout.records, ∃ d, Content StoreSample.env r.1 r.2 d) ∧
    ∃ t, Returns steady (openStore StoreSample.env 0) StoreSample.legacyDirectory (.ok ()) t ∧
      (t.mem.index .own)[ChunkId.fromData StoreSample.env StoreSample.lastChunk]? =
        some StoreSample.lastLocation ∧
      (∃ e u, Returns steady (readChunk StoreSample.env
        (ChunkId.fromData StoreSample.env StoreSample.lastChunk) StoreSample.lastLocation) t
          (.error e) u) ∧
      ∃ e u, Returns steady (compactAndReclaim StoreSample.env fun c =>
        c = ChunkId.fromData StoreSample.env StoreSample.lastChunk) t (.error e) u := by
  have opened := StoreSample.returns_run (openStore StoreSample.env 0) StoreSample.legacyDirectory
  rw [show (StoreSample.run (openStore StoreSample.env 0) StoreSample.legacyDirectory).1 = .ok () by
    decide +kernel] at opened
  have read := StoreSample.returns_run (readChunk StoreSample.env (ChunkId.fromData StoreSample.env
    StoreSample.lastChunk) StoreSample.lastLocation) StoreSample.legacyOpened
  have compacted := StoreSample.returns_run (compactAndReclaim StoreSample.env fun c =>
    c = ChunkId.fromData StoreSample.env StoreSample.lastChunk) StoreSample.legacyOpened
  obtain ⟨e, failed⟩ := Result.exists_error (x := (StoreSample.run (readChunk StoreSample.env
    (ChunkId.fromData StoreSample.env StoreSample.lastChunk) StoreSample.lastLocation)
    StoreSample.legacyOpened).1) (by decide +kernel)
  obtain ⟨e', failed'⟩ := Result.exists_error (x := (StoreSample.run (compactAndReclaim
    StoreSample.env fun c => c = ChunkId.fromData StoreSample.env StoreSample.lastChunk)
    StoreSample.legacyOpened).1) (by decide +kernel)
  rw [failed] at read
  rw [failed'] at compacted
  exact ⟨⟨StoreSample.legacy_directory, StoreSample.sound_legacyLayout⟩, _, opened,
    by decide +kernel, ⟨e, _, read⟩, e', _, compacted⟩

end OosLite
