import OosLite.Segment.Proofs.Reopen

/-!
# Recovery of a torn segment

What the scan of a newest segment that was cut at any length finds and leaves, and which segments
it refuses without touching any file.
-/

namespace OosLite

open Files Effect SegmentStore

section TailRecovery

variable {env : Env}

/-! ## Records -/

/-- The length of a record. -/
def RecordHeader.size (h : RecordHeader) : Nat := h.headerSize + h.payloadLen.toNat

/-- A record of either version: a header that `read_from` accepts, and a payload of the length and
with the checksum it names. -/
structure WellFormed (env : Env) (bytes : Bytes) (h : RecordHeader) : Prop where
  header : RecordHeader.readFrom env bytes = .ok (some h)
  length : bytes.length = h.size
  checksum : env.crc32 (bytes.drop h.headerSize) = h.payloadCrc

/-- The frames of a segment are its well-formed records. -/
theorem isFrame_iff {bytes : Bytes} {h : RecordHeader} :
    Framing.IsFrame (nextRecord env) bytes h ↔ WellFormed env bytes h := by
  constructor
  · intro frame
    have item := frame.parse_append []
    rw [List.append_nil] at item
    obtain ⟨header, length, -⟩ := nextRecord_eq_item item
    refine ⟨header, length, ?_⟩
    rw [nextRecord, header] at item
    simp only at item
    split at item
    · cases item
    · split at item
      · cases item
      · rename_i same
        rw [not_not] at same
        rw [← same, Bytes.slice, List.take_of_length_le]
        rw [List.length_drop, length]
        omega
  · intro record
    obtain ⟨four, size, -, fits, depends⟩ := RecordHeader.readFrom_eq_some record.header
    have long : h.headerSize ≤ bytes.length := by rw [record.length, RecordHeader.size]; omega
    refine ⟨fun empty => ?_, fun rest => ?_⟩
    · rw [empty] at four
      simp at four
    · have front (count : Nat) (hc : count ≤ bytes.length) :
          (bytes ++ rest).take count = bytes.take count := List.take_append_of_le_length hc
      have header : RecordHeader.readFrom env (bytes ++ rest) = .ok (some h) :=
        (depends (bytes ++ rest) (by rw [List.length_append]; omega) (front 4 four)).2
          (by rw [List.length_append]; omega) (front _ long)
      have payload : Bytes.slice (bytes ++ rest) h.headerSize h.payloadLen.toNat =
          bytes.drop h.headerSize := by
        rw [Bytes.slice, List.drop_append_of_le_length long, List.take_left']
        rw [List.length_drop, record.length, RecordHeader.size]
        omega
      have total := record.length
      rw [RecordHeader.size] at total
      rw [nextRecord, header]
      simp only
      rw [if_neg (by rw [List.length_append]; omega), payload,
        if_neg (not_not_intro record.checksum), total]

/-! ## A cut -/

namespace Segment

/-- The records of a segment that lie wholly before a length. -/
def before (seg : Segment env) (length : Nat) : List (Nat × RecordHeader) :=
  seg.found.filter fun x => x.1 + x.2.size ≤ length

/-- The end of the last of them, or of the header. -/
def endBefore (seg : Segment env) (length : Nat) : Nat :=
  (seg.before length).getLast?.elim segmentHeaderSize fun x => x.1 + x.2.size

/-- The offset of a record, and its end. -/
theorem mem_found {seg : Segment env} {x : Nat × RecordHeader} (h : x ∈ seg.found) :
    ∃ i, i < seg.records.length ∧ x.1 = (seg.take i).bytes.length ∧
      x.1 + x.2.size = (seg.take (i + 1)).bytes.length := by
  obtain ⟨front, bytes, after, split, offset⟩ := Framing.mem_locate h
  have record := isFrame_iff.1 (seg.isFrame (bytes, x.2) (by simp [split]))
  have here : seg.records.take front.length = front := by rw [split, List.take_left]
  have next : seg.records.take (front.length + 1) = front ++ [(bytes, x.2)] := by
    rw [split, List.take_append]
    simp
  refine ⟨front.length, by rw [split, List.length_append, List.length_cons]; omega, ?_, ?_⟩
  · rw [length_bytes, records_take, here, offset]
  · have size : bytes.length = x.2.size := record.length
    rw [length_bytes, records_take, next, offset]
    simp only [Framing.join_append, Framing.join_cons, Framing.join_nil, List.length_append,
      List.length_nil]
    omega

/-- What is left of a cut segment in terms of its first records. -/
theorem before_eq {seg : Segment env} {length j : Nat}
    (within : (seg.take j).bytes.length ≤ length)
    (most : ∀ k ≤ seg.records.length, (seg.take k).bytes.length ≤ length → k ≤ j) :
    seg.before length = (seg.take j).found ∧ seg.endBefore length = (seg.take j).bytes.length := by
  have split : seg.found = (seg.take j).found ++
      Framing.locate (seg.take j).bytes.length (seg.records.drop j) := by
    rw [found, ← List.take_append_drop j seg.records, Framing.locate_append, length_bytes]
    simp [found, List.take_append_drop]
  have first : ∀ x ∈ (seg.take j).found, x.1 + x.2.size ≤ length := by
    intro x hx
    obtain ⟨i, hi, -, size⟩ := mem_found hx
    rw [size]
    exact Nat.le_trans ((seg.take j).isPrefix_take _).length_le within
  have rest : ∀ x ∈ Framing.locate (seg.take j).bytes.length (seg.records.drop j),
      ¬ x.1 + x.2.size ≤ length := by
    intro x hx short
    have hmem : x ∈ seg.found := by rw [split]; exact List.mem_append_right _ hx
    obtain ⟨i, hi, offset, size⟩ := mem_found hmem
    have := most (i + 1) (by omega) (size ▸ short)
    have positive : ∀ r ∈ seg.records.drop j, r.1 ≠ [] := fun r hr =>
      (seg.isFrame r (List.mem_of_mem_drop hr)).nonempty
    have behind := (Framing.locate_bounds positive hx).1
    have nonempty : 0 < x.2.size := by
      obtain ⟨front, bytes, after, split, -⟩ := Framing.mem_locate hmem
      have record := isFrame_iff.1 (seg.isFrame (bytes, x.2) (by simp [split]))
      rw [← record.length]
      exact List.length_pos_iff.2 (seg.isFrame (bytes, x.2) (by simp [split])).nonempty
    have := (seg.take_mono (show i + 1 ≤ j by omega)).length_le
    omega
  have same : seg.before length = (seg.take j).found := by
    rw [before, split, List.filter_append,
      List.filter_eq_self.2 fun x hx => decide_eq_true (first x hx),
      List.filter_eq_nil_iff.2 fun x hx => by simpa using rest x hx, List.append_nil]
  refine ⟨same, ?_⟩
  rw [endBefore, same]
  rcases List.eq_nil_or_concat (seg.take j).records with none | ⟨init, last, split⟩
  · rw [found, none, length_bytes, none]
    rfl
  · have frames : Framing.IsFrame (nextRecord env) last.1 last.2 :=
      (seg.take j).isFrame last (by rw [split]; simp)
    have := (isFrame_iff.1 frames).length
    rw [found, split, List.concat_eq_append, Framing.locate_append, length_bytes, split]
    simp only [Framing.locate, List.getLast?_append, List.getLast?_singleton, Option.some_or,
      Option.elim_some, List.concat_eq_append, Framing.join_append, Framing.join_cons,
      Framing.join_nil, List.length_append, List.length_nil]
    omega

/-- A cut segment in terms of its first records: what is left, what lies before the cut, and a
piece that recovery repairs. -/
theorem exists_before (seg : Segment env) {length : Nat} (long : segmentHeaderSize ≤ length) :
    ∃ j tail, seg.bytes.take length = (seg.take j).bytes ++ tail ∧
      (tail = [] ∨ ∃ reason, nextRecord env tail = .stop reason ∧ reason.repairable = true) ∧
      j ≤ seg.records.length ∧ seg.before length = (seg.take j).found ∧
      seg.endBefore length = (seg.take j).bytes.length := by
  have enough : segmentHeaderSize ≤ (seg.bytes.take length).length := by
    have := seg.length_bytes
    rw [List.length_take]
    omega
  have part := List.take_prefix length seg.bytes
  obtain ⟨j, tail, hj, data, stops, most⟩ := exists_take part enough
  have within : (seg.take j).bytes.length ≤ length := by
    have := congrArg List.length data
    rw [List.length_take, List.length_append] at this
    omega
  refine ⟨j, tail, data, stops, hj, before_eq within fun k hk short => most k hk ?_⟩
  have := (seg.isPrefix_take k).length_le
  rw [List.length_take]
  omega

end Segment

/-! ## Recovery without the rest of a compaction -/

section Recover

variable {Q : Result (Nat × Nat) → SegState → Prop}

/-- What `recover_and_index` does with the segments it finds. -/
def scanAll (env : Env) (segmentIds : List Nat) : SegProg (Nat × Nat) :=
  match segmentIds.getLast? with
  | none => return (1, 0)
  | some newestId => Prog.forEach (recoverSegment env newestId) (1, 0) segmentIds

theorem safe_recover_noOld {s : SegState} (noOld : ∀ id, s.fs.file (.old id) = none)
    (loop : ∀ (t : SegState) (ids : List Nat), t.mem = s.mem →
      (∀ p, t.fs.file (.active p) = s.fs.file (.active p)) → ids.Pairwise (· < ·) →
      (∀ id, id ∈ ids ↔ (s.fs.file (.active id)).isSome) →
      Safe steady Q (fun _ => True) (scanAll env ids) t) :
    Safe steady Q (fun _ => True) (recoverAndIndex env) s := by
  rw [recoverAndIndex, safe_bind]
  refine safe_readMarker tidy_steady ?_
  rw [thenSafe_ok, safe_bind, Proc.safe_ignore]
  refine Proc.safe_removeAll (fun _ _ => trivial) ?_ fun h => h.elim
  obtain ⟨s₁, hs₁⟩ : ∃ s₁ : SegState, s₁ = s.withFs (s.fs.dropAll SegPath.isStaging) := ⟨_, rfl⟩
  have same : SameStore s.fs s₁.fs := hs₁ ▸ .dropAll (fun _ h => h) _
  rw [← hs₁, thenSafe_ok, safe_bind]
  refine safe_listIds (not_faulty_list tidy_steady) .old (fun _ => rfl) selects_old fun olds _ present => ?_
  have none : olds = [] := by
    refine List.eq_nil_iff_forall_not_mem.2 fun id hid => ?_
    have := (present id).1 hid
    rw [same _ rfl, noOld id] at this
    cases this
  rw [thenSafe_ok, none, settle, if_neg (by simp)]
  refine Safe.bind (P := fun r t => r = .ok () ∧ t.mem = s₁.mem ∧
    ∀ p, t.fs.file (.active p) = s₁.fs.file (.active p)) ?_ ?_ ?_
  · rw [safe_bind]
    refine Proc.safe_exists ?_ fun h => h.elim
    rw [thenSafe_ok]
    refine safe_when (fun _ => ?_) fun _ => ⟨rfl, rfl, fun _ => rfl⟩
    exact Proc.safe_ignore_remove trivial trivial ⟨rfl, rfl, fun p => by simp⟩
      fun _ => ⟨rfl, rfl, fun _ => rfl⟩
  · rintro ⟨⟩ t ⟨-, tmem, actives⟩
    rw [safe_bind]
    refine safe_listIds (not_faulty_list tidy_steady) .active (fun _ => rfl) selects_active fun ids nodup listed => ?_
    refine loop t ids.mergeSort (tmem.trans (by rw [hs₁]; rfl))
      (fun p => (actives p).trans (same _ rfl)) (pairwise_mergeSort nodup) fun id => ?_
    rw [(List.mergeSort_perm ids _).mem_iff, listed, actives, same _ rfl]
  · rintro e t ⟨ok, -⟩
    cases ok

end Recover

/-! ## The tail of the newest segment -/

/-- A directory in which only the end of the newest segment is missing, to be indexed afresh. -/
structure CutDirectory (s : SegState) (L : Layout env) (n : Nat) (seg : Segment env)
    (length : Nat) : Prop where
  noOld : ∀ id, s.fs.file (.old id) = none
  fresh : s.mem.index .own = ∅
  newest : L n = some seg
  last : ∀ id, n < id → L id = none
  long : segmentHeaderSize ≤ length
  sealed : ∀ id, id ≠ n → s.fs.data (.active id) = (L id).map Segment.bytes
  cut : s.fs.data (.active n) = some (seg.bytes.take length)

/-- The index entries of all records but those of the newest segment that the cut touches. -/
def Layout.entriesBefore (L : Layout env) (n length : Nat) : Set (ChunkId × ChunkLocation) :=
  {e | ∃ id seg, L id = some seg ∧
    e ∈ (if id = n then seg.before length else seg.found).map (entry id)}

/-- What recovery answers and leaves. -/
structure TailRecovered (s : SegState) (L : Layout env) (n : Nat) (seg : Segment env)
    (length : Nat) (r : Result (Nat × Nat)) (t : SegState) : Prop where
  resume : r = .ok (n, seg.endBefore length)
  index : IndexOf (L.entriesBefore n length) (t.mem.index .own)
  truncated : t.fs.data (.active n) = some (seg.bytes.take (seg.endBefore length))
  others : ∀ id, id ≠ n → t.fs.file (.active id) = s.fs.file (.active id)

theorem safe_recover_cut {s : SegState} {L : Layout env} {n : Nat} {seg : Segment env}
    {length : Nat} (h : CutDirectory s L n seg length) :
    Safe steady (TailRecovered s L n seg length) (fun _ => True) (recoverAndIndex env) s := by
  obtain ⟨j, tail, data, stops, -, before, ends⟩ := seg.exists_before h.long
  have self : L.cut n j n = some (seg.take j) := Layout.cut_self h.newest j
  have isSome (id : Nat) : (s.fs.file (.active id)).isSome = (L.cut n j id).isSome := by
    by_cases hid : id = n
    · rw [hid, self]
      obtain ⟨f, hf, -⟩ := Option.map_eq_some_iff.1 h.cut
      rw [hf]
      rfl
    · rw [Layout.cut_of_ne _ hid, ← Option.isSome_map (f := File.data)]
      have := h.sealed id hid
      rw [Fs.data] at this
      rw [this, Option.isSome_map]
  refine safe_recover_noOld h.noOld fun t ids tmem actives sorted mem => ?_
  have mem' (id : Nat) : id ∈ ids ↔ (L.cut n j id).isSome := by rw [mem, isSome]
  have newest : ids.getLast? = some n := by
    have there : n ∈ ids := (mem' n).2 (by rw [self]; rfl)
    obtain ⟨init, last, split⟩ := List.eq_nil_or_concat ids |>.resolve_left
      (List.ne_nil_of_mem there)
    rw [split, List.concat_eq_append] at sorted there mem'
    have top : n ≤ last := by
      rcases List.mem_append.1 there with h | h
      · exact Nat.le_of_lt ((List.pairwise_append.1 sorted).2.2 n h last (by simp))
      · exact Nat.le_of_eq (List.mem_singleton.1 h)
    have present := (mem' last).1 (by simp)
    have : last = n := by
      by_contra other
      rw [Layout.cut_of_ne _ other, h.last last (by omega)] at present
      cases present
    rw [split, List.concat_eq_append, this]
    simp
  rw [scanAll, newest]
  obtain ⟨f, hf, content⟩ := Option.map_eq_some_iff.1 h.cut
  refine (safe_scanSegments tidy_steady self (by rw [actives, hf]) (content.trans data) stops
    (fun id seg' hid hseg' => ?_) (by rw [tmem]; exact h.fresh) sorted mem' newest
    (fun _ _ _ => trivial) (1, 0)).mono ?_ fun _ h => h
  · rw [Layout.cut_of_ne _ hid] at hseg'
    have := h.sealed id hid
    rw [hseg', Fs.data] at this
    obtain ⟨f', hf', data'⟩ := Option.map_eq_some_iff.1 this
    exact ⟨f', by rw [actives, hf'], data'⟩
  · rintro r u ⟨rfl, ⟨index, umem, indexed⟩, others, file⟩
    have front : seg.bytes.take (seg.endBefore length) = (seg.take j).bytes := by
      rw [ends, seg.bytes_take j, List.take_left]
    refine ⟨by rw [ends], ?_, ?_, fun id hid => ?_⟩
    · have same : L.entriesBefore n length = (L.cut n j).entries := by
        ext e
        constructor
        · rintro ⟨id, seg', hseg', he⟩
          by_cases hid : id = n
          · subst hid
            obtain rfl := Option.some.inj (h.newest.symm.trans hseg')
            rw [if_pos rfl, before] at he
            exact ⟨id, _, self, he⟩
          · rw [if_neg hid] at he
            exact ⟨id, seg', by rw [Layout.cut_of_ne _ hid, hseg'], he⟩
        · rintro ⟨id, seg', hseg', he⟩
          by_cases hid : id = n
          · subst hid
            obtain rfl := Option.some.inj (self.symm.trans hseg')
            exact ⟨id, seg, h.newest, by rwa [if_pos rfl, before]⟩
          · rw [Layout.cut_of_ne _ hid] at hseg'
            exact ⟨id, seg', hseg', by rwa [if_neg hid]⟩
      rw [same, umem, setIndex_index, if_pos rfl]
      exact indexed
    · rw [front, Fs.data]
      rcases file with ⟨rfl, file⟩ | ⟨-, file⟩
      · rw [file, Option.map_some, content, data, List.append_nil]
      · rw [file]
        rfl
    · rw [others _ (by simpa using hid), actives]

/-! ## Damage -/

/-- What recovery refuses behind the well-formed records of a segment: in a sealed segment the
front of a record; in any a complete header, or a complete record, with a wrong checksum. -/
inductive Damage (env : Env) (isSealed : Prop) (tail : Bytes) : Prop
  | torn {bytes : Bytes} {h : RecordHeader} : isSealed → WellFormed env bytes h → tail <+: bytes →
      tail ≠ [] → tail.length < bytes.length → Damage env isSealed tail
  | header : recordHeaderSizeV3 ≤ tail.length → tail.take 4 = recordMagicV3 →
      env.crc32 (tail.take 76) ≠ Bytes.toU32 (Bytes.slice tail 76 4) → Damage env isSealed tail
  | legacyHeader : recordHeaderSizeV2 ≤ tail.length → tail.take 4 = recordMagicV2 →
      env.crc32 (tail.take 52) ≠ Bytes.toU32 (Bytes.slice tail 52 4) → Damage env isSealed tail
  | payload {h : RecordHeader} : RecordHeader.readFrom env tail = .ok (some h) →
      h.size ≤ tail.length →
      env.crc32 (Bytes.slice tail h.headerSize h.payloadLen.toNat) ≠ h.payloadCrc →
      Damage env isSealed tail

/-- The scan stops at damage, and does not repair it. -/
theorem Damage.stops {isSealed : Prop} {tail : Bytes} (h : Damage env isSealed tail) :
    tail ≠ [] ∧ ∃ reason, nextRecord env tail = .stop reason ∧
      (isSealed ∨ reason.repairable = false) := by
  have ne {size : Nat} (long : size ≤ tail.length) (pos : 0 < size) : tail ≠ [] :=
    List.length_pos_iff.1 (by omega)
  cases h with
  | torn isSealed record part some short =>
    obtain ⟨reason, stop, -⟩ := repairable_of_torn (isFrame_iff.2 record) part short
    exact ⟨some, reason, stop, .inl isSealed⟩
  | header long magic wrong =>
    refine ⟨ne long (by decide), .invalid (.io .invalidData
      "Record header checksum mismatch (partial write or corrupted record)"), ?_, .inr rfl⟩
    have four : ¬ tail.length < 4 := by simp only [recordHeaderSizeV3] at long; omega
    rw [nextRecord, RecordHeader.readFrom, if_neg four, if_pos magic, RecordHeader.readV3,
      if_neg (Nat.not_lt.2 long), if_pos wrong]
  | legacyHeader long magic wrong =>
    refine ⟨ne long (by decide), .invalid (.io .invalidData
      "Legacy v2 record header checksum mismatch"), ?_, .inr rfl⟩
    have four : ¬ tail.length < 4 := by simp only [recordHeaderSizeV2] at long; omega
    have other : ¬ tail.take 4 = recordMagicV3 := by rw [magic]; decide
    rw [nextRecord, RecordHeader.readFrom, if_neg four, if_neg other, if_pos magic,
      RecordHeader.readV2, if_neg (Nat.not_lt.2 long), if_pos wrong]
  | @payload h read fits wrong =>
    have four := (RecordHeader.readFrom_eq_some read).1
    refine ⟨ne four (by decide), .payloadMismatch, ?_, .inr rfl⟩
    rw [RecordHeader.size] at fits
    rw [nextRecord, read]
    simp only
    rw [if_neg (by omega), if_pos wrong]

/-- A segment that is damaged behind its well-formed records, in a directory of any contents. -/
structure DamagedDirectory (s : SegState) (id : Nat) (seg : Segment env) (tail : Bytes) : Prop where
  noOld : ∀ id, s.fs.file (.old id) = none
  content : s.fs.data (.active id) = some (seg.bytes ++ tail)
  damage : Damage env (∃ id', id < id' ∧ (s.fs.file (.active id')).isSome) tail

/-- Recovery reports a corrupted segment, and has changed no segment. -/
def Refused (s : SegState) (r : Result (Nat × Nat)) (t : SegState) : Prop :=
  (∃ offset reason, r = .error (.corruptedSegment offset reason)) ∧
    ∀ id, t.fs.file (.active id) = s.fs.file (.active id)

theorem stopError_eq (offset : Nat) (reason : SegmentStop) :
    ∃ text, stopError offset reason = .corruptedSegment offset text := by
  cases reason <;> exact ⟨_, rfl⟩

/-- A sealed segment, whatever it holds: it is indexed or refused. -/
theorem safe_recoverSegment_sealed {s : SegState} {id newestId : Nat} (other : id ≠ newestId)
    (there : (s.fs.file (.active id)).isSome) (b : Nat × Nat) :
    Safe steady
      (fun r t => t.fs = s.fs ∧ ((∃ v, r = .ok v) ∨
        ∃ offset reason, r = .error (.corruptedSegment offset reason)))
      (fun _ => True) (recoverSegment env newestId b id) s := by
  rw [recoverSegment, safe_bind]
  refine Proc.safe_read (fun f hf => ?_) (fun absent => ?_) fun h => h.elim
  swap
  · rw [absent] at there
    cases there
  rw [thenSafe_ok, safe_bind, safe_ofExcept]
  cases header : readHeader f.data with
  | error e =>
    rw [readHeader] at header
    split at header
    · cases header
    · cases header
      exact ⟨rfl, .inr ⟨_, _, rfl⟩⟩
  | ok h =>
    rw [thenSafe_ok, safe_bind, Proc.safe_load, thenSafe_ok, safe_bind, Proc.safe_save, thenSafe_ok,
      safe_bind, safe_ofExcept]
    cases verdict : (scanSegment env f.data).reason with
    | none =>
      rw [judge, thenSafe_ok, safe_bind, Prog.when, if_neg (by simp)]
      exact ⟨rfl, .inl ⟨_, rfl⟩⟩
    | some reason =>
      obtain ⟨text, error⟩ := stopError_eq (scanSegment env f.data).stop reason
      rw [judge, if_neg (by simp [other]), error]
      exact ⟨rfl, .inr ⟨_, _, rfl⟩⟩

/-- The damaged segment itself. -/
theorem safe_recoverSegment_damaged {s : SegState} {id newestId : Nat} {seg : Segment env}
    {tail : Bytes} (content : s.fs.data (.active id) = some (seg.bytes ++ tail))
    (damage : Damage env (id ≠ newestId) tail) (b : Nat × Nat) :
    Safe steady
      (fun r t => t.fs = s.fs ∧ ∃ offset reason, r = .error (.corruptedSegment offset reason))
      (fun _ => True) (recoverSegment env newestId b id) s := by
  obtain ⟨some, reason, stop, refused⟩ := damage.stops
  obtain ⟨f, hf, data⟩ := Option.map_eq_some_iff.1 content
  obtain ⟨h, header⟩ := readHeader_bytes seg tail
  rw [recoverSegment, safe_bind]
  refine Proc.safe_read (fun f' hf' => ?_) (fun absent => ?_) fun h => h.elim
  swap
  · rw [hf] at absent
    cases absent
  obtain rfl := Option.some.inj (hf.symm.trans hf')
  rw [thenSafe_ok, safe_bind, data, header, safe_ofExcept, thenSafe_ok,
    scanSegment_bytes seg (.inr ⟨reason, stop⟩)]
  simp only
  rw [safe_bind, Proc.safe_load, thenSafe_ok, safe_bind, Proc.safe_save, thenSafe_ok, safe_bind,
    safe_ofExcept]
  obtain ⟨text, error⟩ := stopError_eq seg.bytes.length reason
  have verdict : judge (decide (id = newestId)) seg.bytes.length
      (Framing.tailReason (nextRecord env) tail) = .error (.corruptedSegment seg.bytes.length text) := by
    rw [Framing.tailReason, if_neg (by simpa using some), stop]
    simp only [judge]
    rw [if_neg ?_, error]
    rintro ⟨newest, repairable⟩
    rcases refused with other | not
    · exact other (of_decide_eq_true newest)
    · rw [not] at repairable
      cases repairable
  rw [verdict]
  exact ⟨rfl, _, _, rfl⟩

theorem safe_recover_damaged {s : SegState} {id : Nat} {seg : Segment env} {tail : Bytes}
    (h : DamagedDirectory s id seg tail) :
    Safe steady (Refused s) (fun _ => True) (recoverAndIndex env) s := by
  have there : (s.fs.file (.active id)).isSome := by
    obtain ⟨f, hf, -⟩ := Option.map_eq_some_iff.1 h.content
    rw [hf]
    rfl
  refine safe_recover_noOld h.noOld fun t ids tmem actives sorted mem => ?_
  have hid : id ∈ ids := (mem id).2 there
  rw [scanAll]
  split
  · rename_i none
    rw [List.getLast?_eq_none_iff.1 none] at hid
    cases hid
  rename_i newest last
  have top (i : Nat) (hi : i ∈ ids) : i ≤ newest := by
    obtain ⟨init, rfl⟩ := List.getLast?_eq_some_iff.1 last
    rcases List.mem_append.1 hi with h | h
    · exact Nat.le_of_lt ((List.pairwise_append.1 sorted).2.2 i h newest (by simp))
    · exact Nat.le_of_eq (List.mem_singleton.1 h)
  refine safe_forEach (fun done _ _ u => u.fs = t.fs ∧ id ∉ done) ⟨rfl, by simp⟩ ?_
    fun b u inv => absurd hid inv.2
  rintro done i rest b u split ⟨same, absent⟩
  have hi : i ∈ ids := by rw [← split]; simp
  by_cases this : i = id
  · subst this
    have content : u.fs.data (.active i) = some (seg.bytes ++ tail) := by
      rw [same, Fs.data, actives]
      exact h.content
    have damage : Damage env (i ≠ newest) tail := by
      cases h.damage with
      | torn more record part some short =>
        obtain ⟨id', above, present⟩ := more
        have := top id' ((mem id').2 present)
        exact .torn (by omega) record part some short
      | header long magic wrong => exact .header long magic wrong
      | legacyHeader long magic wrong => exact .legacyHeader long magic wrong
      | payload read fits wrong => exact .payload read fits wrong
    refine (safe_recoverSegment_damaged content damage b).mono ?_ fun _ h => h
    rintro r v ⟨vfs, offset, reason, rfl⟩
    exact ⟨⟨offset, reason, rfl⟩, fun p => by rw [vfs, same, actives]⟩
  · -- the segments before the damaged one are not the newest
    have below : i < id := by
      rw [← split] at hid sorted
      rcases List.mem_append.1 hid with h | h
      · exact absurd h absent
      · rcases List.mem_cons.1 h with h | h
        · exact absurd h.symm this
        · exact (List.pairwise_cons.1 (List.pairwise_append.1 sorted).2.1).1 id h
    have other : i ≠ newest := by
      have := top id hid
      omega
    refine (safe_recoverSegment_sealed other ?_ b).mono ?_ fun _ h => h
    · rw [same, actives]
      exact (mem i).1 hi
    · rintro r v ⟨vfs, ⟨value, rfl⟩ | ⟨offset, reason, rfl⟩⟩
      · exact ⟨vfs.trans same, by simp [absent, Ne.symm this]⟩
      · exact ⟨⟨offset, reason, rfl⟩, fun p => by rw [vfs, same, actives]⟩

/-- Recovery of a newest segment that was cut anywhere behind its header is exact, and a segment
that is damaged otherwise is refused without a change. -/
theorem tail_recovery_exact (env : Env) (s : SegState) :
    (∀ (L : Layout env) (n : Nat) (seg : Segment env) (length : Nat),
      CutDirectory s L n seg length →
        Ends steady (recoverAndIndex env) s (TailRecovered s L n seg length)) ∧
    ∀ (id : Nat) (seg : Segment env) (tail : Bytes), DamagedDirectory s id seg tail →
      Ends steady (recoverAndIndex env) s (Refused s) :=
  ⟨fun _ _ _ _ h => (safe_recover_cut h).ends (total_segMachine _),
    fun _ _ _ h => (safe_recover_damaged h).ends (total_segMachine _)⟩

end TailRecovery

namespace StoreSample

/-- A segment with one record. -/
def segment : Segment env :=
  (Segment.created env ⟨1, 0⟩).push
    (chunkRecordBytes env (ChunkId.fromData env chunk) chunk (FixedBytes.ofBytes 24 []))
    (chunkRecord env (ChunkId.fromData env chunk) chunk (FixedBytes.ofBytes 24 [])).1
    (isRecord_chunkRecord _ _ (fits_of_length_le (by decide))).isFrame

def layout : Layout env := Layout.empty.put 1 segment

/-- A directory with one segment file. -/
def directory (content : Bytes) : SegState := ⟨empty.put (.active 1) ⟨content, content⟩, memory⟩

theorem file_directory (content : Bytes) (p : SegPath) : (directory content).fs.file p =
    if p = .active 1 then some ⟨content, content⟩ else none := by
  rw [directory, Fs.file_put]
  simp [empty, Fs.file, eq_comm]

theorem cut_directory : CutDirectory (directory (segment.bytes.take 100)) layout 1 segment 100 where
  noOld id := by simp [file_directory]
  fresh := rfl
  newest := Layout.put_self ..
  last id above := by rw [layout, Layout.put_of_ne _ _ (by omega)]; rfl
  long := by decide
  sealed id hid := by
    rw [Fs.data, file_directory, layout, Layout.put_of_ne _ _ hid]
    simp [hid, Layout.empty]
  cut := by simp [Fs.data, file_directory]

/-- The header of a record with no checksum. -/
def unchecked : Bytes := recordMagicV3 ++ List.replicate 76 0

theorem damaged_directory : DamagedDirectory (directory (segment.bytes ++ unchecked)) 1 segment
    unchecked where
  noOld id := by simp [file_directory]
  content := by simp [Fs.data, file_directory]
  damage := .header (by decide) (by decide) (by decide +kernel)

end StoreSample

theorem tail_recovery_exact_sample :
    Ends steady (recoverAndIndex StoreSample.env)
      (StoreSample.directory (StoreSample.segment.bytes.take 100))
      (TailRecovered (StoreSample.directory (StoreSample.segment.bytes.take 100))
        StoreSample.layout 1 StoreSample.segment 100) ∧
    Ends steady (recoverAndIndex StoreSample.env)
      (StoreSample.directory (StoreSample.segment.bytes ++ StoreSample.unchecked))
      (Refused (StoreSample.directory (StoreSample.segment.bytes ++ StoreSample.unchecked))) :=
  ⟨(tail_recovery_exact _ _).1 _ _ _ _ StoreSample.cut_directory,
    (tail_recovery_exact _ _).2 _ _ _ StoreSample.damaged_directory⟩

end OosLite
