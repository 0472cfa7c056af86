import OosLite.Segment.Proofs.Headers
import OosLite.Segment.Proofs.Reopen

/-!
# The lengths that an index tells

Whatever is put, synced, compacted and recovered: if every record of a store was written for a chunk
by `append_chunk`, then this stays so, and the index has the length of every chunk.
-/

namespace OosLite

open Files Effect SegmentStore

/-- A record that `append_chunk` has written for a known chunk. -/
def Made (env : Env) (V : Known) (r : Bytes × RecordHeader) : Prop :=
  ∃ d, Fits env d ∧ V (ChunkId.fromData env d) d ∧ r ∈ recordsOf env (ChunkId.fromData env d) d

/-- A layout of such records. -/
def OnlyMade {env : Env} (V : Known) (L : Layout env) : Prop := ∀ r ∈ L.records, Made env V r

/-- A running store of such records. -/
def Makes (env : Env) (V : Known) (s : SegState) : Prop :=
  (∃ (L : Layout env) (n k : Nat), Attached .own none s L n k ∧ OnlyMade V L) ∧ Clean s.fs

/-- The index has an entry for the chunk. -/
def Indexed (s : SegState) (c : ChunkId) : Prop := (s.mem.index .own).contains c = true

/-- What a stopped process leaves of one: a directory that will not open any more, or one that
recovers to such records. -/
def LeavesMade (env : Env) (V : Known) (fs : Fs SegPath) : Prop :=
  (∃ p f, Stuck p f fs) ∨ Forward fs ∧ Recoverable fs (OnlyMade V : Layout env → Prop)

variable {env : Env} {V W : Known} {faulty : FsOp SegPath → Prop} {s : SegState} {L L' : Layout env}
  {n k : Nat}

/-! ## Layouts -/

theorem Made.mono {r : Bytes × RecordHeader} (h : Made env V r) (le : ∀ c d, V c d → W c d) :
    Made env W r := by
  obtain ⟨d, fits, known, there⟩ := h
  exact ⟨d, fits, le _ _ known, there⟩

theorem Made.stores {r : Bytes × RecordHeader} (h : Made env V r) : Stores env V r := by
  obtain ⟨d, fits, known, nonce, rfl⟩ := h
  exact stores_chunkRecord nonce fits known

namespace OnlyMade

theorem mono (h : OnlyMade V L) (le : ∀ c d, V c d → W c d) : OnlyMade W L :=
  fun r hr => (h r hr).mono le

theorem sound (h : OnlyMade V L) : Sound V L := fun r hr => (h r hr).stores

theorem subset (h : OnlyMade V L) (sub : L'.records ⊆ L.records) : OnlyMade V L' :=
  fun r hr => h r (sub hr)

theorem cut (h : OnlyMade V L) (n j : Nat) : OnlyMade V (L.cut n j) :=
  h.subset (L.records_cut_subset n j)

/-- Chunks that were retained are written again. -/
theorem retained {reachable : ChunkId → Bool} {N : Layout env} (h : OnlyMade V L)
    (retains : Retains reachable L N) (attached : Attached .own none s L n k)
    (fits : ∀ c d, reachable c = true → L.Reads c d → Fits env d) : OnlyMade V N := by
  intro r hr
  obtain ⟨c, d, reached, reads, there⟩ := retains.only r hr
  obtain rfl := reads.fromData
  have has : L.Has (ChunkId.fromData env d) := by
    obtain ⟨loc, _, latest, -⟩ := reads
    exact Layout.has_iff.2 ⟨loc, latest.mem⟩
  obtain ⟨d', known, reads'⟩ := h.sound.exists_reads attached has
  obtain rfl := reads.unique reads'
  exact ⟨d, fits _ d reached reads, known, there⟩

/-- The entry of a record has the length of the chunk that it gives back. -/
theorem entry (h : OnlyMade V L) {c : ChunkId} {loc : ChunkLocation} (latest : Latest L.entries c loc) :
    ∃ d, Fits env d ∧ V c d ∧ loc.rawLen = UInt32.ofNat d.length ∧ L.Reads c d := by
  obtain ⟨seg, hseg, he⟩ := Layout.mem_entries.1 latest.mem
  obtain ⟨x, hx, same⟩ := List.mem_map.1 he
  obtain ⟨rfl, hloc⟩ := Prod.mk.inj same
  obtain ⟨before, bytes, after, split, offset⟩ := Framing.mem_locate hx
  obtain ⟨d, fits, known, nonce, record⟩ := h (bytes, x.2) ⟨_, seg, hseg, by simp [split]⟩
  obtain ⟨rfl, header⟩ := Prod.mk.inj record
  have own : x.2.chunkId = ChunkId.fromData env d := by
    rw [header, chunkRecord_chunkId]
  have content : seg.bytes = (seg.header ++ Framing.join before) ++
      (chunkRecordBytes env (ChunkId.fromData env d) d nonce ++ Framing.join after) := by
    simp [Segment.bytes, split]
  refine ⟨d, fits, own ▸ known, ?_, loc, seg, latest, hseg, ?_⟩
  · rw [← hloc, header]
    rfl
  · rw [content]
    show readRecord env _ x.2.chunkId loc = _
    rw [own]
    apply readRecord_chunkRecordBytes nonce fits
    · rw [← hloc, List.length_append, seg.length_header]
      exact offset
    · rw [← hloc, header]

end OnlyMade

theorem Grown.onlyMade {new : Set (Bytes × RecordHeader)} {t : SegState} (made : OnlyMade V L)
    (quiet : Quiet s.fs) (known : ∀ r ∈ new, Made env V r) (h : Grown none s.fs L n k new t.fs) :
    CrashSafe (OnlyMade V : Layout env → Prop) t := by
  obtain ⟨outside, L', n', k', disk, -, above⟩ := h
  have made' : OnlyMade V L' := fun r hr => (above hr).elim (made r) (known r)
  exact (Recoverable.settled L' n' k' (quiet.sameOld outside.sameOld) disk
    fun j _ => made'.cut n' j).crashSafe

/-! ## Operations -/

namespace Makes

theorem mono (h : Makes env V s) (le : ∀ c d, V c d → W c d) : Makes env W s := by
  obtain ⟨⟨L, n, k, attached, made⟩, clean⟩ := h
  exact ⟨⟨L, n, k, attached, made.mono le⟩, clean⟩

theorem leaves (h : Makes env V s) : LeavesMade env V s.fs := by
  obtain ⟨⟨L, n, k, attached, made⟩, clean⟩ := h
  have holds : Holds env V s {c | L.Has c} ∅ :=
    ⟨L, n, k, attached, made.sound, fun _ => Iff.rfl, fun c none => absurd none (Set.notMem_empty c)⟩
  exact .inr ⟨holds.forward, .settled L n k clean.quiet attached.disk fun j _ => made.cut n j⟩

theorem crashSafe (h : Makes env V s) : CrashSafe (OnlyMade V : Layout env → Prop) s := by
  obtain ⟨⟨L, n, k, attached, made⟩, clean⟩ := h
  exact (Recoverable.settled L n k clean.quiet attached.disk fun j _ => made.cut n j).crashSafe

/-- What the index has, it keeps. -/
theorem putChunk (tidy : ∀ o, faulty o → Cleanup o) (h : Makes env V s) {data : Bytes}
    (fits : Fits env data) (known : V (ChunkId.fromData env data) data) :
    Safe (segMachine faulty) (fun _ t => Makes env V t ∧ ∀ c, Indexed s c → Indexed t c)
      (CrashSafe (OnlyMade V : Layout env → Prop)) (putChunk env data) s := by
  obtain ⟨⟨L, n, k, attached, made⟩, clean⟩ := h
  have new (r : Bytes × RecordHeader) (hr : r ∈ recordsOf env (ChunkId.fromData env data) data) :
      Made env V r := ⟨data, fits, known, hr⟩
  apply (safe_putChunk tidy attached fits fun t grown => grown.onlyMade made clean.quiet new).mono
  · rintro r t (⟨-, -, rfl⟩ | ⟨-, -, ⟨-, ⟨L', n', k', record, hrecord, attached', records, -⟩, outside, -⟩⟩)
    · exact ⟨⟨⟨L, n, k, attached, made⟩, clean⟩, fun _ there => there⟩
    · refine ⟨⟨⟨L', n', k', attached', fun r hr => ?_⟩, clean.congr outside.sameOld⟩, fun c there => ?_⟩
      · rw [records] at hr
        rcases hr with rfl | hr
        · exact new _ hrecord
        · exact made r hr
      · obtain ⟨r, hr, own⟩ := (attached.contains_iff c).1 there
        exact (attached'.contains_iff c).2 ⟨r, records ▸ .inr hr, own⟩
  · exact fun _ left => left

theorem sync (tidy : ∀ o, faulty o → Cleanup o) (h : Makes env V s) :
    Safe (segMachine faulty) (fun _ t => Makes env V t ∧ ∀ c, Indexed s c → Indexed t c)
      (CrashSafe (OnlyMade V : Layout env → Prop)) sync s := by
  obtain ⟨⟨L, n, k, attached, made⟩, clean⟩ := h
  apply (safe_sync tidy attached fun t grown => grown.onlyMade made clean.quiet (by simp)).mono
  · rintro r t ⟨-, -, ⟨k', attached', -⟩, -, outside⟩
    refine ⟨⟨⟨L, n, k', attached', made⟩, clean.congr outside.sameOld⟩, fun c there => ?_⟩
    exact (attached'.contains_iff c).2 ((attached.contains_iff c).1 there)
  · exact fun _ left => left

/-- The index has the length of the chunk that is read. -/
theorem location (tidy : ∀ o, faulty o → Cleanup o) (h : Makes env V s) {c : ChunkId}
    {loc : ChunkLocation} (found : (s.mem.index .own)[c]? = some loc) :
    ∃ d, V c d ∧ loc.rawLen = UInt32.ofNat d.length ∧ ∀ C : SegState → Prop,
      Safe (segMachine faulty) (fun r t => t = s ∧ r = .ok d) C (getChunk env c) s := by
  obtain ⟨⟨L, n, k, attached, made⟩, -⟩ := h
  obtain ⟨d, -, known, length, reads⟩ := made.entry (attached.index.latest c loc found)
  exact ⟨d, known, length, fun C => safe_getChunk_reads tidy attached reads⟩

/-- Compaction keeps the reachable chunks, in records of its own. -/
theorem compactAndReclaim (sound : ∀ o, ¬ faulty o) (h : Makes env V s)
    (reachable : ChunkId → Bool) :
    Safe (segMachine faulty) (fun r t => (∃ count, r = .ok count) ∧ Makes env V t)
      (CrashSafe (OnlyMade V : Layout env → Prop)) (compactAndReclaim env reachable) s := by
  have tidy (o : FsOp SegPath) (ho : faulty o) : Cleanup o := absurd ho (sound o)
  obtain ⟨⟨L, n, k, attached, made⟩, clean⟩ := h
  have fits (c : ChunkId) (d : Bytes) (_ : reachable c = true) (reads : L.Reads c d) : Fits env d := by
    have own := reads
    obtain ⟨loc, _, latest, -⟩ := own
    obtain ⟨d', fits, -, -, reads'⟩ := made.entry latest
    rw [reads.unique reads']
    exact fits
  rw [SegmentStore.compactAndReclaim]
  refine Safe.bind (safe_prepare tidy attached fits fun t disk old => ?_) ?_ ?_
  · exact (Recoverable.settled L n k (clean.congr old).quiet disk fun j _ => made.cut n j).crashSafe
  · rintro (_ | x) t ⟨old, post⟩
    · obtain ⟨-, -, -, k', attached', -⟩ := post
      exact ⟨⟨0, rfl⟩, ⟨L, n, k', attached', made⟩, clean.congr old⟩
    · obtain ⟨-, N, prepared⟩ := post
      have clean' := clean.congr old
      have madeN : OnlyMade V N := made.retained prepared.retains attached fits
      have target : OnlyMade V (target x N) := madeN.subset prepared.records_target.le
      refine Safe.bind ((safe_swap (P := OnlyMade V) tidy prepared (fun L' overlay r hr => ?_)
        target).mono (fun _ _ h => h) fun u hu => hu clean'.1 clean'.unmarked) ?_ ?_
      · exact (overlay.records_subset hr).elim (made r) (target r)
      · rintro ids u ⟨_, ok, swapped⟩
        cases ok
        have olds (id : Nat) (there : (u.fs.file (.old id)).isSome) : id ∈ ids := by
          refine (swapped.old id there).resolve_right fun h => ?_
          rw [clean'.1 id] at h
          cases h
        rw [finish, safe_bind]
        refine Safe.mono (safe_cleanUp swapped.active target swapped.marker ids) (fun r v hv => ?_)
          fun v hv => hv.1.resolve_right (not_not.2 (hv.2 sound olds))
        obtain ⟨rfl, vmem, active, others, gone⟩ := hv
        obtain ⟨noMarker, remaining⟩ := gone sound
        have cleanV : Clean v.fs := by
          refine ⟨fun id => ?_, noMarker⟩
          by_contra there
          obtain ⟨out, old⟩ := remaining id (Option.isSome_iff_ne_none.2 there)
          exact out (olds id old)
        have mem : v.mem.index .new = t.mem.index .new := by rw [vmem, swapped.mem]
        rw [thenSafe_ok, safe_bind]
        refine Safe.mono (safe_attach tidy (P := OnlyMade V) active
          (by rw [mem]; exact prepared.index) (by rw [mem]; exact prepared.count) prepared.writer
          fun L' hL' => ?_) (fun r w hw => ?_) fun w hw =>
            hw.1.resolve_right (not_not.2 (cleanV.congr hw.2).quiet)
        · rcases hL' with attaches | rfl
          · exact madeN.subset (prepared.records_attaches attaches).le
          · exact target
        · obtain ⟨rfl, ⟨L', n', k', attaches, attached', -⟩, outside⟩ := hw
          rw [thenSafe_ok, safe_pure]
          exact ⟨⟨_, rfl⟩, ⟨L', n', k', attached', madeN.subset (prepared.records_attaches attaches).le⟩,
            cleanV.congr outside.sameOld⟩
      · rintro e u ⟨_, ok, -⟩
        cases ok
  · rintro e t ⟨-, c, reached, has, none⟩
    obtain ⟨d, -, reads⟩ := made.sound.exists_reads attached has
    exact absurd reads (none d)

end Makes

/-- An empty directory recovers to no records. -/
theorem recoverable_of_empty {fs : Fs SegPath} (none : ∀ p, fs.file p = none) {P : Layout env → Prop}
    (empty : ∀ L : Layout env, L.records = ∅ → P L) : Forward fs ∧ Recoverable fs P := by
  constructor
  · intro id f hf
    rw [none] at hf
    cases hf
  · apply Recoverable.settled .empty 0 0 (.inl fun id => none _) ⟨fun id _ => none _, fun _ => none _,
      fun _ h => (by cases h), fun _ _ => rfl⟩
    intro j _
    apply empty
    have listed := Layout.records_cut_subset (.empty : Layout env) 0 j
    rw [Layout.records_empty] at listed
    exact Set.subset_empty_iff.1 listed

namespace LeavesMade

theorem mono {fs : Fs SegPath} (h : LeavesMade env V fs) (le : ∀ c d, V c d → W c d) :
    LeavesMade env W fs := by
  rcases h with stuck | ⟨forward, recoverable⟩
  · exact .inl stuck
  · exact .inr ⟨forward, recoverable.mono fun _ made => made.mono le⟩

theorem powerCut {fs fs' : Fs SegPath} (h : LeavesMade env V fs) (cut : fs.PowerCut fs') :
    LeavesMade env V fs' := by
  rcases h with ⟨p, f, stuck⟩ | ⟨forward, recoverable⟩
  · obtain ⟨g, stuck'⟩ := stuck.powerCut cut
    exact .inl ⟨p, g, stuck'⟩
  · exact .inr ⟨.powerCut cut, recoverable.powerCut cut⟩

theorem of_crashSafe {t : SegState} (h : CrashSafe (OnlyMade V : Layout env → Prop) t)
    {fs' : Fs SegPath} (cut : t.fs.PowerCut fs') : LeavesMade env V fs' :=
  .inr ⟨.powerCut cut, h _ cut⟩

/-- An empty directory. -/
theorem of_empty {fs : Fs SegPath} (none : ∀ p, fs.file p = none) : LeavesMade env V fs := by
  obtain ⟨forward, recoverable⟩ := recoverable_of_empty none (P := (OnlyMade V : Layout env → Prop))
    fun L no r hr => by simp [no] at hr
  exact .inr ⟨forward, recoverable⟩

theorem new : LeavesMade env V ⟨∅, fun _ => 0⟩ := of_empty fun p => by simp [Fs.file]

/-- An open store has made its records; one that does not open stays as it was. -/
theorem openStore (sound : ∀ o, ¬ faulty o) (h : LeavesMade env V s.fs) (maxSegmentSize : Nat) :
    Safe (segMachine faulty)
      (fun r t => r = .ok () ∧ Makes env V t ∨ (∃ e, r = .error e) ∧ LeavesMade env V t.fs)
      (fun t => ∀ fs', t.fs.PowerCut fs' → LeavesMade env V fs') (openStore env maxSegmentSize) s := by
  have tidy (o : FsOp SegPath) (ho : faulty o) : Cleanup o := absurd ho (sound o)
  have stuckOpen (stuck : ∃ p f, Stuck p f s.fs) : Safe (segMachine faulty)
      (fun r t => r = .ok () ∧ Makes env V t ∨ (∃ e, r = .error e) ∧ LeavesMade env V t.fs)
      (fun t => ∀ fs', t.fs.PowerCut fs' → LeavesMade env V fs')
      (SegmentStore.openStore env maxSegmentSize) s := by
    obtain ⟨p, f, stuck⟩ := stuck
    apply (stuck.openStore sound maxSegmentSize).mono
    · rintro r t ⟨failed, stuck'⟩
      exact .inr ⟨failed, .inl ⟨p, f, stuck'⟩⟩
    · intro t stuck' fs' cut
      obtain ⟨g, stuck''⟩ := stuck'.powerCut cut
      exact .inl ⟨p, g, stuck''⟩
  rcases h with stuck | ⟨forward, recoverable⟩
  · exact stuckOpen stuck
  · by_cases dead : Dead s.fs
    · exact stuckOpen (Stuck.of_dead dead forward (recoverable.quiet_of_dead dead))
    · apply (safe_openStore tidy recoverable forward dead (fun L n header free made =>
        made.subset (Layout.records_put_created header free).le) maxSegmentSize).mono
      · rintro r t ⟨rfl, ⟨L, n, k, attached, all⟩, -, clean⟩
        obtain ⟨seg, -, -, hseg, -⟩ := attached.writer
        have made := all (max k seg.records.length) (Nat.le_max_left ..)
        rw [Layout.cut_of_length_le fun seg' h => by
          rw [← Option.some.inj (hseg.symm.trans h)]
          exact Nat.le_max_right ..] at made
        exact .inl ⟨rfl, ⟨L, n, k, attached, made⟩, clean sound⟩
      · intro t crash fs' cut
        exact .of_crashSafe (crash.quiet (.inl (.inr sound))) cut

end LeavesMade

end OosLite
