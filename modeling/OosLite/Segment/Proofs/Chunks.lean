import OosLite.Segment.Proofs.Swap

/-!
# The store as a set of chunks

What a store is for, without its files: it holds some chunks, of which some are on the medium,
and a chunk it holds gives back the data known for it. Each operation in these terms.
-/

namespace OosLite

open Files Effect SegmentStore

variable {env : Env} {faulty : FsOp SegPath → Prop}

/-- What each chunk may give back. -/
abbrev Known := ChunkId → Bytes → Prop

/-- A layout that keeps the chunks `K`, and gives back nothing but known data. -/
structure Keeps (V : Known) (K : Set ChunkId) (L : Layout env) : Prop where
  sound : Sound V L
  has : ∀ c ∈ K, L.Has c

/-- A running store that holds the chunks `H`, of which `K` are on the medium. -/
def Holds (env : Env) (V : Known) (s : SegState) (H K : Set ChunkId) : Prop :=
  ∃ (L : Layout env) (n k : Nat), Attached .own none s L n k ∧ Sound V L ∧
    (∀ c, L.Has c ↔ c ∈ H) ∧ ∀ c ∈ K, (L.cut n k).Has c

/-- A directory without the rest of a compaction. -/
def Clean (fs : Fs SegPath) : Prop := (∀ id, fs.file (.old id) = none) ∧ fs.file .marker = none

theorem Clean.quiet {fs : Fs SegPath} (h : Clean fs) : Quiet fs := .inl h.1

theorem Clean.unmarked {fs : Fs SegPath} (h : Clean fs) : Unmarked fs := by
  intro f img hf
  rw [h.2] at hf
  cases hf

theorem Clean.congr {fs fs' : Fs SegPath} (h : Clean fs) (same : SameOld fs fs') : Clean fs' :=
  ⟨fun id => (same.1 id).trans (h.1 id), same.2.trans h.2⟩

theorem Quiet.sameOld {fs fs' : Fs SegPath} (h : Quiet fs) (same : SameOld fs fs') : Quiet fs' :=
  h.imp (fun none id => (same.1 id).trans (none id)) same.2.trans

section Lemmas

variable {V W : Known} {H K K' : Set ChunkId} {L L' N : Layout env} {n k : Nat} {s : SegState}

theorem Sound.subset (h : Sound V L) (sub : L'.records ⊆ L.records) : Sound V L' :=
  fun r hr => h r (sub hr)

theorem Keeps.mono (h : Keeps V K L) (sub : K' ⊆ K) : Keeps V K' L :=
  ⟨h.sound, fun c hc => h.has c (sub hc)⟩

theorem Keeps.created (h : Keeps V K L) {id : Nat} (free : L id = none) (header : SegmentHeader) :
    Keeps V K (L.put id (.created env header)) := by
  have same := Layout.records_put_created header free
  exact ⟨h.sound.subset same.le, fun c hc => (h.has c hc).mono same.ge⟩

theorem Keeps.cut (sound : Sound V L) (has : ∀ c ∈ K, (L.cut n k).Has c) {j : Nat} (hj : k ≤ j) :
    Keeps V K (L.cut n j) :=
  ⟨sound.subset (L.records_cut_subset n j), fun c hc => (has c hc).mono (L.records_cut_mono n hj)⟩

theorem Holds.le (h : Holds env V s H K) : K ⊆ H := by
  obtain ⟨L, n, k, -, -, same, kept⟩ := h
  exact fun c hc => (same c).1 ((kept c hc).mono (L.records_cut_subset n k))

theorem Holds.mono (h : Holds env V s H K) (sub : K' ⊆ K) : Holds env V s H K' := by
  obtain ⟨L, n, k, attached, sound, same, kept⟩ := h
  exact ⟨L, n, k, attached, sound, same, fun c hc => kept c (sub hc)⟩

/-- What is known of chunks that are not there does not matter. -/
theorem Holds.known (h : Holds env V s H K) (le : ∀ c ∈ H, ∀ d, V c d → W c d) :
    Holds env W s H K := by
  obtain ⟨L, n, k, attached, sound, same, kept⟩ := h
  exact ⟨L, n, k, attached, fun r hr => (sound r hr).mono (le _ ((same _).1 ⟨r, hr, rfl⟩)), same,
    kept⟩

theorem Holds.contains_iff (h : Holds env V s H K) (c : ChunkId) :
    (s.mem.index .own).contains c = true ↔ c ∈ H := by
  obtain ⟨L, n, k, attached, -, same, -⟩ := h
  rw [attached.contains_iff, same]

/-- A store at rest. -/
theorem Holds.recoverable (h : Holds env V s H K) (quiet : Quiet s.fs) :
    Recoverable s.fs (Keeps V K : Layout env → Prop) := by
  obtain ⟨L, n, k, attached, sound, -, kept⟩ := h
  exact .settled L n k quiet attached.disk fun j hj => .cut sound kept hj

theorem Holds.forward (h : Holds env V s H K) : Forward s.fs := by
  obtain ⟨L, n, k, attached, -⟩ := h
  intro id f hf
  by_cases hid : id = n
  · subst hid
    obtain ⟨seg, f', m, hseg, hf', data, -⟩ := attached.writer
    obtain rfl : f = f' := Option.some.inj (hf.symm.trans hf')
    obtain ⟨g, hg, part⟩ := attached.disk.newest seg hseg
    obtain rfl : f = g := Option.some.inj (hf.symm.trans hg)
    rw [data]
    exact part.durable
  · have file : s.fs.file (.active id) = (L id).map Segment.whole := attached.disk.sealed id hid
    rw [file] at hf
    obtain ⟨seg, -, rfl⟩ := Option.map_eq_some_iff.1 hf
    exact List.prefix_rfl

theorem Forward.powerCut {fs fs' : Fs SegPath} (cut : fs.PowerCut fs') : Forward fs' := by
  intro id f hf
  cases h : fs.file (.active id) with
  | none => rw [cut.absent h] at hf; cases hf
  | some g =>
    obtain ⟨img, -, there⟩ := cut.present h
    rw [there] at hf
    obtain rfl := Option.some.inj hf
    exact List.prefix_rfl

theorem Retains.sound {reachable : ChunkId → Bool} (h : Retains reachable L N) (sound : Sound V L)
    (attached : Attached .own none s L n k)
    (fits : ∀ c d, reachable c = true → L.Reads c d → Fits env d) : Sound V N := by
  intro r hr
  obtain ⟨c, d, reached, reads, nonce, rfl⟩ := h.only r hr
  obtain rfl := reads.fromData
  have has : L.Has (ChunkId.fromData env d) := by
    obtain ⟨loc, _, latest, -⟩ := reads
    exact Layout.has_iff.2 ⟨loc, latest.mem⟩
  obtain ⟨d', known, reads'⟩ := sound.exists_reads attached has
  obtain rfl := reads.unique reads'
  exact stores_chunkRecord nonce (fits _ d reached reads) known

theorem Retains.has_iff {reachable : ChunkId → Bool} (h : Retains reachable L N) (c : ChunkId) :
    N.Has c ↔ L.Has c ∧ reachable c = true := by
  constructor
  · rintro ⟨r, hr, rfl⟩
    obtain ⟨c, d, reached, ⟨loc, _, latest, -⟩, mem⟩ := h.only r hr
    rw [chunkId_of_mem mem]
    exact ⟨Layout.has_iff.2 ⟨loc, latest.mem⟩, reached⟩
  · rintro ⟨has, reached⟩
    obtain ⟨d, -, r, hr, mem⟩ := h.all c reached has
    exact ⟨r, hr, chunkId_of_mem mem⟩

theorem Overlay.records_subset (h : Overlay L N L') : L'.records ⊆ L.records ∪ N.records := by
  rintro r ⟨id, seg, hseg, hr⟩
  cases hL : L id with
  | some seg' =>
    rw [(h id).1 seg' hL] at hseg
    obtain rfl := Option.some.inj hseg
    exact .inl ⟨id, _, hL, hr⟩
  | none =>
    rcases (h id).2 hL with none | same
    · rw [none] at hseg
      cases hseg
    · rw [same] at hseg
      exact .inr ⟨id, seg, hseg, hr⟩

theorem Overlay.subset_records (h : Overlay L N L') : L.records ⊆ L'.records := by
  rintro r ⟨id, seg, hseg, hr⟩
  exact ⟨id, seg, (h id).1 seg hseg, hr⟩

/-- Of an empty index there are no records. -/
theorem IndexOf.records_eq_empty {index : SegmentIndex} (h : IndexOf L.entries index)
    (empty : index.size = 0) : L.records = ∅ := by
  rw [Set.eq_empty_iff_forall_notMem]
  intro r hr
  obtain ⟨loc, hloc⟩ := Layout.has_iff.1 ⟨r, hr, rfl⟩
  obtain ⟨loc', found⟩ := h.complete _ loc hloc
  rw [Std.ExtTreeMap.eq_empty_iff_size_eq_zero.2 empty] at found
  simp at found

section Prepared

variable {x : Compaction} {reachable : ChunkId → Bool} (h : Prepared reachable x s L N)
include h

theorem Prepared.records_target : (target x N).records = N.records := by
  rw [target]
  split
  · rfl
  · rename_i none
    rw [Layout.records_empty, h.index.records_eq_empty (by rw [← h.count]; omega)]

theorem Prepared.records_attaches (attaches : Attaches x N L') : L'.records = N.records := by
  rw [Attaches] at attaches
  split at attaches
  · rw [attaches]
  · rename_i none
    obtain ⟨header, rfl⟩ := attaches
    rw [Layout.records_put_created header rfl, Layout.records_empty,
      h.index.records_eq_empty (by rw [← h.count]; omega)]

end Prepared

end Lemmas

/-! ## The operations -/

section Operations

variable {V : Known} {H K : Set ChunkId} {s : SegState}

theorem Grown.keeps {L : Layout env} {n k : Nat} {new : Set (Bytes × RecordHeader)} {t : SegState}
    (sound : Sound V L) (kept : ∀ c ∈ K, (L.cut n k).Has c) (quiet : Quiet s.fs)
    (known : ∀ r ∈ new, Stores env V r) (h : Grown none s.fs L n k new t.fs) :
    CrashSafe (Keeps V K : Layout env → Prop) t := by
  obtain ⟨outside, L', n', k', disk, below, above⟩ := h
  refine (Recoverable.settled L' n' k' (quiet.sameOld outside.sameOld) disk fun j hj =>
    .cut (fun r hr => ?_) (fun c hc => (kept c hc).mono below) hj).crashSafe
  exact (above hr).elim (sound r) (known r)

theorem Holds.putChunk (tidy : ∀ o, faulty o → Cleanup o) (h : Holds env V s H K)
    (quiet : Quiet s.fs) {data : Bytes} (fits : Fits env data)
    (known : V (ChunkId.fromData env data) data) :
    Safe (segMachine faulty)
      (fun r t => ∃ new : Bool, r = .ok (ChunkId.fromData env data, new) ∧
        (new = false ↔ ChunkId.fromData env data ∈ H) ∧
        Holds env V t (insert (ChunkId.fromData env data) H) K ∧ SameOld s.fs t.fs)
      (CrashSafe (Keeps V K : Layout env → Prop)) (putChunk env data) s := by
  obtain ⟨L, n, k, attached, sound, same, kept⟩ := h
  have stores : ∀ r ∈ recordsOf env (ChunkId.fromData env data) data, Stores env V r := by
    rintro r ⟨nonce, rfl⟩
    exact stores_chunkRecord nonce fits known
  refine (safe_putChunk tidy attached fits fun t grown =>
    grown.keeps sound kept quiet stores).mono ?_ fun _ hc => hc
  rintro r t (⟨has, rfl, rfl⟩ | ⟨hasNot, rfl, ⟨-, ⟨L', n', k', record, hrecord, attached', records,
    below⟩, outside, -⟩⟩)
  · have there := (same _).1 has
    refine ⟨false, rfl, by simp [there], ⟨L, n, k, attached, sound, fun c => ?_, kept⟩,
      fun _ => rfl, rfl⟩
    rw [same, Set.insert_eq_of_mem there]
  · have absent : ChunkId.fromData env data ∉ H := fun there => hasNot ((same _).2 there)
    refine ⟨true, rfl, by simp [absent], ⟨L', n', k', attached', fun r hr => ?_, fun c => ?_,
      fun c hc => (kept c hc).mono below⟩, outside.sameOld⟩
    · rw [records] at hr
      rcases hr with rfl | hr
      · exact stores _ hrecord
      · exact sound r hr
    · rw [Set.mem_insert_iff, ← same c]
      constructor
      · rintro ⟨r, hr, rfl⟩
        rw [records] at hr
        rcases hr with rfl | hr
        · exact .inl (chunkId_of_mem hrecord)
        · exact .inr ⟨r, hr, rfl⟩
      · rintro (rfl | has)
        · exact ⟨record, by rw [records]; exact .inl rfl, chunkId_of_mem hrecord⟩
        · exact has.mono (by rw [records]; exact Set.subset_insert _ _)

theorem Holds.sync (tidy : ∀ o, faulty o → Cleanup o) (h : Holds env V s H K) (quiet : Quiet s.fs) :
    Safe (segMachine faulty)
      (fun r t => r = .ok () ∧ Holds env V t H H ∧ SameOld s.fs t.fs)
      (CrashSafe (Keeps V K : Layout env → Prop)) sync s := by
  obtain ⟨L, n, k, attached, sound, same, kept⟩ := h
  refine (safe_sync tidy attached fun t grown => grown.keeps sound kept quiet (by simp)).mono ?_
    fun _ hc => hc
  rintro r t ⟨rfl, -, ⟨k', attached', all⟩, -, outside⟩
  exact ⟨rfl, ⟨L, n, k', attached', sound, same, fun c hc => by rw [all]; exact (same c).2 hc⟩,
    outside.sameOld⟩

theorem Holds.rotate (tidy : ∀ o, faulty o → Cleanup o) (h : Holds env V s H K)
    (quiet : Quiet s.fs) :
    Safe (segMachine faulty)
      (fun r t => r = .ok () ∧ Holds env V t H K ∧ SameOld s.fs t.fs)
      (CrashSafe (Keeps V K : Layout env → Prop)) (SegmentWriter.rotate .own) s := by
  obtain ⟨L, n, k, attached, sound, same, kept⟩ := h
  refine (safe_rotate tidy attached fun t grown => grown.keeps sound kept quiet
    (fun _ hr => hr.elim : ∀ r ∈ (∅ : Set (Bytes × RecordHeader)), Stores env V r)).mono ?_
    fun _ hc => hc
  rintro r t ⟨rfl, ⟨header, attached'⟩, outside, -⟩
  have records := Layout.records_put_created header (attached.disk.last (n + 1) (by omega))
  refine ⟨rfl, ⟨_, _, _, attached', sound.subset records.le, fun c => ?_, fun c hc => ?_⟩,
    outside.sameOld⟩
  · rw [← same c]
    exact ⟨fun has => has.mono records.le, fun has => has.mono records.ge⟩
  · rw [Layout.cut_put_created]
    exact ((kept c hc).mono (L.records_cut_subset n k)).mono records.ge

/-- A chunk that is held is read. -/
theorem Holds.getChunk (tidy : ∀ o, faulty o → Cleanup o) (h : Holds env V s H K) {c : ChunkId}
    (hc : c ∈ H) : ∃ d, V c d ∧ ∀ C : SegState → Prop,
      Safe (segMachine faulty) (fun r t => t = s ∧ r = .ok d) C (getChunk env c) s := by
  obtain ⟨L, n, k, attached, sound, same, -⟩ := h
  obtain ⟨d, known, reads⟩ := sound.exists_reads attached ((same c).2 hc)
  exact ⟨d, known, fun C => safe_getChunk_reads tidy attached reads⟩

/-- Compaction keeps the reachable chunks, and says how many it dropped. -/
theorem Holds.compactAndReclaim (sound : ∀ o, ¬ faulty o) (h : Holds env V s H K)
    (clean : Clean s.fs) {reachable : ChunkId → Bool}
    (fits : ∀ c ∈ H, reachable c = true → ∀ d, V c d → Fits env d) :
    Safe (segMachine faulty)
      (fun r t => ∃ count, r = .ok count ∧ ((∀ c ∈ H, reachable c = true) → count = 0) ∧
        Holds env V t {c | c ∈ H ∧ reachable c = true} {c | c ∈ H ∧ reachable c = true} ∧
        Clean t.fs)
      (CrashSafe (Keeps V {c | c ∈ K ∧ reachable c = true} : Layout env → Prop))
      (compactAndReclaim env reachable) s := by
  have tidy (o : FsOp SegPath) (ho : faulty o) : Cleanup o := absurd ho (sound o)
  obtain ⟨L, n, k, attached, known, same, kept⟩ := h
  have fits' (c : ChunkId) (d : Bytes) (reached : reachable c = true) (reads : L.Reads c d) :
      Fits env d := by
    have has : L.Has c := by
      obtain ⟨loc, _, latest, -⟩ := reads
      exact Layout.has_iff.2 ⟨loc, latest.mem⟩
    obtain ⟨d', hd', reads'⟩ := known.exists_reads attached has
    obtain rfl := reads.unique reads'
    exact fits c ((same c).1 has) reached d hd'
  rw [SegmentStore.compactAndReclaim]
  refine Safe.bind (safe_prepare tidy attached fits' fun t disk old => ?_) ?_ ?_
  · refine (Recoverable.settled L n k (clean.congr old).quiet disk fun j hj => ?_).crashSafe
    exact (Keeps.cut known kept hj).mono fun c hc => hc.1
  · rintro (_ | x) t ⟨old, post⟩
    · obtain ⟨all, mem, exactly, k', attached', whole⟩ := post
      refine ⟨0, rfl, fun _ => rfl, ⟨L, n, k', attached', known, fun c => ?_, fun c hc => ?_⟩,
        clean.congr old⟩
      · exact ⟨fun has => ⟨(same c).1 has, all c has⟩, fun hc => (same c).2 hc.1⟩
      · rw [whole]
        exact (same c).2 hc.1
    · obtain ⟨⟨c₀, has₀, unreached⟩, N, prepared⟩ := post
      have clean' := clean.congr old
      have retained := prepared.retains
      have knownN : Sound V N := retained.sound known attached fits'
      have keepsN {L' : Layout env} (eq : L'.records = N.records) :
          Keeps V {c | c ∈ K ∧ reachable c = true} L' := by
        refine ⟨knownN.subset eq.le, fun c hc => ?_⟩
        have has : N.Has c := (retained.has_iff c).2
          ⟨(kept c hc.1).mono (L.records_cut_subset n k), hc.2⟩
        exact has.mono eq.ge
      refine Safe.bind ((safe_swap (P := Keeps V {c | c ∈ K ∧ reachable c = true}) tidy prepared
        (fun L' overlay => ⟨fun r hr => ?_, fun c hc => ?_⟩)
        (keepsN prepared.records_target)).mono (fun _ _ h => h)
          fun u hu => hu clean'.1 clean'.unmarked) ?_ ?_
      · rcases overlay.records_subset hr with hr | hr
        · exact known r hr
        · rw [prepared.records_target] at hr
          exact knownN r hr
      · exact ((kept c hc.1).mono (L.records_cut_subset n k)).mono overlay.subset_records
      · rintro ids u ⟨_, ok, swapped⟩
        cases ok
        have olds (id : Nat) (there : (u.fs.file (.old id)).isSome) : id ∈ ids := by
          refine (swapped.old id there).resolve_right fun h => ?_
          rw [clean'.1 id] at h
          cases h
        rw [finish, safe_bind]
        refine Safe.mono (safe_cleanUp swapped.active (keepsN prepared.records_target)
          swapped.marker ids) (fun r v hv => ?_) fun v hv => hv.1.resolve_right
            (not_not.2 (hv.2 sound olds))
        obtain ⟨rfl, vmem, active, others, gone⟩ := hv
        obtain ⟨noMarker, remaining⟩ := gone sound
        have cleanV : Clean v.fs := by
          refine ⟨fun id => ?_, noMarker⟩
          by_contra there
          obtain ⟨out, old⟩ := remaining id (Option.isSome_iff_ne_none.2 there)
          exact out (olds id old)
        have mem : v.mem.index .new = t.mem.index .new := by rw [vmem, swapped.mem]
        rw [thenSafe_ok, safe_bind]
        refine Safe.mono (safe_attach tidy (P := Keeps V {c | c ∈ K ∧ reachable c = true}) active
          (by rw [mem]; exact prepared.index) (by rw [mem]; exact prepared.count) prepared.writer
          fun L' hL' => ?_) (fun r w hw => ?_) fun w hw =>
            hw.1.resolve_right (not_not.2 (cleanV.congr hw.2).quiet)
        · rcases hL' with attaches | rfl
          · exact keepsN (prepared.records_attaches attaches)
          · exact keepsN prepared.records_target
        · obtain ⟨rfl, ⟨L', n', k', attaches, attached', whole⟩, outside⟩ := hw
          have eq := prepared.records_attaches attaches
          have has (c : ChunkId) : L'.Has c ↔ c ∈ H ∧ reachable c = true := by
            rw [← same c, ← retained.has_iff c]
            exact ⟨fun h => h.mono eq.le, fun h => h.mono eq.ge⟩
          rw [thenSafe_ok, safe_pure]
          refine ⟨_, rfl, fun all => absurd (all c₀ ((same c₀).1 has₀)) unreached,
            ⟨L', n', k', attached', knownN.subset eq.le, has, fun c hc => ?_⟩,
            cleanV.congr outside.sameOld⟩
          rw [whole]
          exact (has c).2 hc
      · rintro e u ⟨_, ok, -⟩
        cases ok
  · rintro e t ⟨-, c, reached, has, none⟩
    obtain ⟨d, -, reads⟩ := known.exists_reads attached has
    exact absurd reads (none d)

/-- Opening a directory whose chunks are recoverable. -/
theorem Recoverable.openStore (tidy : ∀ o, faulty o → Cleanup o)
    (h : Recoverable s.fs (Keeps V K : Layout env → Prop)) (forward : Forward s.fs) (alive : ¬ Dead s.fs)
    (maxSegmentSize : Nat) :
    Safe (segMachine faulty)
      (fun r t => r = .ok () ∧ (∃ H, Holds env V t H K) ∧
        (¬ MarkerDone s.fs → ∀ id, t.fs.file (.old id) = none) ∧
        ((∀ o, ¬ faulty o) → Clean t.fs))
      (RecoveryCut faulty (Keeps V K : Layout env → Prop) s.fs) (openStore env maxSegmentSize) s := by
  refine (safe_openStore tidy h forward alive (fun L n header free keeps =>
    keeps.created free header) maxSegmentSize).mono ?_ fun _ hc => hc
  rintro r t ⟨rfl, ⟨L, n, k, attached, all⟩, noOld, clean⟩
  obtain ⟨seg, -, -, hseg, -⟩ := attached.writer
  refine ⟨rfl, ⟨{c | L.Has c}, L, n, k, attached, ?_, fun _ => Iff.rfl,
    (all k (Nat.le_refl k)).has⟩, noOld, clean⟩
  have := (all (max k seg.records.length) (Nat.le_max_left ..)).sound
  rwa [Layout.cut_of_length_le fun seg' h => by
    rw [← Option.some.inj (hseg.symm.trans h)]
    exact Nat.le_max_right ..] at this

end Operations

end OosLite
