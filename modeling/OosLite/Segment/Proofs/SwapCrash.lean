import OosLite.Segment.Proofs.Reopen

/-!
# A crash in the swap of a compaction

Whatever a store holds and wherever the swap stops, recovery gets to a store in which every
reachable chunk that could be read can still be read.
-/

namespace OosLite

open Files Effect SegmentStore

section Swap

variable (env : Env)

/-- A running store without the rest of a compaction: whole records of any kind in its files, the
last one of each chunk in the index, the writer at the end. -/
def Opened (s : SegState) : Prop := (∃ L n k, @Attached env .own none s L n k) ∧ Clean s.fs

/-- What a store gives for a chunk. -/
def Gives (s : SegState) (c : ChunkId) (d : Bytes) : Prop :=
  ∃ t, Returns steady (getChunk env c) s (.ok d) t

/-- Phases 5a, 5b, the marker and phase 5c of `compact_and_reclaim`. -/
def phases (x : Compaction) : SegProg Unit := do
  let oldFiles ← swap x
  cleanUp oldFiles

/-- Crashes in recovery, one after the other. -/
inductive RecoveryCrashes (fs : Fs SegPath) : Fs SegPath → Prop
  | none : RecoveryCrashes fs fs
  | again {fs' fs'' mem t} : RecoveryCrashes fs fs' → mem.index .own = ∅ →
      Crashes steady (recoverAndIndex env) ⟨fs', mem⟩ t → t.fs.PowerCut fs'' →
      RecoveryCrashes fs fs''

variable {env} {L L' N : Layout env} {reachable : ChunkId → Bool}

/-- A layout in which the reachable chunks of `L` read as they do there. -/
def StillReads (reachable : ChunkId → Bool) (L L' : Layout env) : Prop :=
  ∀ c d, reachable c = true → L.Reads c d → L'.Has c ∧
    ∀ loc, Latest L'.entries c loc → ∃ seg, L' loc.segmentId = some seg ∧
      readRecord env seg.bytes c loc = .ok d

theorem StillReads.created (h : StillReads reachable L L') {n : Nat} (header : SegmentHeader)
    (free : L' n = none) : StillReads reachable L (L'.put n (.created env header)) := by
  intro c d reached reads
  obtain ⟨has, latest⟩ := h c d reached reads
  refine ⟨has.mono (Layout.records_put_created header free).ge, fun loc hloc => ?_⟩
  rw [Layout.entries_put_created header free] at hloc
  obtain ⟨seg, hseg, ok⟩ := latest loc hloc
  refine ⟨seg, ?_, ok⟩
  rw [Layout.put_of_ne _ _ fun same => by rw [same, free] at hseg; cases hseg]
  exact hseg

/-- What the new segments give back. -/
theorem Retains.stores (h : Retains reachable L N)
    (fits : ∀ c d, reachable c = true → L.Reads c d → Fits env d) :
    Sound (fun c d => reachable c = true ∧ L.Reads c d) N := by
  intro r hr
  obtain ⟨c, d, reached, reads, nonce, rfl⟩ := h.only r hr
  obtain rfl := reads.fromData
  exact stores_chunkRecord nonce (fits _ d reached reads) ⟨reached, reads⟩

theorem Retains.stillReads (h : Retains reachable L N)
    (fits : ∀ c d, reachable c = true → L.Reads c d → Fits env d) : StillReads reachable L N := by
  intro c d reached reads
  have has : L.Has c := by
    obtain ⟨loc, _, latest, -⟩ := reads
    exact Layout.has_iff.2 ⟨loc, latest.mem⟩
  refine ⟨(h.has_iff c).2 ⟨has, reached⟩, fun loc latest => ?_⟩
  obtain ⟨seg, d', hseg, ⟨-, reads'⟩, ok⟩ := (h.stores fits).read latest.mem
  rw [reads.unique reads']
  exact ⟨seg, hseg, ok⟩

/-- With the old segments all there, the new ones among them change nothing. -/
theorem Overlay.stillReads (overlay : Overlay L N L')
    (sound : Sound (fun c d => reachable c = true ∧ L.Reads c d) N) : StillReads reachable L L' := by
  intro c d reached reads
  obtain ⟨loc, seg, latest, hseg, ok⟩ := id reads
  have sub {e : ChunkId × ChunkLocation} (he : e ∈ L.entries) : e ∈ L'.entries := by
    obtain ⟨seg, hseg, hmem⟩ := Layout.mem_entries.1 he
    exact Layout.mem_entries.2 ⟨seg, (overlay _).1 seg hseg, hmem⟩
  refine ⟨Layout.has_iff.2 ⟨loc, sub latest.mem⟩, fun loc' latest' => ?_⟩
  obtain ⟨seg', hseg', hmem⟩ := Layout.mem_entries.1 latest'.mem
  refine ⟨seg', hseg', ?_⟩
  cases hL : L loc'.segmentId with
  | some seg'' =>
    obtain rfl := Option.some.inj (hseg'.symm.trans ((overlay _).1 seg'' hL))
    -- the latest of all is the latest of the old ones
    have : Latest L.entries c loc' :=
      ⟨Layout.mem_entries.2 ⟨_, hL, hmem⟩, fun other hother => latest'.last other (sub hother)⟩
    obtain rfl := this.unique latest
    obtain rfl := Option.some.inj (hL.symm.trans hseg)
    exact ok
  | none =>
    rcases (overlay _).2 hL with absent | same
    · rw [absent] at hseg'
      cases hseg'
    · have there : (c, loc') ∈ N.entries := Layout.mem_entries.2 ⟨seg', same ▸ hseg', hmem⟩
      obtain ⟨seg'', d', hseg'', ⟨-, reads'⟩, ok'⟩ := sound.read there
      obtain rfl := Option.some.inj (hseg'.symm.trans (same.trans hseg''))
      rw [reads.unique reads']
      exact ok'

/-- What is left when the phases are stopped. -/
theorem safe_phases {s : SegState} {x : Compaction} (prepared : Prepared reachable x s L N)
    (fits : ∀ c d, reachable c = true → L.Reads c d → Fits env d) (clean : Clean s.fs) :
    Safe steady (fun _ _ => True)
      (fun t => CrashSafe (StillReads reachable L) t ∧ Solid x.dir t.fs) (phases x) s := by
  have sound := prepared.retains.stores fits
  have records := prepared.records_target
  have sound' : Sound (fun c d => reachable c = true ∧ L.Reads c d) (target x N) :=
    sound.subset records.le
  have result : StillReads reachable L (target x N) := by
    rw [target]
    split
    · exact prepared.retains.stillReads fits
    · rename_i none
      intro c d reached reads
      have has := (prepared.retains.stillReads fits c d reached reads).1.mono records.ge
      rw [target, if_neg none] at has
      obtain ⟨r, hr, -⟩ := has
      rw [Layout.records_empty] at hr
      exact hr.elim
  have solid : Solid x.dir s.fs := by
    have whole {o : Option (Segment env)} {f : File} (h : o.map Segment.whole = some f) :
        Headed f := by
      obtain ⟨seg, -, rfl⟩ := Option.map_eq_some_iff.1 h
      exact seg.headed
    intro p f covered hf
    cases p with
    | active id => exact whole (o := L id) ((prepared.old id).symm.trans hf)
    | old id => rw [clean.1 id] at hf; cases hf
    | staging d id =>
      obtain rfl : d = x.dir := covered
      exact whole (o := N id) ((prepared.new id).symm.trans hf)
    | marker => exact covered.elim
  refine Safe.mono (Safe.and (Safe.bind (Q := fun _ _ => True) ((safe_swap tidy_steady prepared
    (fun L' overlay => overlay.stillReads sound') result).mono (fun _ _ h => h)
      fun t ht => ht clean.1 clean.unmarked) ?_ fun _ _ _ => trivial)
    (Maintains.bind (KeepsHeaders.swap rfl) (fun ids => KeepsHeaders.cleanUp ids) s solid))
    (fun _ _ _ => trivial) fun _ h => h
  rintro ids t ⟨_, ok, swapped⟩
  cases ok
  refine (safe_cleanUp swapped.active result swapped.marker ids).mono (fun _ _ _ => trivial)
    fun u hu => hu.1.resolve_right (not_not.2 (hu.2 (fun _ h => h) fun id there => ?_))
  refine (swapped.old id there).resolve_right fun old => ?_
  rw [clean.1 id] at old
  cases old

/-- Crashes in recovery change nothing about where it leads. -/
theorem RecoveryCrashes.recoverable {P : Layout env → Prop} {dir : Nat} {fs fs' : Fs SegPath}
    (h : RecoveryCrashes env fs fs') (recoverable : Recoverable fs P) (solid : Solid dir fs)
    (forward : Forward fs) : Recoverable fs' P ∧ Solid dir fs' ∧ Forward fs' := by
  induction h with
  | none => exact ⟨recoverable, solid, forward⟩
  | @again fs' fs'' mem t _ fresh crashes cut ih =>
    obtain ⟨recoverable, solid, forward⟩ := ih
    have left := (safe_recoverAndIndex tidy_steady (s := ⟨fs', mem⟩) recoverable forward
      solid.alive fresh).crashes crashes
    have headers := (@KeepsHeaders.recoverAndIndex env _ _ ⟨fs', mem⟩ solid).crashes crashes
    exact ⟨left.quiet (.inl (.inr fun _ h => h)) _ cut, headers.powerCut cut, .powerCut cut⟩

/-- What a store gives is what its layout says. -/
theorem Attached.gives_iff {s : SegState} {n k : Nat} (attached : Attached .own none s L n k)
    (c : ChunkId) (d : Bytes) : Gives env s c d ↔ L.Reads c d := by
  constructor
  · rintro ⟨_, returned⟩
    exact ((safe_getChunk_only (C := fun _ => True) tidy_steady attached c).returns returned).2 d
      rfl
  · intro reads
    obtain ⟨r, v, returned⟩ := (total_segMachine fun _ => False).returns (getChunk env c) s
    obtain ⟨-, rfl⟩ := (safe_getChunk_reads (C := fun _ => True) tidy_steady attached
      reads).returns returned
    exact ⟨v, returned⟩

theorem Gives.unique {s : SegState} (h : Opened env s) {c : ChunkId} {d d' : Bytes}
    (hd : Gives env s c d) (hd' : Gives env s c d') : d = d' := by
  obtain ⟨⟨L, n, k, attached⟩, -⟩ := h
  exact ((attached.gives_iff c d).1 hd).unique ((attached.gives_iff c d').1 hd')

/-- The stores that the runs of a process reach. -/
theorem opened_of_reachable {run : StoreRun} (h : StoreReachable env (Spared env) run)
    {s : SegState} (running : run.phase = .running s) : Opened env s := by
  obtain ⟨clean, H, -, L, n, k, attached, -⟩ := (storeInv h).running s running
  exact ⟨⟨L, n, k, attached⟩, clean⟩

/-- The swap of a compaction is crash-safe: whatever the store holds, wherever the phases are
stopped and however often recovery is, the store then opens, and every reachable chunk that it
gave before it still gives. -/
theorem swap_crash_safe (env : Env) (s : SegState) (h : Opened env s) (reachable : ChunkId → Bool)
    (fits : ∀ c d, reachable c = true → Gives env s c d → Fits env d) (x : Compaction)
    (t : SegState) (prepared : Returns steady (prepare env reachable) s (.ok (some x)) t)
    (u : SegState) (stopped : Crashes steady (phases x) t u) (fs fs' : Fs SegPath)
    (cut : u.fs.PowerCut fs) (again : RecoveryCrashes env fs fs') (maxSegmentSize : Nat)
    (mem : SegmentStore) :
    Ends steady (openStore env maxSegmentSize) ⟨fs', mem⟩ fun r v => r = .ok () ∧
      ∀ c d, reachable c = true → Gives env s c d →
        Ends steady (getChunk env c) v fun r _ => r = .ok d := by
  obtain ⟨⟨L, n, k, attached⟩, clean⟩ := h
  simp only [attached.gives_iff] at fits ⊢
  obtain ⟨old, -, N, ready⟩ := (safe_prepare (C := fun _ => True) tidy_steady attached fits
    fun _ _ _ => trivial).returns prepared
  obtain ⟨left, solid⟩ := (safe_phases ready fits (clean.congr old)).crashes stopped
  obtain ⟨recoverable, solid, forward⟩ := again.recoverable (left fs cut) (solid.powerCut cut)
    (.powerCut cut)
  refine ((safe_openStore tidy_steady (s := ⟨fs', mem⟩) recoverable forward solid.alive
    (fun L n header free still => still.created header free) maxSegmentSize).ends
      (total_segMachine _)).mono ?_
  rintro r v ⟨ok, ⟨L', n', k', attached', still⟩, -⟩
  refine ⟨ok, fun c d reached reads => ?_⟩
  obtain ⟨seg, _, _, hseg, -⟩ := attached'.writer
  have whole : StillReads reachable L L' := by
    have := still (max k' seg.records.length) (Nat.le_max_left ..)
    rwa [Layout.cut_of_length_le fun seg' h => by
      rw [← Option.some.inj (hseg.symm.trans h)]
      exact Nat.le_max_right ..] at this
  obtain ⟨has, latest⟩ := whole c d reached reads
  obtain ⟨loc, hloc⟩ := Layout.has_iff.1 has
  obtain ⟨loc', found⟩ := attached'.index.complete c loc hloc
  have last := attached'.index.latest c loc' found
  obtain ⟨seg', hseg', read⟩ := latest loc' last
  exact ((safe_getChunk_reads (C := fun _ => True) tidy_steady attached'
    ⟨loc', seg', last, hseg', read⟩).ends (total_segMachine _)).mono fun _ _ h => h.2

end Swap

/-! ## One run -/

namespace StoreSample

/-- A second chunk, which will not be reachable. -/
def other : Bytes := [116, 119, 111]

def both : SegState := (run ((StoreOp.put other).run env) stored).2

def keep (c : ChunkId) : Bool := c = ChunkId.fromData env chunk

/-- A compaction that is stopped when the old segment has its second name. -/
def swapStopped : Option (Compaction × SegState × SegState) :=
  match run (prepare env keep) both with
  | (.ok (some x), t) => (halt (phases x) 3 t).map fun u => (x, t, u)
  | _ => none

/-- Both chunks are put to a store with segments of some size. -/
theorem reaches_puts {maxSegmentSize : Nat}
    (opens : (run (openStore env maxSegmentSize) ⟨empty, memory⟩).1 = .ok ()) :
    ∃ g, StoreReachable env (Spared env) ⟨.running (run ((StoreOp.put other).run env)
      (run ((StoreOp.put chunk).run env) (run (openStore env maxSegmentSize) ⟨empty, memory⟩).2).2).2,
        g⟩ := by
  have first := returns_run (openStore env maxSegmentSize) ⟨empty, memory⟩
  rw [opens] at first
  have alive : ¬ Dead empty := by
    rintro ⟨id, f, hf, -⟩
    simp [empty, Fs.file] at hf
  have begun : StoreReachable env (Spared env)
      ⟨.running (run (openStore env maxSegmentSize) ⟨empty, memory⟩).2, ⟨∅, ∅, ∅⟩⟩ :=
    .step .start (.opened first) fun fs h => StorePhase.down.inj h ▸ alive
  exact ⟨_, (begun.step (.op (returns_run ((StoreOp.put chunk).run env) _))
    (fits_of_length_le (by decide))).step (.op (returns_run ((StoreOp.put other).run env) _))
    (fits_of_length_le (by decide))⟩

theorem reaches_both : ∃ g, StoreReachable env (Spared env) ⟨.running both, g⟩ :=
  reaches_puts (by decide +kernel)

end StoreSample

theorem swap_crash_safe_moved_out : ∃ x t u,
    Returns steady (prepare StoreSample.env StoreSample.keep) StoreSample.both (.ok (some x)) t ∧
      Crashes steady (phases x) t u ∧
      Ends steady (openStore StoreSample.env 0) ⟨u.fs.visible, StoreSample.memory⟩ fun r v =>
        r = .ok () ∧ ∀ c d, StoreSample.keep c = true → Gives StoreSample.env StoreSample.both c d →
          Ends steady (getChunk StoreSample.env c) v fun r _ => r = .ok d := by
  obtain ⟨⟨x, t, u⟩, h⟩ : ∃ y, StoreSample.swapStopped = some y :=
    Option.isSome_iff_exists.1 (by decide +kernel)
  have prepared := StoreSample.returns_run (prepare StoreSample.env StoreSample.keep) StoreSample.both
  rw [StoreSample.swapStopped] at h
  split at h
  · rename_i x' t' result
    obtain ⟨u', stopped, same⟩ := Option.map_eq_some_iff.1 h
    obtain ⟨rfl, rfl, rfl⟩ := same
    rw [result] at prepared
    obtain ⟨g, reached⟩ := StoreSample.reaches_both
    have opened := opened_of_reachable reached rfl
    have read := StoreSample.returns_run
      (getChunk StoreSample.env (ChunkId.fromData StoreSample.env StoreSample.chunk)) StoreSample.both
    rw [show (StoreSample.run (getChunk StoreSample.env (ChunkId.fromData StoreSample.env
      StoreSample.chunk)) StoreSample.both).1 = .ok StoreSample.chunk by decide +kernel] at read
    have small (c : ChunkId) (d : Bytes) (kept : StoreSample.keep c = true)
        (gives : Gives StoreSample.env StoreSample.both c d) : Fits StoreSample.env d := by
      obtain rfl := of_decide_eq_true kept
      rw [gives.unique opened ⟨_, read⟩]
      exact fits_of_length_le (by decide)
    exact ⟨_, _, _, prepared, StoreSample.crashes_halt stopped, swap_crash_safe StoreSample.env
      StoreSample.both opened StoreSample.keep small _ _ prepared _
      (StoreSample.crashes_halt stopped) _ _ (Fs.powerCut_visible _) .none 0 StoreSample.memory⟩
  · cases h

end OosLite
