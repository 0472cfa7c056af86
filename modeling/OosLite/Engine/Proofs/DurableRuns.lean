import OosLite.Engine.Proofs.DurableCalls

/-!
# What whole runs keep

Garbage collection and recovery, and with them every run in which nothing fails but transactions,
with crashes and power cuts anywhere.
-/

namespace OosLite

open Files Effect Relation StorageEngine

variable {env : Env} {files : Set Bytes} {f : Faults} {m m' : MetadataStore} {H K : Set ChunkId}
  {s : StorageEngine}

/-! ## The manifests that a sweep leaves -/

namespace MetadataStore

/-- The tables when the sweep has come past these manifests. -/
def swept (m : MetadataStore) (reachable ids : List String) : MetadataStore :=
  (ids.filter fun id => id ∉ reachable).foldl deleteManifest m

section Swept

variable {reachable ids : List String} {id : String}

theorem swept_append_of_mem (there : id ∈ reachable) :
    m.swept reachable (ids ++ [id]) = m.swept reachable ids := by
  simp [swept, there]

theorem swept_append_of_not_mem (gone : id ∉ reachable) :
    m.swept reachable (ids ++ [id]) = (m.swept reachable ids).deleteManifest id := by
  simp [swept, gone]

/-- Only manifests go. -/
theorem swept_others (m : MetadataStore) (reachable ids : List String) :
    (m.swept reachable ids).objects = m.objects ∧ (m.swept reachable ids).snapshots = m.snapshots ∧
      (m.swept reachable ids).names = m.names ∧
      (m.swept reachable ids).watcherFiles = m.watcherFiles := by
  unfold swept
  induction ids.filter fun id => id ∉ reachable using List.reverseRecOn with
  | nil => exact ⟨rfl, rfl, rfl, rfl⟩
  | append_singleton before id ih =>
    rw [List.foldl_append]
    exact ih

theorem manifests_swept (m : MetadataStore) (reachable ids : List String) (id : String) :
    (m.swept reachable ids).manifests[id]? =
      if id ∈ ids ∧ id ∉ reachable then none else m.manifests[id]? := by
  induction ids using List.reverseRecOn with
  | nil => simp [swept]
  | append_singleton before last ih =>
    by_cases there : last ∈ reachable
    · rw [swept_append_of_mem there, ih]
      by_cases same : id = last
      · subst same
        simp [there]
      · simp [same]
    · rw [swept_append_of_not_mem there, deleteManifest, Std.ExtTreeMap.getElem?_erase, ih]
      simp only [Std.LawfulEqCmp.compare_eq_iff_eq]
      by_cases same : last = id
      · subst same
        simp [there]
      · simp [same, Ne.symm same]

theorem mem_listAllManifestIds : id ∈ m.listAllManifestIds ↔ (m.manifests[id]?).isSome := by
  unfold listAllManifestIds
  rw [List.mem_map, Option.isSome_iff_exists]
  constructor
  · intro ⟨⟨id', value⟩, there, same⟩
    exact ⟨value, same ▸ Std.ExtTreeMap.mem_toList_iff_getElem?_eq_some.1 there⟩
  · intro ⟨value, there⟩
    exact ⟨(id, value), Std.ExtTreeMap.mem_toList_iff_getElem?_eq_some.2 there, rfl⟩

/-- After the whole sweep the manifests are those that were reached. -/
theorem manifests_swept_all (m : MetadataStore) (reachable : List String) (id : String) :
    (m.swept reachable m.listAllManifestIds).manifests[id]? =
      if id ∈ reachable then m.manifests[id]? else none := by
  simp only [manifests_swept, mem_listAllManifestIds]
  by_cases there : id ∈ reachable
  · simp [there]
  · cases stored : m.manifests[id]? <;> simp [there]

theorem getManifest_of_get (same : m'.manifests[id]? = m.manifests[id]?) :
    m'.getManifest env id = m.getManifest env id := by
  unfold getManifest
  rw [same]

theorem getManifest_of_none (absent : m.manifests[id]? = none) :
    m.getManifest env id = .ok none := by
  unfold getManifest
  rw [absent]

/-- A manifest that was reached is read as before. -/
theorem getManifest_swept_all (m : MetadataStore) {reachable : List String} (there : id ∈ reachable) :
    (m.swept reachable m.listAllManifestIds).getManifest env id = m.getManifest env id := by
  apply getManifest_of_get
  rw [manifests_swept_all, if_pos there]

theorem SnapshotRoot.congr (h : m'.SnapshotRoot env id) (same : m'.snapshots = m.snapshots) :
    m.SnapshotRoot env id := by
  obtain ⟨label, snapshot, found, there⟩ := h
  refine ⟨label, snapshot, ?_, there⟩
  unfold getSnapshot at found ⊢
  rw [← same]
  exact found

/-- What is swept is what no object and no snapshot lists. -/
theorem Lawful.sweep {marked : Marked} (found : mark env m = .ok marked)
    (gone : id ∉ marked.manifests) : (m.swept marked.manifests ids).Lawful env files
      ((m.swept marked.manifests ids).deleteManifest id) := by
  obtain ⟨objects, snapshots, -, -⟩ := swept_others m marked.manifests ids
  have unlisted := mt ((mark_ok found).1 id).2 gone
  refine .deleteManifest id (fun root => unlisted (.inl (root.congr objects)))
    (fun root => unlisted (.inr (root.congr snapshots))) rfl

/-- After the whole sweep only chunks that were reached are needed. -/
theorem needed_swept_all {marked : Marked} (found : mark env m = .ok marked) :
    (m.swept marked.manifests m.listAllManifestIds).needed env ⊆ {c | c ∈ marked.chunks} := by
  intro c ⟨id, manifest, got, there⟩
  by_cases reached : id ∈ marked.manifests
  · rw [getManifest_swept_all m reached] at got
    obtain ⟨manifest', got', chunks⟩ := (mark_ok found).2.1 id reached
    rw [got] at got'
    cases got'
    exact chunks c there
  · have kept := manifests_swept_all m marked.manifests id
    rw [if_neg reached] at kept
    rw [getManifest_of_none kept] at got
    cases got

end Swept

end MetadataStore

/-! ## Garbage collection -/

variable (env) in
/-- What a collection that returned has done to the tables. -/
def GcDid (m m' : MetadataStore) (marked : Marked) : Prop :=
  mark env m = .ok marked ∧ m' = m.swept marked.manifests m.listAllManifestIds

namespace Upheld

theorem sweepManifests (h : Upheld env files m H K s) {marked : Marked}
    (found : mark env s.metadataStore = .ok marked) (ids : List String) :
    Safe (engineMachine f)
      (fun r t => (∃ n, t = s.withTables n ∧ Upheld env files m H K t) ∧ ∀ count, r = .ok count →
        t = s.withTables (s.metadataStore.swept marked.manifests ids) ∧
        count = (ids.filter fun id => id ∉ marked.manifests).length)
      (Spares env files m) (sweepManifests marked.manifests ids) s := by
  apply safe_forEach fun before _ count t => Upheld env files m H K t ∧
    t = s.withTables (s.metadataStore.swept marked.manifests before) ∧
    count = (before.filter fun id => id ∉ marked.manifests).length
  · exact ⟨h, rfl, rfl⟩
  · intro before id rest count t _ ⟨kept, same, counted⟩
    by_cases there : id ∈ marked.manifests
    · rw [if_pos there, safe_pure]
      refine ⟨kept, ?_, ?_⟩
      · rw [MetadataStore.swept_append_of_mem there, same]
      · simp [there, counted]
    · rw [if_neg there, safe_bind]
      have tables : t.metadataStore = s.metadataStore.swept marked.manifests before := by
        rw [same]
        rfl
      have step : t.metadataStore.Lawful env files (t.metadataStore.deleteManifest id) := by
        rw [tables]
        exact .sweep found there
      apply (kept.safe_update (g := fun m => m.deleteManifest id) step
        ((MetadataStore.needed_deleteManifest id).trans kept.needed)).mono ?_ fun _ crash => crash
      intro r u ⟨kept', outcome⟩
      rcases outcome with ⟨rfl, last⟩ | ⟨⟨e, rfl⟩, rfl⟩
      · rw [thenSafe_ok, safe_pure]
        refine ⟨kept', ?_, ?_⟩
        · rw [MetadataStore.swept_append_of_not_mem there, ← tables, last, same]
          rfl
        · simp [there, counted]
      · exact ⟨⟨_, same, kept'⟩, fun _ failed => nomatch failed⟩
  · intro count t ⟨kept, same, counted⟩
    refine ⟨⟨_, same, kept⟩, fun count' ok => ⟨same, ?_⟩⟩
    rw [← Except.ok.inj ok]
    exact counted

/-- A collection leaves the manifests and the chunks that were reached. -/
theorem gc (only : f.OnlyMetadata) (h : Upheld env files m H K s) :
    Safe (engineMachine f)
      (fun r t => t.wal = s.wal ∧ (∃ H' K', Upheld env files m H' K' t) ∧ ∀ stats, r = .ok stats →
        ∃ marked, GcDid env s.metadataStore t.metadataStore marked ∧
          Upheld env files m {c | c ∈ H ∧ c ∈ marked.chunks} {c | c ∈ H ∧ c ∈ marked.chunks} t ∧
          stats.manifestsReclaimed = (s.metadataStore.listAllManifestIds.filter
            fun id => id ∉ marked.manifests).length ∧
          ((∀ c ∈ H, c ∈ marked.chunks) → stats.chunksReclaimed = 0))
      (Spares env files m) (StorageEngine.gc env) s := by
  unfold StorageEngine.gc
  rw [safe_bind]
  apply safe_query
  · cases found : mark env s.metadataStore with
    | error e => exact ⟨rfl, ⟨H, K, h⟩, fun _ failed => nomatch failed⟩
    | ok marked =>
      rw [thenSafe_ok]
      unfold sweep
      rw [safe_bind]
      apply safe_query
      · rw [thenSafe_ok, safe_bind]
        apply (h.sweepManifests found _).mono ?_ fun _ crash => crash
        intro r t ⟨⟨n, same, kept⟩, did⟩
        have log : t.wal = s.wal := by rw [same]; rfl
        cases r with
        | error e => exact ⟨log, ⟨H, K, kept⟩, fun _ failed => nomatch failed⟩
        | ok count =>
          obtain ⟨swept, counted⟩ := did count rfl
          have tables : t.metadataStore =
              s.metadataStore.swept marked.manifests s.metadataStore.listAllManifestIds := by
            rw [swept]
            rfl
          have needed : t.metadataStore.needed env ⊆ {c | c ∈ K ∧ decide (c ∈ marked.chunks) = true} := by
            intro c hc
            refine ⟨kept.needed hc, decide_eq_true ?_⟩
            rw [tables] at hc
            exact MetadataStore.needed_swept_all found hc
          have fits (c : ChunkId) (_ : c ∈ H) (_ : decide (c ∈ marked.chunks) = true) (d : Bytes)
              (known : piecesOf env files c d) : Fits env d :=
            fits_piecesOf known
          have compacts := kept.holds.compactAndReclaim only.segment kept.clean fits
          rw [thenSafe_ok, safe_bind]
          apply kept.safe_segments needed compacts
          intro r g ⟨reclaimed, ok, nothing, holds, clean⟩
          have needed' : t.metadataStore.needed env ⊆
              {c | c ∈ H ∧ decide (c ∈ marked.chunks) = true} :=
            fun c hc => ⟨kept.holds.le (needed hc).1, (needed hc).2⟩
          have kept' := kept.withSegments clean holds needed'
          simp only [decide_eq_true_eq] at kept'
          rw [ok, thenSafe_ok, safe_bind]
          apply StorageEngine.safe_segments
          rw [Proc.safe_load]
          refine ⟨log, ⟨_, _, kept'⟩, fun stats done => ⟨marked, ⟨found, tables⟩, kept', ?_⟩⟩
          · cases done
            exact ⟨counted, fun all => nothing fun c hc => decide_eq_true (all c hc)⟩
      · exact fun _ => ⟨rfl, ⟨H, K, h⟩, fun _ failed => nomatch failed⟩
  · exact fun _ => ⟨rfl, ⟨H, K, h⟩, fun _ failed => nomatch failed⟩

end Upheld

/-! ## Recovery -/

namespace Upheld

/-- The chunks that a record names are looked for. -/
theorem requireChunks (h : Upheld env files m H K s) (ids : List ChunkId) :
    Safe (engineMachine f) (fun r t => t = s ∧ (r = .ok () → ∀ c ∈ ids, c ∈ H)) (Spares env files m)
      (Prog.forEach (fun _ id => requireChunk id) () ids) s := by
  apply safe_forEach fun before _ _ t => t = s ∧ ∀ c ∈ before, c ∈ H
  · exact ⟨rfl, fun _ absent => absurd absent List.not_mem_nil⟩
  · intro before id rest _ t _ ⟨same, there⟩
    subst same
    unfold requireChunk
    rw [safe_bind]
    apply StorageEngine.safe_segments
    unfold SegmentStore.hasChunk
    rw [safe_bind, Proc.safe_load, thenSafe_ok]
    apply safe_when
    · intro _
      exact ⟨rfl, fun failed => nomatch failed⟩
    · intro found
      refine ⟨rfl, fun c hc => ?_⟩
      rcases List.mem_append.1 hc with hc | hc
      · exact there c hc
      · rw [List.mem_singleton.1 hc]
        exact (h.holds.contains_iff id).1 (by simpa using found)
  · exact fun _ t ⟨same, there⟩ => ⟨same, fun _ => there⟩

/-- A put of the log, again: it is done, or the engine is as it was but for some of its transactions. -/
theorem replayPut (only : f.OnlyMetadata) (h : Upheld env files m H K s) {put : WalPutPayload}
    (alone : put.chunks = []) (original : ManifestOf env files put.manifest) :
    Safe (engineMachine f)
      (fun r t => (∃ H' K', Upheld env files m H' K' t) ∧ t.wal = s.wal ∧ (r = .ok () →
        (∀ c ∈ put.manifest.chunks, c ∈ H) ∧
        s.metadataStore.applyPut env put none = (.ok (), t.metadataStore)))
      (Spares env files m) (replayPut env put) s := by
  unfold StorageEngine.replayPut
  rw [alone, safe_bind]
  show Safe _ _ _ (Pure.pure ()) s
  rw [safe_pure, thenSafe_ok, safe_bind]
  apply h.safe_segments h.needed (h.holds.sync only.tidy h.clean.quiet)
  intro r g ⟨ok, holds, old⟩
  have synced : Upheld env files m H H (s.withSegments g) :=
    h.withSegments (h.clean.congr old) holds (h.needed.trans h.holds.le)
  rw [ok, thenSafe_ok, safe_bind]
  apply (synced.requireChunks put.manifest.chunks).mono ?_ fun _ crash => crash
  intro r t ⟨same, there⟩
  subst same
  cases r with
  | error e => exact ⟨⟨H, H, synced⟩, rfl, fun failed => nomatch failed⟩
  | ok _ =>
    have chunks := there rfl
    rw [thenSafe_ok]
    apply (synced.storePut original chunks).mono ?_ fun _ crash => crash
    intro r t ⟨kept, n, same, did⟩
    subst same
    exact ⟨⟨H, H, kept⟩, rfl, fun ok => ⟨chunks, did ok⟩⟩

end Upheld

namespace Serving

/-- Recovery, of a log that was opened. -/
theorem recover (only : f.OnlyMetadata) (h : Serving env files m s) :
    Safe (engineMachine f) (fun _ t => Serving env files m t) (Spares env files m) (recover env) s := by
  obtain ⟨⟨H, K, kept⟩, frames, lists⟩ := h
  unfold StorageEngine.recover
  rw [safe_bind]
  apply kept.safe_log ((lists.read only.wal).mono (fun _ _ h => h) fun _ never => never.elim)
  intro r w ⟨same, found⟩
  subst same
  have running : Serving env files m s := ⟨⟨H, K, kept⟩, frames, lists⟩
  rw [found, thenSafe_ok]
  apply safe_when
  · intro _
    rw [safe_bind]
    apply StorageEngine.safe_log
    rw [Proc.safe_load, thenSafe_ok, safe_bind]
    apply safe_forEach fun _ _ _ t => (∃ H K, Upheld env files m H K t) ∧ t.wal = s.wal
    · exact ⟨⟨H, K, kept⟩, rfl⟩
    · intro before record rest maxLsn t split ⟨⟨H', K', kept'⟩, log⟩
      have listed : record ∈ frames.map Prod.snd := by
        apply List.mem_of_mem_filter (p := fun record => s.wal.mem.checkpointLsn < record.lsn)
        rw [← split]
        exact List.mem_append_right _ List.mem_cons_self
      obtain ⟨frame, there, rfl⟩ := List.mem_map.1 listed
      obtain ⟨put, payload, alone, original⟩ := lists.good.each frame there
      unfold replayRecord
      rw [payload, safe_bind]
      apply (kept'.replayPut only alone original).mono ?_ fun _ crash => crash
      intro r u ⟨kept'', log', _⟩
      cases r with
      | error e =>
        obtain ⟨H'', K'', kept''⟩ := kept''
        exact ⟨⟨H'', K'', kept''⟩, frames, log' ▸ log ▸ lists⟩
      | ok _ => exact ⟨kept'', log'.trans log⟩
    · intro maxLsn t ⟨⟨H', K', kept'⟩, log⟩
      apply kept'.safe_log ((log ▸ lists).checkpoint only.wal maxLsn)
      intro r w ⟨_, _, _, lists'⟩
      exact ⟨⟨H', K', kept'.withWal lists'.intact⟩, _, lists'⟩
  · exact fun _ => running

end Serving

namespace Remains

variable {d : Disk}

/-- Opening what is left of a store. -/
theorem openInternal (only : f.OnlyMetadata) (h : Remains env files m d) (starts : s.Starts d) :
    Safe (engineMachine f)
      (fun r t => Remains env files m t.disk ∧ (r = .ok () → Serving env files m t))
      (Spares env files m) (openInternal env) s := by
  obtain ⟨segments, wal, tables⟩ := starts
  have log : Wal.Intact env (StoresFile env files) s.wal.fs := wal ▸ h.log
  have changes : ReflTransGen (MetadataStore.Lawful env files) m s.metadataStore := tables ▸ h.changes
  have left {t : StorageEngine} {g : SegState} (same : t = s.withSegments g)
      (stuck : ∃ p f, Stuck p f g.fs) : Remains env files m t.disk := by
    subst same
    exact ⟨.inl stuck, log, changes⟩
  unfold StorageEngine.openInternal
  rw [safe_bind]
  have stuckOpen (stuck : ∃ p f, Stuck p f s.segmentStore.fs) : Safe (engineMachine f)
      (fun r t => (∃ e, r = .error e) ∧ Remains env files m t.disk) (Spares env files m)
      (StorageEngine.segments (SegmentStore.openStore env 0)) s := by
    obtain ⟨p, g, stuck⟩ := stuck
    apply StorageEngine.safe_segments
    apply (stuck.openStore only.segment 0).mono
    · intro r t ⟨failed, stuck'⟩
      exact ⟨failed, left rfl ⟨p, g, stuck'⟩⟩
    · intro t stuck' d' cut
      exact (left rfl ⟨p, g, stuck'⟩).powerCut cut
  have failed (stuck : ∃ p f, Stuck p f s.segmentStore.fs) : Safe (engineMachine f)
      (thenSafe (engineMachine f)
        (fun r t => Remains env files m t.disk ∧ (r = .ok () → Serving env files m t))
        (Spares env files m) fun _ => do
          StorageEngine.log (Wal.openWithVault env)
          StorageEngine.recover env) (Spares env files m)
      (StorageEngine.segments (SegmentStore.openStore env 0)) s := by
    apply (stuckOpen stuck).mono ?_ fun _ crash => crash
    intro r t ⟨⟨e, error⟩, remains⟩
    subst error
    exact ⟨remains, fun failed => nomatch failed⟩
  rcases segments ▸ h.segments with stuck | ⟨forward, recoverable⟩
  · exact failed stuck
  by_cases dead : Dead s.segmentStore.fs
  · exact failed (Stuck.of_dead dead forward (recoverable.quiet_of_dead dead))
  rw [← tables] at recoverable
  apply StorageEngine.safe_segments
  apply (Recoverable.openStore only.tidy recoverable forward dead 0).mono
  · intro r g ⟨ok, ⟨H, holds⟩, _, clean⟩
    have kept : Upheld env files m H (s.metadataStore.needed env) (s.withSegments g) :=
      ⟨clean only.segment, holds, subset_rfl, log, changes⟩
    rw [ok, thenSafe_ok, safe_bind]
    apply kept.safe_log (log.openWithVault only.wal)
    intro r w ⟨ok, _, frames, lists⟩
    have running : Serving env files m ((s.withSegments g).withWal w) :=
      ⟨⟨H, _, kept.withWal lists.intact⟩, frames, lists⟩
    rw [ok, thenSafe_ok]
    apply (running.recover only).mono ?_ fun _ crash => crash
    intro r t running'
    obtain ⟨H', K', kept'⟩ := running'.1
    exact ⟨kept'.remains, fun _ => running'⟩
  · intro g crash d' cut
    obtain ⟨segments', wal', tables'⟩ := cut
    have safe := crash.quiet (.inl (.inr only.segment))
    have tables' : d'.tables = s.metadataStore := tables'
    constructor
    · right
      rw [tables']
      exact ⟨.powerCut segments', safe _ segments'⟩
    · exact log.powerCut wal'
    · rw [tables']
      exact changes

end Remains

/-! ## Runs -/

variable (env) in
/-- What a run leaves of a new store. -/
def Endures (run : EngineRun) : Prop :=
  match run.phase with
  | .running s => Serving env run.history.files .empty s
  | .down d => Remains env run.history.files .empty d

-- otherwise the elaborator runs the program as far as it can
attribute [local irreducible] StorageEngine.putFileNamed

theorem Serving.put (only : f.OnlyMetadata) (h : Serving env files m s) {name : String}
    {file : SourceFile} (known : ∀ i, (file.readings i).content ∈ files) (generated : ObjectId) :
    Safe (engineMachine f) (fun _ t => Serving env files m t) (Spares env files m)
      ((EngineCall.put name file generated).run env) s := by
  show Safe _ _ _ (StorageEngine.putFileNamed env name file generated >>= fun _ => pure ()) s
  rw [safe_bind]
  have puts := @putFileNamed _ _ _ _ _ only h name file known generated
  refine puts.mono ?_ fun _ crash => crash
  intro r t done
  cases r with
  | ok _ => exact done.1
  | error e => exact done.1

theorem Serving.run (only : f.OnlyMetadata) (h : Serving env files m s) {call : EngineCall}
    (known : call.files ⊆ files) :
    Safe (engineMachine f) (fun _ t => Serving env files m t) (Spares env files m) (call.run env) s := by
  rcases call.onlyEdits_or with edits | ⟨name, file, generated, rfl⟩ | rfl
  · exact h.call edits
  · have readings (i : Nat) : (file.readings i).content ∈ files := known ⟨i, rfl⟩
    unfold EngineCall.run
    rw [safe_bind]
    apply (h.putFileNamed only readings generated).mono ?_ fun _ crash => crash
    intro r t done
    cases r with
    | ok _ => exact done.1
    | error e => exact done.1
  · obtain ⟨⟨H, K, kept⟩, frames, lists⟩ := h
    have serving {t : StorageEngine} (log : t.wal = s.wal)
        (kept' : ∃ H' K', Upheld env files m H' K' t) : Serving env files m t :=
      ⟨kept', frames, log ▸ lists⟩
    unfold EngineCall.run
    rw [safe_bind]
    apply (kept.gc only).mono ?_ fun _ crash => crash
    intro r t ⟨log, kept', _⟩
    cases r with
    | ok _ => exact serving log kept'
    | error e => exact serving log kept'

theorem Remains.new : Remains env files .empty .new := by
  obtain ⟨-, forward, recoverable⟩ := (@StoreInv.start env).down _ rfl
  have unneeded : MetadataStore.empty.needed env ⊆ (⟨∅, ∅, ∅⟩ : History).durable env := by
    intro c ⟨id, manifest, found, _⟩
    rw [MetadataStore.getManifest_of_none (by simp [MetadataStore.empty])] at found
    cases found
  refine ⟨.inr ⟨forward, recoverable.mono fun L keeps => ?_⟩, ?_, .refl⟩
  · exact (keeps.mono unneeded).known fun c d known => absurd known.1 (Set.notMem_empty d)
  · intro log there
    simp [Disk.new, Fs.file] at there

theorem Endures.step {run run' : EngineRun} {act : EngineAct} (h : Endures env run)
    (only : act.faults.OnlyMetadata) (step : EngineStep env run act run') : Endures env run' := by
  obtain ⟨phase, g⟩ := run
  cases step with
  | mk step =>
    have grown : g.files ⊆ (g.next act phase).files := Set.subset_union_left
    cases step with
    | opened starts returned =>
      exact ((Remains.mono h grown).openInternal only starts).returns returned |>.2 rfl
    | openFailed starts returned =>
      exact ((Remains.mono h grown).openInternal only starts).returns returned |>.1
    | openCrashed starts crashed cut =>
      exact ((Remains.mono h grown).openInternal only starts).crashes crashed _ cut
    | returned returned =>
      exact ((Serving.mono h grown).run only Set.subset_union_right).returns returned
    | crashed crashed cut =>
      exact ((Serving.mono h grown).run only Set.subset_union_right).crashes crashed _ cut
    | powerCut cut =>
      obtain ⟨⟨H, K, kept⟩, -⟩ := Serving.mono h grown
      exact kept.spares _ cut
    | downCut cut => exact (Remains.mono h grown).powerCut cut
    | closed =>
      obtain ⟨⟨H, K, kept⟩, -⟩ := Serving.mono h grown
      exact kept.remains

/-- In every run in which nothing fails but transactions, an open store has all that its manifests
need, and so has what a stopped process leaves, unless it never opens again. -/
theorem EngineReachable.endures {allowed : EngineRun → EngineAct → Prop}
    (only : ∀ run act, allowed run act → act.faults.OnlyMetadata) {run : EngineRun}
    (h : EngineReachable env allowed run) : Endures env run := by
  induction h with
  | start => exact .new
  | step _ step all ih => exact ih.step (only _ _ all) step

end OosLite
