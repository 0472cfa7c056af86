import OosLite.Engine.Proofs.Reads

/-!
# Invariants of the segments

What the programs of the segment store keep, the engine keeps: in puts, collections and recovery, and
over whole runs in which nothing fails but transactions.
-/

namespace OosLite

open Files Effect Relation StorageEngine

variable {env : Env} {files : Set Bytes} {f : Faults} {s : StorageEngine} {V : Known}

/-! ## Storing -/

/-- An invariant of every step of a put that stores known chunks. -/
structure PutSteps (env : Env) (f : Faults) (I C : StorageEngine → Prop) (known : Bytes → Prop) :
    Prop where
  query : ∀ {α : Type} (q : MetadataStore → Result α), Upholds (engineMachine f) I C (query q)
  now : Upholds (engineMachine f) I C now
  log : ∀ {α : Type} (p : WalProg α), Upholds (engineMachine f) I C (log p)
  saveManifest : ∀ manifest, Upholds (engineMachine f) I C
    (update fun m => (m.saveManifest env manifest).2)
  putObject : ∀ r : ObjectRecord, Upholds (engineMachine f) I C (update fun m => m.putObject r)
  bindName : ∀ name id, Upholds (engineMachine f) I C (update fun m => m.bindName name id)
  putChunk : ∀ d, known d → Upholds (engineMachine f) I C (segments (SegmentStore.putChunk env d))
  sync : Upholds (engineMachine f) I C (segments SegmentStore.sync)

namespace PutSteps

variable {I C : StorageEngine → Prop} {known : Bytes → Prop} (steps : PutSteps env f I C known)

include steps

theorem storePut (put : WalPutPayload) : Upholds (engineMachine f) I C (storePut env put) := by
  apply Upholds.bind (steps.saveManifest _)
  intro _
  apply Upholds.bind
  · apply Upholds.bind (steps.query _)
    exact fun found => Upholds.when (steps.putObject _)
  · exact fun _ => steps.bindName _ _

theorem putChunks {chunks : List Bytes} (all : ∀ d ∈ chunks, known d) :
    Upholds (engineMachine f) I C (putChunks env chunks) := by
  apply Upholds.forEach
  intro count d hd
  exact Upholds.bind (steps.putChunk d (all d hd)) fun _ => Upholds.pure _

theorem stableRead {readings : List Reading} (all : ∀ r ∈ readings, ∀ d ∈ r.chunks env, known d) :
    Upholds (engineMachine f) I C (stableRead env readings) := by
  induction readings with
  | nil => exact Upholds.throw _
  | cons r rest ih =>
    apply Upholds.bind
    · apply Upholds.bind (steps.putChunks (all r List.mem_cons_self))
      intro newChunks
      cases r.failure with
      | none => exact Upholds.pure _
      | some failed => exact Upholds.throw _
    · intro newChunks
      split
      · exact Upholds.pure _
      · exact ih fun r' hr => all r' (List.mem_cons_of_mem _ hr)

theorem putFileNamed (name : String) {file : SourceFile}
    (all : ∀ i, ∀ d ∈ (file.readings i).chunks env, known d) (generated : ObjectId) :
    Upholds (engineMachine f) I C (putFileNamed env name file generated) := by
  unfold StorageEngine.putFileNamed
  extract_lets name
  generalize validateLogicalName name = valid
  apply Upholds.bind (.ofExcept valid)
  intro _
  split
  · exact Upholds.throw _
  · apply Upholds.bind
    · apply steps.stableRead
      intro r hr
      obtain ⟨i, -, rfl⟩ := List.mem_map.1 hr
      exact all i
    · intro read
      apply Upholds.bind steps.sync
      intro _
      apply Upholds.bind steps.now
      intro createdAt
      apply Upholds.bind (steps.query _)
      intro target
      apply Upholds.bind (steps.log _)
      intro lsn
      apply Upholds.bind (steps.storePut _)
      intro _
      apply Upholds.bind (steps.log _)
      exact fun _ => Upholds.pure _

end PutSteps

/-- A pass over a file puts chunks of what it reads. -/
theorem Reading.mem_chunksOf {r : Reading} {d : Bytes} (hd : d ∈ r.chunks env) :
    d ∈ chunksOf env r.content := by
  unfold Reading.chunks at hd
  split at hd
  · exact hd
  · exact List.mem_of_mem_take hd

/-! ## The segments -/

/-- Whatever a power cut leaves of the files now has a property. -/
def CutsTo (L : Fs SegPath → Prop) (g : SegState) : Prop := ∀ fs, g.fs.PowerCut fs → L fs

/-- An invariant of a running segment store, and what a stopped process leaves of one. -/
structure SegmentSteps (env : Env) (faulty : FsOp SegPath → Prop) (J : SegState → Prop)
    (L : Fs SegPath → Prop) (known : Bytes → Prop) : Prop where
  leaves : ∀ {g}, J g → L g.fs
  cut : ∀ {fs fs'}, L fs → fs.PowerCut fs' → L fs'
  putChunk : ∀ d, known d → Upholds (segMachine faulty) J (CutsTo L) (SegmentStore.putChunk env d)
  sync : Upholds (segMachine faulty) J (CutsTo L) SegmentStore.sync
  compactAndReclaim : ∀ reachable : ChunkId → Bool,
    Upholds (segMachine faulty) J (CutsTo L) (SegmentStore.compactAndReclaim env reachable)
  openStore : ∀ {g}, L g.fs → Safe (segMachine faulty)
    (fun r g' => L g'.fs ∧ (r = .ok () → J g')) (CutsTo L) (SegmentStore.openStore env 0) g

/-- Whatever a power cut leaves of an engine, its segments have a property. -/
def SparesSegments (L : Fs SegPath → Prop) (s : StorageEngine) : Prop :=
  ∀ d, s.disk.PowerCut d → L d.segments

namespace SegmentSteps

variable {J : SegState → Prop} {L : Fs SegPath → Prop} {known : Bytes → Prop}
  (steps : SegmentSteps env f.segment J L known) {α : Type}

include steps

theorem spares (h : J s.segmentStore) : SparesSegments L s :=
  fun _ cut => steps.cut (steps.leaves h) cut.segments

omit steps in
theorem query (q : MetadataStore → Result α) : Upholds (engineMachine f)
    (fun s => J s.segmentStore) (SparesSegments L) (query q) :=
  fun _ ht => safe_query ht fun _ => ht

theorem update (g : MetadataStore → MetadataStore) : Upholds (engineMachine f)
    (fun s => J s.segmentStore) (SparesSegments L) (update g) := by
  intro t ht
  have after : SparesSegments L (t.withTables (g t.metadataStore)) :=
    steps.spares (s := t.withTables (g t.metadataStore)) ht
  exact safe_update (steps.spares ht) after ht fun _ => ht

theorem log (p : WalProg α) : Upholds (engineMachine f) (fun s => J s.segmentStore)
    (SparesSegments L) (log p) := by
  intro t ht
  apply safe_log
  exact (safe_trivial p t.wal).mono (fun _ _ _ => ht) fun _ _ => steps.spares ht

omit steps in
theorem segments {p : SegProg α} (h : Upholds (segMachine f.segment) J (CutsTo L) p) :
    Upholds (engineMachine f) (fun s => J s.segmentStore) (SparesSegments L)
      (StorageEngine.segments p) := by
  intro t ht
  apply safe_segments
  apply (h t.segmentStore ht).mono (fun _ _ kept => kept)
  exact fun g left d cut => left _ cut.segments

omit steps in
/-- A program of the segment store that only looks at its memory. -/
theorem hasChunk (id : ChunkId) : Upholds (engineMachine f) (fun s => J s.segmentStore)
    (SparesSegments L) (StorageEngine.segments (SegmentStore.hasChunk id)) := by
  apply segments
  intro g hg
  unfold SegmentStore.hasChunk
  rw [safe_bind, Proc.safe_load, thenSafe_ok, safe_pure]
  exact hg

theorem putSteps : PutSteps env f (fun s => J s.segmentStore) (SparesSegments L) known where
  query q := query q
  now _ ht := safe_now fun _ => ht
  log p := steps.log p
  saveManifest _ := steps.update _
  putObject _ := steps.update _
  bindName _ _ := steps.update _
  putChunk d hd := segments (steps.putChunk d hd)
  sync := segments steps.sync

/-! ## Collecting -/

theorem gc : Upholds (engineMachine f) (fun s => J s.segmentStore) (SparesSegments L)
    (StorageEngine.gc env) := by
  apply Upholds.bind (query _)
  intro marked
  apply Upholds.bind (query _)
  intro ids
  apply Upholds.bind
  · apply Upholds.forEach
    intro count id _
    split
    · exact Upholds.pure _
    · exact Upholds.bind (steps.update _) fun _ => Upholds.pure _
  · intro manifestsReclaimed
    apply Upholds.bind (segments (steps.compactAndReclaim _))
    intro chunksReclaimed
    apply Upholds.bind (segments fun g hg => ?_) fun _ => Upholds.pure _
    rw [Proc.safe_load]
    exact hg

/-! ## Recovery -/

theorem replayPut {put : WalPutPayload} (alone : put.chunks = []) : Upholds (engineMachine f)
    (fun s => J s.segmentStore) (SparesSegments L) (replayPut env put) := by
  unfold StorageEngine.replayPut
  rw [alone]
  apply Upholds.bind (Upholds.pure _)
  intro _
  apply Upholds.bind steps.putSteps.sync
  intro _
  apply Upholds.bind
  · apply Upholds.forEach
    intro _ id _
    exact Upholds.bind (hasChunk id) fun _ => Upholds.when (Upholds.throw _)
  · exact fun _ => steps.putSteps.storePut put

-- otherwise the elaborator runs the program as far as it can
attribute [local irreducible] StorageEngine.putFileNamed

/-- Recovery, of a log that was opened. -/
theorem recover (only : f.OnlyMetadata) (h : J s.segmentStore)
    {frames : List (Bytes × WalRecord)} (lists : Wal.Lists env (StoresFile env files) frames s.wal) :
    Safe (engineMachine f) (fun _ t => J t.segmentStore) (SparesSegments L) (recover env) s := by
  unfold StorageEngine.recover
  rw [safe_bind]
  apply StorageEngine.safe_log
  apply (lists.read only.wal).mono ?_ fun _ never => never.elim
  rintro r w ⟨same, found⟩
  subst same
  rw [found, thenSafe_ok]
  apply safe_when
  · intro _
    rw [safe_bind]
    apply StorageEngine.safe_log
    rw [Proc.safe_load, thenSafe_ok, safe_bind]
    apply safe_forEach fun _ _ _ t => J t.segmentStore
    · exact h
    · intro before record rest maxLsn t split kept
      have listed : record ∈ frames.map Prod.snd := by
        apply List.mem_of_mem_filter (p := fun record => s.wal.mem.checkpointLsn < record.lsn)
        rw [← split]
        exact List.mem_append_right _ List.mem_cons_self
      obtain ⟨frame, there, rfl⟩ := List.mem_map.1 listed
      obtain ⟨put, payload, alone, -⟩ := lists.good.each frame there
      unfold replayRecord
      rw [payload, safe_bind]
      apply (steps.replayPut alone t kept).mono ?_ fun _ left => left
      intro r u kept'
      cases r with
      | error e => exact kept'
      | ok _ => exact kept'
    · exact fun maxLsn t kept => steps.log _ t kept
  · exact fun _ => h

/-- Opening what is left of a store. -/
theorem openInternal (only : f.OnlyMetadata) {d : Disk} (h : L d.segments)
    (intact : Wal.Intact env (StoresFile env files) d.wal) (starts : s.Starts d) :
    Safe (engineMachine f)
      (fun r t => L t.segmentStore.fs ∧ (r = .ok () → J t.segmentStore))
      (SparesSegments L) (openInternal env) s := by
  obtain ⟨segments, wal, -⟩ := starts
  rw [← segments] at h
  unfold StorageEngine.openInternal
  rw [safe_bind]
  apply StorageEngine.safe_segments
  apply (steps.openStore h).mono
  · rintro r g ⟨left, opened⟩
    cases r with
    | error e => exact ⟨left, fun failed => by cases failed⟩
    | ok _ =>
      have kept : J g := opened rfl
      rw [thenSafe_ok, safe_bind]
      apply StorageEngine.safe_log
      have intact' : Wal.Intact env (StoresFile env files) (s.withSegments g).wal.fs := wal ▸ intact
      apply (intact'.openWithVault only.wal).mono
      · rintro r w ⟨ok, _, frames, lists⟩
        rw [ok, thenSafe_ok]
        apply (steps.recover (s := (s.withSegments g).withWal w) only kept lists).mono ?_
          fun _ left => left
        exact fun r t kept' => ⟨steps.leaves kept', fun _ => kept'⟩
      · exact fun w _ => steps.spares (s := (s.withSegments g).withWal w) kept
  · exact fun g left d cut => left _ cut.segments

/-! ## Runs -/

theorem run (h : J s.segmentStore) {call : EngineCall}
    (all : ∀ file ∈ call.files, ∀ d ∈ chunksOf env file, known d) :
    Safe (engineMachine f) (fun _ t => J t.segmentStore) (SparesSegments L) (call.run env) s := by
  rcases call.onlyEdits_or with edits | ⟨name, file, generated, rfl⟩ | rfl
  · have same {t : StorageEngine} (edited : s.Edited (call.Edits env) t) : J t.segmentStore := by
      obtain ⟨n, rfl, -⟩ := edited
      exact h
    exact (safe_call edits).mono (fun _ _ edited => same edited)
      fun _ edited => steps.spares (same edited)
  · have puts : Upholds (engineMachine f) (fun s => J s.segmentStore) (SparesSegments L)
        (putFileNamed env name file generated) := by
      apply steps.putSteps.putFileNamed name
      exact fun i d hd => all _ ⟨i, rfl⟩ d (Reading.mem_chunksOf hd)
    show Safe _ _ _ (putFileNamed env name file generated >>= fun _ => pure ()) s
    exact (Upholds.bind puts fun _ => Upholds.pure _) s h
  · exact (Upholds.bind steps.gc fun _ => Upholds.pure _) s h

end SegmentSteps

/-- The segments of a phase: of a running store, or those that a stopped process has left. -/
def EnginePhase.HasSegments (J : SegState → Prop) (L : Fs SegPath → Prop) : EnginePhase → Prop
  | .running s => J s.segmentStore
  | .down d => L d.segments

theorem EngineStep.files_subset {run run' : EngineRun} {act : EngineAct}
    (step : EngineStep env run act run') : run.history.files ⊆ run'.history.files := by
  cases step with
  | mk step => exact Set.subset_union_left

/-- One step of a run, whatever has to be known of the files that are read. -/
theorem SegmentSteps.step {J J' : SegState → Prop} {L L' : Fs SegPath → Prop} {run run' : EngineRun}
    {act : EngineAct} {known : Bytes → Prop}
    (steps : SegmentSteps env act.faults.segment J' L' known) (only : act.faults.OnlyMetadata)
    (all : ∀ file ∈ run'.history.files, ∀ d ∈ chunksOf env file, known d)
    (running : ∀ g, J g → J' g) (down : ∀ fs, L fs → L' fs) (h : run.phase.HasSegments J L)
    (endures : Endures env run) (step : EngineStep env run act run') :
    run'.phase.HasSegments J' L' := by
  obtain ⟨phase, g⟩ := run
  cases step with
  | mk step =>
    cases step with
    | opened starts returned =>
      exact (steps.openInternal only (down _ h) endures.log starts).returns returned |>.2 rfl
    | openFailed starts returned =>
      exact (steps.openInternal only (down _ h) endures.log starts).returns returned |>.1
    | openCrashed starts crashed cut =>
      exact (steps.openInternal only (down _ h) endures.log starts).crashes crashed _ cut
    | returned returned =>
      have known (file : Bytes) (there : file ∈ _) := all file (Set.mem_union_right _ there)
      exact (steps.run (running _ h) known).returns returned
    | crashed crashed cut =>
      have known (file : Bytes) (there : file ∈ _) := all file (Set.mem_union_right _ there)
      exact (steps.run (running _ h) known).crashes crashed _ cut
    | powerCut cut => exact steps.cut (steps.leaves (running _ h)) cut.segments
    | downCut cut => exact steps.cut (down _ h) cut.segments
    | closed => exact steps.leaves (running _ h)

end OosLite
