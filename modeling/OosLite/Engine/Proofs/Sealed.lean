import OosLite.Segment.Proofs.BodiesCompaction
import OosLite.Engine.Proofs.Lengths

/-!
# What an engine with one key writes

Records and log entries are written with the key of the environment: by a put, by a collection that
copies what it keeps, by recovery. In every run in which nothing fails but transactions, no file has
anything else.
-/

namespace OosLite

open Files Effect Framing

variable {env : Env} {files : Set Bytes} {faulty : FsOp SegPath → Prop} {V : Known}

/-- The bytes of a record that `append_chunk` writes in a store with this key. -/
def IsChunkRecord (env : Env) (record : Bytes) : Prop :=
  ∃ c data nonce, record = chunkRecordBytes env c data nonce

/-- Such records one after the other, whole or torn. -/
abbrev ChunkRecords (env : Env) : Bytes → Prop := Fronts (IsChunkRecord env)

/-- The stored payload of a chunk, where there is a key: under the cipher, with the header's fields. -/
theorem chunkRecord_encrypted {key : VaultKey} (h : env.vaultKey = some key) (c : ChunkId)
    (data : Bytes) (nonce : Nonce) :
    (chunkRecord env c data nonce).1.encryptionScheme = .xChaCha20Poly1305 ∧
      (chunkRecord env c data nonce).2 = key.encryptChunk env (compress env data).1 nonce
        (chunkRecord env c data nonce).1.aad := by
  unfold chunkRecord finalPayload
  simp only [h]
  exact ⟨rfl, by simp [RecordHeader.aad, RecordHeader.new]⟩

/-- Without a key a chunk is stored as it is, or compressed. -/
theorem chunkRecord_plain (h : env.vaultKey = none) (c : ChunkId) (data : Bytes) (nonce : Nonce) :
    (chunkRecord env c data nonce).1.encryptionScheme = .none ∧
      (chunkRecord env c data nonce).2 = (compress env data).1 := by
  unfold chunkRecord finalPayload
  simp only [h]
  exact ⟨rfl, trivial⟩

/-! ## The segments -/

/-- A running store whose files have only such records. -/
def Seals (env : Env) (V : Known) (g : SegState) : Prop := Running (ChunkRecords env) g ∧ Makes env V g

/-- What a stopped process leaves of one. -/
def LeavesSealed (env : Env) (V : Known) (fs : Fs SegPath) : Prop :=
  Bodies (ChunkRecords env) fs ∧ LeavesMade env V fs

theorem grows_chunkRecord (c : ChunkId) (data : Bytes) (nonce : Nonce) :
    Grows (ChunkRecords env) (chunkRecordBytes env c data nonce) := Fronts.grows ⟨c, data, nonce, rfl⟩

theorem reliable_of_sound (sound : ∀ o, ¬ faulty o) : Reliable faulty :=
  ⟨fun _ _ _ => sound _, fun _ => sound _, fun _ => sound _⟩

theorem Bodies.powerCut {R : Bytes → Prop} (content : Framing.Content R) {fs fs' : Fs SegPath}
    (h : Bodies R fs) (cut : fs.PowerCut fs') : Bodies R fs' :=
  EachFile.powerCut (Body.lasting content) h cut

theorem segmentSteps_seals (sound : ∀ o, ¬ faulty o) :
    SegmentSteps env faulty (Seals env V) (LeavesSealed env V) (KnownChunk env V) := by
  have content := Fronts.content (IsChunkRecord env)
  have reliable := reliable_of_sound sound
  have made := @segmentSteps_makes env faulty V sound
  have left {g : SegState} (h : Bodies (ChunkRecords env) g.fs ∧ CutsTo (LeavesMade env V) g) :
      CutsTo (LeavesSealed env V) g := fun fs cut => ⟨h.1.powerCut content cut, h.2 fs cut⟩
  constructor
  · exact fun h => ⟨h.1.1, h.2.leaves⟩
  · exact fun h cut => ⟨h.1.powerCut content cut, h.2.powerCut cut⟩
  · intro d known g ⟨running, makes⟩
    apply ((upholds_putChunk content reliable d (grows_chunkRecord _ d) g running).and
      (made.putChunk d known g makes)).mono
    · exact fun _ _ h => h
    · exact fun _ => left
  · intro g ⟨running, makes⟩
    apply ((upholds_sync content reliable g running).and (made.sync g makes)).mono
    · exact fun _ _ h => h
    · exact fun _ => left
  · intro reachable g ⟨running, makes⟩
    apply ((safe_compactAndReclaim_body content reliable running grows_chunkRecord reachable).and
      (makes.compactAndReclaim sound reachable)).mono
    · rintro r t ⟨⟨bodies, writes⟩, ⟨count, rfl⟩, makes'⟩
      refine ⟨⟨bodies, writes.resolve_right ?_⟩, makes'⟩
      rintro ⟨e, failed, -⟩
      cases failed
    · rintro t ⟨bodies, crash⟩
      exact left ⟨bodies, fun _ cut => .of_crashSafe crash cut⟩
  · intro g ⟨bodies, leaves⟩
    apply ((safe_openStore_body content reliable bodies 0).and (made.openStore leaves)).mono
    · rintro r t ⟨⟨bodies', writes⟩, leaves', makes⟩
      refine ⟨⟨bodies', leaves'⟩, fun ok => ⟨⟨bodies', ?_⟩, makes ok⟩⟩
      exact (writes ok).le False.elim
    · exact fun _ => left

/-! ## Runs -/

variable (env) in
/-- The segments of a run have only such records. -/
def EngineRun.Seals (run : EngineRun) : Prop :=
  run.phase.HasSegments (OosLite.Seals env (piecesOf env run.history.files))
    (LeavesSealed env (piecesOf env run.history.files))

theorem EngineRun.Seals.step {run run' : EngineRun} {act : EngineAct} (h : run.Seals env)
    (endures : Endures env run) (only : act.faults.OnlyMetadata) (step : EngineStep env run act run') :
    run'.Seals env := by
  have le := @piecesOf_mono env _ _ step.files_subset
  exact (segmentSteps_seals only.segment).step only (fun _ there _ piece => knownChunk_of_mem there piece)
    (fun _ seals => ⟨seals.1, seals.2.mono le⟩) (fun _ left => ⟨left.1, left.2.mono le⟩) h endures step

namespace EnginePhase

/-- The files of a phase, of the segments and of the log. -/
def segments : EnginePhase → Fs SegPath
  | running s => s.segmentStore.fs
  | down d => d.segments

def wal : EnginePhase → Fs WalPath
  | running s => s.wal.fs
  | down d => d.wal

/-- All that lies in the segment files and in the log, as a process sees it and on the medium, was
written with the key of the environment. -/
structure WrittenWith (env : Env) (phase : EnginePhase) : Prop where
  segments : Bodies (ChunkRecords env) phase.segments
  log : Wal.Intact env (fun _ => True) phase.wal

end EnginePhase

theorem EngineRun.Seals.writtenWith {run : EngineRun} (h : run.Seals env) (endures : Endures env run) :
    run.phase.WrittenWith env := by
  obtain ⟨phase, g⟩ := run
  cases phase with
  | running s =>
    obtain ⟨⟨H, K, kept⟩, -⟩ := endures
    exact ⟨h.1.1, kept.log.mono fun _ _ => trivial⟩
  | down d => exact ⟨h.1, endures.log.mono fun _ _ => trivial⟩

end OosLite
