import OosLite.Engine.Proofs.SegmentInvariants
import OosLite.Segment.Proofs.Lengths

/-!
# The lengths that the engine's index tells

In every run in which nothing fails but transactions, the index of an open store has the length of
every chunk.
-/

namespace OosLite

open Files Effect

variable {env : Env} {files : Set Bytes} {faulty : FsOp SegPath → Prop} {V : Known}

/-- A chunk that may be stored under its identifier. -/
def KnownChunk (env : Env) (V : Known) (d : Bytes) : Prop := Fits env d ∧ V (ChunkId.fromData env d) d

theorem knownChunk_of_mem {file d : Bytes} (known : file ∈ files) (hd : d ∈ chunksOf env file) :
    KnownChunk env (piecesOf env files) d :=
  ⟨fits_chunksOf hd, ⟨_, known, hd⟩, rfl⟩

/-- The segments stay those of known chunks. -/
theorem segmentSteps_makes (sound : ∀ o, ¬ faulty o) :
    SegmentSteps env faulty (Makes env V) (LeavesMade env V) (KnownChunk env V) where
  leaves h := h.leaves
  cut h cut := h.powerCut cut
  putChunk _ known g hg := (hg.putChunk (fun o ho => absurd ho (sound o)) known.1 known.2).mono
    (fun _ _ made => made.1) fun _ left _ => .of_crashSafe left
  sync g hg := (hg.sync fun o ho => absurd ho (sound o)).mono (fun _ _ made => made.1)
    fun _ left _ => .of_crashSafe left
  compactAndReclaim reachable g hg := (hg.compactAndReclaim sound reachable).mono
    (fun _ _ made => made.2) fun _ left _ => .of_crashSafe left
  openStore h := by
    apply (h.openStore sound 0).mono ?_ fun _ left => left
    rintro r g (⟨rfl, made⟩ | ⟨⟨e, rfl⟩, left⟩)
    · exact ⟨made.leaves, fun _ => made⟩
    · exact ⟨left, fun failed => by cases failed⟩

variable (env) in
/-- The segments of a run are of the chunks of files that were read. -/
def EngineRun.OfFiles (run : EngineRun) : Prop :=
  run.phase.HasSegments (Makes env (piecesOf env run.history.files))
    (LeavesMade env (piecesOf env run.history.files))

theorem EngineRun.OfFiles.step {run run' : EngineRun} {act : EngineAct} (h : run.OfFiles env)
    (endures : Endures env run) (only : act.faults.OnlyMetadata) (step : EngineStep env run act run') :
    run'.OfFiles env := by
  have le := @piecesOf_mono env _ _ step.files_subset
  exact (segmentSteps_makes only.segment).step only (fun _ there _ piece => knownChunk_of_mem there piece)
    (fun _ made => made.mono le) (fun _ made => made.mono le) h endures step

/-- In every run in which nothing fails but transactions. -/
theorem EngineReachable.ofFiles {allowed : EngineRun → EngineAct → Prop}
    (only : ∀ run act, allowed run act → act.faults.OnlyMetadata) {run : EngineRun}
    (h : EngineReachable env allowed run) : run.OfFiles env := by
  induction h with
  | start => exact .new
  | step before step all ih => exact ih.step (before.endures only) (only _ _ all) step

end OosLite
