import OosLite.Vfs.Execution
import OosLite.Vfs.Proofs.Ranges

/-!
# Runs of mounted trees

In every run, whatever is stored, collected and read through the tree, and in whatever order the
readers go on: what they returned is correct.
-/

namespace OosLite

open Files Effect Relation

variable {env : Env} {files : Set Bytes} {f : Faults} {m m' : MountedRun} {run run' : EngineRun}
  {act : EngineAct} {s s' : StorageEngine} {c : LruState}

/-- No reader changes the engine. -/
theorem treeMachine_engine {o : TreeOp} {t t' : TreeState} {r : Except OosLiteError o.Res}
    (step : (treeMachine env f).step o t r t') : t'.engine = t.engine := by
  have unchanged {α : Type} {p : EngineProg α} {r : Result α} {w : StorageEngine}
      (reads : Maintains (engineMachine f) (fun s => s = t.engine) p)
      (returned : Returns (engineMachine f) p t.engine r w) : w = t.engine :=
    (reads t.engine rfl).returns returned
  cases o with
  | manifest id =>
    obtain ⟨w, returned, rfl⟩ := step
    exact unchanged (StorageEngine.maintains_query _) returned
  | location id => rw [step.2]
  | chunk id =>
    obtain ⟨w, returned, rfl⟩ := step
    exact unchanged
      (StorageEngine.maintains_segments fun g => StorageEngine.maintains_getChunk env _ id g) returned
  | cached id => rw [step.2]
  | cache id data => rw [step.2]

/-! ## The engine below -/

theorem EngineReachable.agreement (h : EngineReachable env OnlyTransactionsFail run)
    (running : run.phase = .running s) (within : run.history.files ⊆ files)
    (sound : c.Sound (piecesOf env files)) : (agreement env files).inv ⟨s, c⟩ := by
  have endures := h.endures fun _ _ only => only
  have made := h.ofFiles fun _ _ only => only
  unfold Endures at endures
  unfold EngineRun.OfFiles at made
  rw [running] at endures made
  obtain ⟨⟨H, K, kept⟩, -⟩ := endures
  exact ⟨⟨H, K, kept.mono within⟩, made.mono (piecesOf_mono within), sound⟩

/-- A call that readers do not hold up takes nothing from them. -/
theorem EngineStep.agreement_le (step : EngineStep env run act run')
    (reachable : EngineReachable env OnlyTransactionsFail run) (only : act.faults.OnlyMetadata)
    (running : run.phase = .running s) (running' : run'.phase = .running s')
    (shared : ∀ call, act.call? = some call → ¬ call.Exclusive) (c : LruState) :
    (agreement env files).le ⟨s, c⟩ ⟨s', c⟩ := by
  obtain ⟨phase, g⟩ := run
  have made := reachable.ofFiles fun _ _ only => only
  unfold EngineRun.OfFiles at made
  simp only at running
  subst running
  cases step with
  | mk step =>
    cases step with
    | @returned s call faults r t returned =>
      cases running'
      have stays : call ≠ .gc := by
        rintro rfl
        exact shared _ rfl trivial
      have made' : Makes env (piecesOf env (g.files ∪ call.files)) s.segmentStore :=
        Makes.mono made (piecesOf_mono Set.subset_union_left)
      have enlarged := (Enlarged.run only made' Set.subset_union_right stays).returns returned
      exact ⟨enlarged.manifests, enlarged.indexed⟩
    | _ => cases running'

/-! ## The readers -/

/-- A reader that will return what is correct, whatever others do. -/
abbrev RangeReader.Reads (env : Env) (files : Set Bytes) (f : Faults) (reader : RangeReader)
    (s : TreeState) : Prop :=
  ReadsBeside env files f reader.rest (fun r t => RangeAnswer.Correct env files
    ⟨reader.request, reader.began, t.engine.metadataStore, r⟩) s

/-- The invariant of a mounted tree. -/
structure MountedRun.Sound (env : Env) (files : Set Bytes) (f : Faults) (m : MountedRun) : Prop where
  cache : ∀ c, m.cache = some c → c.Sound (piecesOf env files)
  unmounted : m.cache = none → m.readers = []
  stopped : ∀ d, m.run.phase = .down d → m.cache = none
  readers : ∀ s c, m.run.phase = .running s → m.cache = some c →
    ∀ reader ∈ m.readers, reader.Reads env files f ⟨s, c⟩
  answers : ∀ a ∈ m.answers, a.Correct env files

namespace MountedRun.Sound

theorem start : (⟨⟨.down .new, ⟨∅, ∅, ∅⟩⟩, none, [], []⟩ : MountedRun).Sound env files f where
  cache c there := by cases there
  unmounted _ := rfl
  stopped _ _ := rfl
  readers s c running := by cases running
  answers a there := by cases there

/-- The engine goes on. -/
theorem engine (h : m.Sound env files f) (reachable : EngineReachable env OnlyTransactionsFail m.run)
    {g : EngineHistory} (step : EngineStep env m.run act ⟨.running s', g⟩)
    (only : act.faults.OnlyMetadata)
    (exclusive : ∀ call, act.call? = some call → call.Exclusive → m.readers = []) :
    ({ m with run := ⟨.running s', g⟩ } : MountedRun).Sound env files f where
  cache := h.cache
  unmounted := h.unmounted
  stopped d down := by cases down
  readers s c running mounted reader there := by
    cases running
    cases phase : m.run.phase with
    | down d =>
      have none := h.stopped d phase
      rw [mounted] at none
      cases none
    | running s =>
      have shared (call : EngineCall) (called : act.call? = some call) : ¬ call.Exclusive := by
        intro excludes
        rw [exclusive call called excludes] at there
        cases there
      have le : (agreement env files).le ⟨s, c⟩ ⟨_, c⟩ :=
        step.agreement_le reachable only phase rfl shared c
      exact Withstands.later (h.readers s c phase mounted reader there) le
  answers := h.answers

theorem stop (h : m.Sound env files f) (d : Disk) (g : EngineHistory) :
    ({ m with run := ⟨.down d, g⟩, cache := none, readers := [] } : MountedRun).Sound env files f where
  cache c there := by cases there
  unmounted _ := rfl
  stopped _ _ := rfl
  readers s c running := by cases running
  answers := h.answers

theorem mount (h : m.Sound env files f) (running : m.run.phase = .running s) (idle : m.readers = [])
    (maxBytes : Nat) : ({ m with cache := some (.new maxBytes) } : MountedRun).Sound env files f where
  cache c there := by
    cases there
    exact .new maxBytes
  unmounted none := by cases none
  stopped d down := by
    rw [running] at down
    cases down
  readers s c _ _ reader there := by
    simp only [idle] at there
    cases there
  answers := h.answers

theorem call (h : m.Sound env files f) (distinct : NoCollision env (dataOf env files))
    (only : f.OnlyMetadata) (small : ∀ content ∈ files, content.length < 2 ^ 64)
    (running : m.run.phase = .running s) (mounted : m.cache = some c) (q : RangeRequest) :
    ({ m with
        readers := ⟨q, s.metadataStore, VfsTree.readRange q.manifestId q.offset q.size⟩ :: m.readers } :
      MountedRun).Sound env files f where
  cache := h.cache
  unmounted none := by
    rw [mounted] at none
    cases none
  stopped := h.stopped
  readers s' c' running' mounted' reader there := by
    rcases List.mem_cons.1 there with rfl | there
    · cases running.symm.trans running'
      exact reads_readRange (s := ⟨s, c'⟩) distinct only small q
    · exact h.readers s' c' running' mounted' reader there
  answers := h.answers

section Readers

variable {request : RangeRequest} {began : MetadataStore} {before after : List RangeReader}
  {answers : List RangeAnswer}

/-- One reader goes on; for the others the cache has changed. -/
theorem read {o : TreeOp} {k : Except OosLiteError o.Res → TreeProg Bytes}
    {r : Except OosLiteError o.Res} {t : TreeState}
    (h : (⟨run, some c, before ++ ⟨request, began, .op o k⟩ :: after, answers⟩ : MountedRun).Sound
      env files f)
    (running : run.phase = .running s) (inv : (agreement env files).inv ⟨s, c⟩)
    (step : (treeMachine env f).step o ⟨s, c⟩ r t) :
    (⟨⟨.running t.engine, run.history⟩, some t.cache,
      before ++ ⟨request, began, k r⟩ :: after, answers⟩ : MountedRun).Sound env files f := by
  obtain ⟨inv', le, rest⟩ := Withstands.step
    (h.readers s c running rfl _ (List.mem_append_right _ List.mem_cons_self)) inv step
  refine ⟨?_, fun none => (by cases none), fun d down => (by cases down), ?_, h.answers⟩
  · rintro c' ⟨⟩
    exact inv'.2.2
  · rintro s' c' ⟨⟩ ⟨⟩ reader there
    have later (old : reader ∈ before ++ ⟨request, began, .op o k⟩ :: after) :
        reader.Reads env files f t := Withstands.later (h.readers s c running rfl reader old) le
    rcases List.mem_append.1 there with there | there
    · exact later (List.mem_append_left _ there)
    · rcases List.mem_cons.1 there with rfl | there
      · exact rest
      · exact later (List.mem_append_right _ (List.mem_cons_of_mem _ there))

/-- A reader returns. -/
theorem answer {rest : TreeProg Bytes} {result : Result Bytes}
    (h : (⟨run, some c, before ++ ⟨request, began, rest⟩ :: after, answers⟩ : MountedRun).Sound
      env files f)
    (correct : RangeAnswer.Correct env files ⟨request, began, s.metadataStore, result⟩) :
    (⟨run, some c, before ++ after, ⟨request, began, s.metadataStore, result⟩ :: answers⟩ :
      MountedRun).Sound env files f := by
  refine ⟨h.cache, fun none => (by cases none), h.stopped, ?_, ?_⟩
  · intro s' c' running' mounted reader there
    apply h.readers s' c' running' mounted reader
    rcases List.mem_append.1 there with there | there
    · exact List.mem_append_left _ there
    · exact List.mem_append_right _ (List.mem_cons_of_mem _ there)
  · intro a there
    rcases List.mem_cons.1 there with rfl | there
    · exact correct
    · exact h.answers a there

end Readers

end MountedRun.Sound

/-! ## Runs -/

theorem MountedStep.files_subset {act : MountedAct} (step : MountedStep env f m act m') :
    m.run.history.files ⊆ m'.run.history.files := by
  cases step with
  | engine step _ => exact step.files_subset
  | stopped step => exact step.files_subset
  | _ => exact subset_rfl

/-- One step, of which all contents are known. -/
theorem MountedStep.sound {act : MountedAct} (step : MountedStep env f m act m')
    (allowed : act.Allowed fun act => act.faults.OnlyMetadata)
    (distinct : NoCollision env (dataOf env files)) (only : f.OnlyMetadata)
    (small : ∀ content ∈ files, content.length < 2 ^ 64)
    (within : m.run.history.files ⊆ files)
    (reachable : EngineReachable env OnlyTransactionsFail m.run) (h : m.Sound env files f) :
    EngineReachable env OnlyTransactionsFail m'.run ∧ m'.Sound env files f := by
  have agrees {s : StorageEngine} {c : LruState} (running : m.run.phase = .running s)
      (mounted : m.cache = some c) : (agreement env files).inv ⟨s, c⟩ :=
    reachable.agreement running within (h.cache c mounted)
  cases step with
  | engine step exclusive => exact ⟨reachable.step step allowed, h.engine reachable step allowed exclusive⟩
  | stopped step => exact ⟨reachable.step step allowed, h.stop _ _⟩
  | mounted running idle => exact ⟨reachable, h.mount running idle _⟩
  | called running mounted => exact ⟨reachable, h.call distinct only small running mounted _⟩
  | read running step =>
    refine ⟨?_, h.read running (agrees running rfl) step⟩
    rw [treeMachine_engine step, ← running]
    exact reachable
  | returned running =>
    have reads := h.readers _ _ running rfl _ (List.mem_append_right _ List.mem_cons_self)
    exact ⟨reachable, h.answer (Withstands.returned reads (agrees running rfl))⟩
  | failed running =>
    have reads := h.readers _ _ running rfl _ (List.mem_append_right _ List.mem_cons_self)
    exact ⟨reachable, h.answer (Withstands.failed reads (agrees running rfl))⟩

theorem MountedReachable.sound
    (h : MountedReachable env f (fun act => act.faults.OnlyMetadata) m) (only : f.OnlyMetadata)
    (distinct : NoCollision env (dataOf env files))
    (small : ∀ content ∈ files, content.length < 2 ^ 64) (within : m.run.history.files ⊆ files) :
    EngineReachable env OnlyTransactionsFail m.run ∧ m.Sound env files f := by
  induction h with
  | start => exact ⟨.start, .start⟩
  | step _ step allowed ih =>
    have before := step.files_subset.trans within
    obtain ⟨reachable, sound⟩ := ih before
    exact step.sound allowed distinct only small before reachable sound

/-- In every run in which nothing fails but transactions, with any calls, collections, restarts and
other readers in between: a range read returns the bytes of the stored content in the range, and fails
only in a transaction or where the manifest was not stored when it began. -/
theorem range_reads_correct (only : f.OnlyMetadata)
    (h : MountedReachable env f (fun act => act.faults.OnlyMetadata) m)
    (distinct : NoCollision env (dataOf env m.run.history.files))
    (small : ∀ content ∈ m.run.history.files, content.length < 2 ^ 64) :
    ∀ a ∈ m.answers, a.Correct env m.run.history.files :=
  (h.sound only distinct small subset_rfl).2.answers

/-- A run of the engine without a tree. -/
theorem EngineReachable.unmounted (h : EngineReachable env OnlyTransactionsFail run) :
    MountedReachable env f (fun act => act.faults.OnlyMetadata) ⟨run, none, [], []⟩ := by
  induction h with
  | start => exact .start
  | @step _ _ run' _ step only ih =>
    obtain ⟨phase, g⟩ := run'
    cases phase with
    | running s => exact ih.step (.engine step fun _ _ _ => rfl) only
    | down d => exact ih.step (.stopped step) only

namespace ReadersSample

open EngineSample

/-- A read behind the first byte of the first version, and one of all of it. -/
def behindFirst : RangeRequest := ⟨(manifestOf EngineSample.env [7, 8] 0).contentId, 1, 5⟩

def whole : RangeRequest := ⟨(manifestOf EngineSample.env [7, 8] 0).contentId, 0, 2⟩

def reading (q : RangeRequest) : TreeProg Bytes := VfsTree.readRange q.manifestId q.offset q.size

/-- The first reader has looked up the manifest. -/
def begun : TreeProg Bytes × TreeState :=
  VfsTree.advance EngineSample.env answers 1 (reading behindFirst) ⟨written, .new 16⟩

/-- Another version is stored. -/
def revised : TreeState := ⟨after begun.2.engine revising, begun.2.cache⟩

/-- The second reader returns, and then the first one. -/
def wholeRead : Result Bytes × TreeState :=
  VfsTree.exec EngineSample.env answers (reading whole) revised

def behindRead : Result Bytes × TreeState := VfsTree.exec EngineSample.env answers begun.1 wholeRead.2

end ReadersSample

open EngineSample ReadersSample in
/-- Two readers of a file, one in the middle of the other, behind a put. -/
theorem range_reads_correct_behind_first : ∃ m : MountedRun,
    m.answers.map (fun a => (a.request, a.result)) = [(behindFirst, .ok [8]), (whole, .ok [7, 8])] ∧
    ∀ a ∈ m.answers, a.Correct EngineSample.env m.run.history.files := by
  obtain ⟨g, reachable, within⟩ : Reached [[7, 8], [9]] written :=
    (reached_opened _).after reporting fun d there => by simp [mem_files_put there]
  have mounted : MountedReachable EngineSample.env (.all false) (fun act => act.faults.OnlyMetadata)
      ⟨⟨.running written, g⟩, some (.new 16), [], []⟩ :=
    reachable.unmounted.step (.mounted rfl rfl) trivial
  have called : MountedReachable EngineSample.env (.all false) (fun act => act.faults.OnlyMetadata)
      ⟨⟨.running written, g⟩, some (.new 16),
        [] ++ ⟨behindFirst, written.metadataStore, reading behindFirst⟩ :: [], []⟩ :=
    mounted.step (.called rfl rfl) trivial
  have begins : MountedReachable EngineSample.env (.all false) (fun act => act.faults.OnlyMetadata)
      ⟨⟨.running begun.2.engine, g⟩, some begun.2.cache,
        [] ++ ⟨behindFirst, written.metadataStore, begun.1⟩ :: [], []⟩ :=
    MountedReachable.advance 1 called
  have returned := StorageEngine.returns_exec false answers (revising.run EngineSample.env) []
    begun.2.engine
  have put : MountedReachable EngineSample.env (.all false) (fun act => act.faults.OnlyMetadata)
      ⟨⟨.running revised.engine, g.next (.returned revising (.all false)) (.running revised.engine)⟩,
        some revised.cache, [⟨behindFirst, written.metadataStore, begun.1⟩], []⟩ :=
    begins.step (.engine (.mk (.returned returned)) fun call called exclusive => by
      obtain rfl := Option.some.inj called
      exact exclusive.elim) onlyMetadata
  have called' : MountedReachable EngineSample.env (.all false) (fun act => act.faults.OnlyMetadata)
      ⟨⟨.running revised.engine, g.next (.returned revising (.all false)) (.running revised.engine)⟩,
        some revised.cache, [] ++ ⟨whole, revised.engine.metadataStore, reading whole⟩ ::
          [⟨behindFirst, written.metadataStore, begun.1⟩], []⟩ :=
    put.step (.called rfl rfl) trivial
  have one : MountedReachable EngineSample.env (.all false) (fun act => act.faults.OnlyMetadata)
      ⟨⟨.running wholeRead.2.engine, g.next (.returned revising (.all false)) (.running revised.engine)⟩,
        some wholeRead.2.cache, [] ++ ⟨behindFirst, written.metadataStore, begun.1⟩ :: [], _⟩ :=
    called'.finish (VfsTree.returns_exec answers (reading whole) revised)
  have both := one.finish (VfsTree.returns_exec answers begun.1 wholeRead.2)
  have known : ∀ content ∈ (g.next (.returned revising (.all false)) (.running revised.engine)).files,
      content ∈ [[7, 8], [9]] := by
    rintro d (there | there)
    · exact within d there
    · obtain ⟨_, rfl⟩ := there
      exact List.mem_cons_of_mem _ List.mem_cons_self
  refine ⟨_, ?_, range_reads_correct onlyMetadata both (noCollision [[7, 8], [9]] known (by decide +kernel))
    fun content stored => ?_⟩
  · have results : behindRead.1 = .ok [8] ∧ wholeRead.1 = .ok [7, 8] := by decide +kernel
    obtain ⟨part, all⟩ := results
    show [(behindFirst, behindRead.1), (whole, wholeRead.1)] = _
    rw [part, all]
  · have listed := known content stored
    simp only [List.mem_cons, List.not_mem_nil, or_false] at listed
    rcases listed with rfl | rfl <;> decide

end OosLite
