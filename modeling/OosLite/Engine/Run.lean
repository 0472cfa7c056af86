import OosLite.Engine.Operations
import Mathlib.Data.Set.Insert

/-!
# Runs of the engine

A process opens a store, calls the methods of the engine and is stopped at any point, again and
again. What is remembered of a run is what the properties of its states speak about.
-/

namespace OosLite

open Files Effect

/-- A call of a method. -/
inductive EngineCall where
  | put (name : String) (file : SourceFile) (generated : ObjectId)
  | get (target : String) (version : Option UInt32)
  | createSnapshot (label : String)
  | restoreSnapshot (label : String)
  | deleteSnapshot (label : String)
  | delete (name : String)
  | deletePrefix (start : String)
  | unbind (name : String)
  | rename (oldName newName : String)
  | updateWatchedPrefix (watchRoot source : String) (target : Option String)
      (included : String → Bool)
  | markWatcherFile (watchRoot logicalName : String)
  | prune (name : String) (keepLastN : Nat)
  | pruneAll (keepLastN : Nat)
  | rollback (name : String) (targetVersion : UInt32) (writes : Bool)
  | gc

/-- What a stopped process leaves: the files of its parts, and the tables. -/
structure Disk where
  segments : Fs SegPath
  wal : Fs WalPath
  tables : MetadataStore

/-- A store that is open, or whose process has stopped. -/
inductive EnginePhase where
  | running (s : StorageEngine)
  | down (d : Disk)

/-- What happens next, with the operations that may fail meanwhile. -/
inductive EngineAct where
  | opened (f : Faults)
  | openFailed (f : Faults)
  | openCrashed (f : Faults)
  | returned (call : EngineCall) (f : Faults)
  | crashed (call : EngineCall) (f : Faults)
  | powerCut
  | closed

/-- What is remembered: the contents that were read from files, the identifiers that were
generated, and which version of which object was ever listed with which manifest. -/
structure EngineHistory where
  files : Set Bytes
  generated : Set ObjectId
  listed : Set (ObjectId × UInt32 × String)

structure EngineRun where
  phase : EnginePhase
  history : EngineHistory

/-- The files and tables of a state. -/
def StorageEngine.disk (s : StorageEngine) : Disk := ⟨s.segmentStore.fs, s.wal.fs, s.metadataStore⟩

/-- `d'` is what a power cut can leave of `d`. -/
structure Disk.PowerCut (d d' : Disk) : Prop where
  segments : d.segments.PowerCut d'.segments
  wal : d.wal.PowerCut d'.wal
  tables : d'.tables = d.tables

/-- A process over what another one left. -/
structure StorageEngine.Starts (s : StorageEngine) (d : Disk) : Prop where
  segments : s.segmentStore.fs = d.segments
  wal : s.wal.fs = d.wal
  tables : s.metadataStore = d.tables

/-- The versions that the records list, with their manifests. -/
def MetadataStore.listed (m : MetadataStore) : Set (ObjectId × UInt32 × String) :=
  {e | ∃ r, m.getObject e.1 = .ok (some r) ∧ ∃ v ∈ r.versions, v.version = e.2.1 ∧ v.manifestId = e.2.2}

namespace EnginePhase

/-- The tables of a phase. -/
def tables : EnginePhase → MetadataStore
  | running s => s.metadataStore
  | down d => d.tables

end EnginePhase

namespace EngineCall

variable (env : Env)

open StorageEngine in
/-- The method; what it returns does not matter for the states that follow. -/
def run : EngineCall → EngineProg Unit
  | put name file generated => do let _ ← putFileNamed env name file generated
  | get target version => do let _ ← getFileVersion env target version
  | createSnapshot label => do let _ ← StorageEngine.createSnapshot env label
  | restoreSnapshot label => do let _ ← StorageEngine.restoreSnapshot env label
  | deleteSnapshot label => do let _ ← StorageEngine.deleteSnapshot label
  | delete name => do let _ ← deleteFile name
  | deletePrefix start => do let _ ← StorageEngine.deletePrefix start
  | unbind name => do let _ ← unbindFile name
  | rename oldName newName => do let _ ← renameFile oldName newName
  | updateWatchedPrefix watchRoot source target included => do
    let _ ← StorageEngine.updateWatchedPrefix watchRoot source target included
  | markWatcherFile watchRoot logicalName => StorageEngine.markWatcherFile watchRoot logicalName
  | prune name keepLastN => do let _ ← pruneFileVersions name keepLastN
  | pruneAll keepLastN => do let _ ← StorageEngine.pruneAll keepLastN
  | rollback name targetVersion writes => do
    let _ ← rollbackFile env name targetVersion writes
  | gc => do let _ ← StorageEngine.gc env

/-- The contents that a call reads. -/
def files : EngineCall → Set Bytes
  | put _ file _ => Set.range fun i => (file.readings i).content
  | _ => ∅

/-- The identifiers that a call generates. -/
def generated : EngineCall → Set ObjectId
  | put _ _ generated => {generated}
  | _ => ∅

end EngineCall

namespace EngineAct

/-- The call of a step. -/
def call? : EngineAct → Option EngineCall
  | returned call _ | crashed call _ => some call
  | _ => none

/-- What may fail in a step. -/
def faults : EngineAct → Faults
  | opened f | openFailed f | openCrashed f | returned _ f | crashed _ f => f
  | powerCut | closed => .none

end EngineAct

/-- What is remembered after a step. -/
def EngineHistory.next (g : EngineHistory) (act : EngineAct) (phase : EnginePhase) :
    EngineHistory where
  files := g.files ∪ act.call?.elim ∅ EngineCall.files
  generated := g.generated ∪ act.call?.elim ∅ EngineCall.generated
  listed := g.listed ∪ phase.tables.listed

section Steps

variable (env : Env)

inductive PhaseStep : EnginePhase → EngineAct → EnginePhase → Prop where
  | opened {d s f s'} : s.Starts d →
      Returns (engineMachine f) (StorageEngine.openInternal env) s (.ok ()) s' →
      PhaseStep (.down d) (.opened f) (.running s')
  | openFailed {d s f e s'} : s.Starts d →
      Returns (engineMachine f) (StorageEngine.openInternal env) s (.error e) s' →
      PhaseStep (.down d) (.openFailed f) (.down s'.disk)
  | openCrashed {d s f s' d'} : s.Starts d →
      Crashes (engineMachine f) (StorageEngine.openInternal env) s s' → s'.disk.PowerCut d' →
      PhaseStep (.down d) (.openCrashed f) (.down d')
  | returned {s call f r s'} : Returns (engineMachine f) (call.run env) s r s' →
      PhaseStep (.running s) (.returned call f) (.running s')
  | crashed {s call f s' d} : Crashes (engineMachine f) (call.run env) s s' →
      s'.disk.PowerCut d → PhaseStep (.running s) (.crashed call f) (.down d)
  | powerCut {s d} : s.disk.PowerCut d → PhaseStep (.running s) .powerCut (.down d)
  | downCut {d d'} : d.PowerCut d' → PhaseStep (.down d) .powerCut (.down d')
  | closed {s} : PhaseStep (.running s) .closed (.down s.disk)

inductive EngineStep : EngineRun → EngineAct → EngineRun → Prop where
  | mk {run act phase} : PhaseStep env run.phase act phase →
      EngineStep run act ⟨phase, run.history.next act phase⟩

/-- The files and tables of a new store. -/
def Disk.new : Disk := ⟨⟨∅, fun _ => 0⟩, ⟨∅, fun _ => 0⟩, .empty⟩

/-- The runs from a new store whose steps all meet a condition. -/
inductive EngineReachable (allowed : EngineRun → EngineAct → Prop) : EngineRun → Prop where
  | start : EngineReachable allowed ⟨.down .new, ⟨∅, ∅, ∅⟩⟩
  | step {run act run'} : EngineReachable allowed run → EngineStep env run act run' →
      allowed run act → EngineReachable allowed run'

/-- The runs of reachable states, with their steps. -/
inductive EngineTrace (allowed : EngineRun → EngineAct → Prop) : List EngineAct → EngineRun → Prop where
  | start : EngineTrace allowed [] ⟨.down .new, ⟨∅, ∅, ∅⟩⟩
  | step {acts run act run'} : EngineTrace allowed acts run → EngineStep env run act run' →
      allowed run act → EngineTrace allowed (acts ++ [act]) run'

theorem EngineTrace.reachable {allowed : EngineRun → EngineAct → Prop} {acts : List EngineAct}
    {run : EngineRun} (h : EngineTrace env allowed acts run) : EngineReachable env allowed run := by
  induction h with
  | start => exact .start
  | step _ step all ih => exact ih.step step all

end Steps

end OosLite
