import OosLite.Engine.Run
import OosLite.Reference
import OosLite.Lib.Execution

/-!
# Running the engine

One of the runs of a program of the engine, computed, as for the programs of its parts.
-/

namespace OosLite

open Files Effect

/-- Every operation may fail, or none. -/
def Faults.all (faulty : Bool) : Faults :=
  ⟨fun _ => faulty = true, fun _ => faulty = true, faulty = true⟩

namespace StorageEngine

variable {α : Type}

/-- What outside questions are answered with. -/
structure Answers where
  segment : ∀ q : SegQuestion, q.Ans
  wal : ∀ q : WalQuestion, q.Ans
  now : UInt64
  legal : ∀ q : SegQuestion, q.Allowed False (segment q)

/-- One run of a program: for each file operation and each use of the tables in turn the plan says
whether it fails, and after how many bytes if it is a write. -/
def exec (faulty : Bool) (answers : Answers) :
    EngineProg α → List (Option Nat) → StorageEngine → Result α × StorageEngine
  | .pure a, _, s => (.ok a, s)
  | .throw e, _, s => (.error e, s)
  | .op (.segment o) k, plan, s =>
    let rest := match o with
      | .file _ => plan.tail
      | _ => plan
    let r := Proc.respond OosLiteError.ofIo (fun _ => faulty) answers.segment (plan.headD none) o
      s.segmentStore
    exec faulty answers (k r.1) rest (s.withSegments r.2)
  | .op (.wal o) k, plan, s =>
    let rest := match o with
      | .file _ => plan.tail
      | _ => plan
    let r := Proc.respond OosLiteError.ofIo (fun _ => faulty) answers.wal (plan.headD none) o s.wal
    exec faulty answers (k r.1) rest (s.withWal r.2)
  | .op .tables k, plan, s =>
    if (plan.headD none).isSome && faulty then exec faulty answers (k (.error (.redb ""))) plan.tail s
    else exec faulty answers (k (.ok s.metadataStore)) plan.tail s
  | .op (.commit m) k, plan, s =>
    if (plan.headD none).isSome && faulty then exec faulty answers (k (.error (.redb ""))) plan.tail s
    else exec faulty answers (k (.ok ())) plan.tail (s.withTables m)
  | .op .now k, plan, s => exec faulty answers (k (.ok answers.now)) plan s

theorem returns_exec (faulty : Bool) (answers : Answers) (p : EngineProg α)
    (plan : List (Option Nat)) (s : StorageEngine) :
    Returns (engineMachine (Faults.all faulty)) p s (exec faulty answers p plan s).1
      (exec faulty answers p plan s).2 := by
  induction p generalizing plan s with
  | pure a => exact .pure a s
  | throw e => exact .throw e s
  | op o k ih =>
    cases o with
    | segment o =>
      exact .op ⟨_, Proc.step_respond answers.legal (plan.headD none) o s.segmentStore, rfl⟩
        (ih _ _ _)
    | wal o =>
      exact .op ⟨_, Proc.step_respond (fun _ => trivial) (plan.headD none) o s.wal, rfl⟩ (ih _ _ _)
    | tables =>
      rw [exec]
      split
      · rename_i fails
        exact .op ⟨rfl, .inr ⟨(Bool.and_eq_true_iff.1 fails).2, rfl⟩⟩ (ih _ _ _)
      · exact .op ⟨rfl, .inl rfl⟩ (ih _ _ _)
    | commit m =>
      rw [exec]
      split
      · rename_i fails
        exact .op (.inr ⟨(Bool.and_eq_true_iff.1 fails).2, rfl, rfl⟩) (ih _ _ _)
      · exact .op (.inl ⟨rfl, rfl⟩) (ih _ _ _)
    | now => exact .op ⟨rfl, _, rfl⟩ (ih _ _ _)

/-- To drop what a program returns changes nothing of what it leaves. -/
theorem exec_discard (faulty : Bool) (answers : Answers) (p : EngineProg α) (plan : List (Option Nat))
    (s : StorageEngine) : (exec faulty answers (do let _ ← p; return ()) plan s).2 =
      (exec faulty answers p plan s).2 := by
  induction p generalizing plan s with
  | pure a => rfl
  | throw e => rfl
  | op o k ih =>
    have first : (do let _ ← Prog.op o k; return ()) = (Prog.op o fun r => do let _ ← k r; return () :
      EngineProg Unit) := rfl
    rw [first]
    cases o with
    | segment o | wal o => cases o <;> exact ih _ _ _
    | now => exact ih _ _ _
    | tables | commit m =>
      rw [exec, exec]
      split
      · exact ih _ _ _
      · exact ih _ _ _

/-- The run in which nothing fails, as far as its first commit, which is not made. -/
def halt (answers : Answers) : EngineProg α → StorageEngine → Option StorageEngine
  | .pure _, _ => none
  | .throw _, _ => none
  | .op (.segment o) k, s =>
    let r := Proc.respond OosLiteError.ofIo (fun _ => false) answers.segment none o s.segmentStore
    halt answers (k r.1) (s.withSegments r.2)
  | .op (.wal o) k, s =>
    let r := Proc.respond OosLiteError.ofIo (fun _ => false) answers.wal none o s.wal
    halt answers (k r.1) (s.withWal r.2)
  | .op .tables k, s => halt answers (k (.ok s.metadataStore)) s
  | .op (.commit _) _, s => some s
  | .op .now k, s => halt answers (k (.ok answers.now)) s

theorem crashes_halt {answers : Answers} {p : EngineProg α} {s s' : StorageEngine}
    (h : halt answers p s = some s') : Crashes (engineMachine (Faults.all false)) p s s' := by
  induction p generalizing s with
  | pure a => cases h
  | throw e => cases h
  | op o k ih =>
    cases o with
    | segment o =>
      exact .later ⟨_, Proc.step_respond answers.legal none o s.segmentStore, rfl⟩ (ih _ h)
    | wal o => exact .later ⟨_, Proc.step_respond (fun _ => trivial) none o s.wal, rfl⟩ (ih _ h)
    | tables => exact .later ⟨rfl, .inl rfl⟩ (ih _ h)
    | commit m =>
      obtain rfl := Option.some.inj h
      exact .here (.inl rfl)
    | now => exact .later ⟨rfl, _, rfl⟩ (ih _ h)

end StorageEngine

theorem Faults.all_false : Faults.all false = .none := by
  unfold Faults.all Faults.none
  simp

/-- What a power cut leaves if it keeps everything that was visible. -/
def Disk.visible (d : Disk) : Disk := ⟨d.segments.visible, d.wal.visible, d.tables⟩

theorem Disk.powerCut_visible (d : Disk) : d.PowerCut d.visible :=
  ⟨Fs.powerCut_visible _, Fs.powerCut_visible _, rfl⟩

open StorageEngine

/-- A call that is computed takes a run one step further, whatever it returns. -/
theorem EngineReachable.exec {env : Env} {s : StorageEngine} {g : EngineHistory}
    (h : EngineReachable env (fun _ _ => True) ⟨.running s, g⟩) (answers : Answers)
    (call : EngineCall) (faulty : Bool) (plan : List (Option Nat)) :
    ∃ g', EngineReachable env (fun _ _ => True)
      ⟨.running (StorageEngine.exec faulty answers (call.run env) plan s).2, g'⟩ :=
  ⟨_, h.step (.mk (.returned (returns_exec faulty answers (call.run env) plan s))) trivial⟩

namespace EngineSample

/-- Answers that do not matter. -/
def answers : Answers where
  segment
    | .now => 0
    | .nonce => FixedBytes.ofBytes 24 []
    | .stagingDir => (0 : Nat)
    | .entries index => index
    | .accepts count => count
  wal
    | .nonce => FixedBytes.ofBytes 24 []
  now := 0
  legal q := by
    cases q with
    | entries index => exact List.Perm.refl _
    | accepts count => exact .inl rfl
    | _ => trivial

/-- A process that has not opened its store yet. -/
def unopened : StorageEngine :=
  ⟨⟨⟨∅, fun _ => 0⟩, ⟨fun _ => ⟨none, 0, false, [], 0, 0⟩, fun _ => ∅⟩⟩,
    ⟨⟨∅, fun _ => 0⟩, ⟨0, 0⟩⟩, .empty⟩

def env : Env := Reference.env []

/-- A new store, opened. -/
def opened : StorageEngine := (exec false answers (openInternal env) [] unopened).2

theorem reachable_opened : ∃ g, EngineReachable env (fun _ _ => True) ⟨.running opened, g⟩ := by
  have returned := returns_exec false answers (openInternal env) [] unopened
  rw [show (exec false answers (openInternal env) [] unopened).1 = .ok () by
    decide +kernel] at returned
  exact ⟨_, EngineReachable.start.step (.mk (.opened ⟨rfl, rfl, rfl⟩ returned)) trivial⟩

/-- A file that is read without trouble. -/
def file (content : Bytes) : SourceFile := ⟨true, fun _ => ⟨content, none, true⟩⟩

/-- What a call leaves when nothing fails. -/
def after (s : StorageEngine) (call : EngineCall) : StorageEngine :=
  (exec false answers (call.run env) [] s).2

/-- The calls that store the two versions of a file, and the stores they leave. -/
def reporting : EngineCall := .put "report" (file [7, 8]) (FixedBytes.ofBytes 16 [1])

def written : StorageEngine := after opened reporting

def revising : EngineCall := .put "report" (file [9]) (FixedBytes.ofBytes 16 [2])

def reported : StorageEngine := after written revising

end EngineSample

end OosLite
