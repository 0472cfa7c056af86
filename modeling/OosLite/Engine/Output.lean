import OosLite.Engine.Execution
import OosLite.Lib.OutputTree

/-!
# Files written outside the store

`extract_manifest_to_file` and the methods that call it, with the directory tree they write to. What a
temporary file is called after, the process, the thread and the time, is an argument.
-/

namespace OosLite

open Effect FileTree

/-- The engine, and the directory tree outside of it. -/
structure Output where
  engine : StorageEngine
  tree : OutputTree UInt8

inductive OutputOp where
  | engine (o : EngineOp)
  | tree (o : TreeOp UInt8)

@[reducible] def OutputOp.Res : OutputOp → Type
  | .engine o => o.Res
  | .tree _ => Unit

abbrev OutputProg (α : Type) := Prog OutputOp OutputOp.Res OosLiteError α

namespace Output

/-- Replace the engine. -/
def withEngine (s : Output) (engine : StorageEngine) : Output := { s with engine }

/-- Replace the tree. -/
def withTree (s : Output) (tree : OutputTree UInt8) : Output := { s with tree }

@[simp] theorem withEngine_engine (s : Output) (g : StorageEngine) : (s.withEngine g).engine = g := rfl
@[simp] theorem withEngine_tree (s : Output) (g : StorageEngine) : (s.withEngine g).tree = s.tree := rfl
@[simp] theorem withTree_engine (s : Output) (t : OutputTree UInt8) : (s.withTree t).engine = s.engine := rfl
@[simp] theorem withTree_tree (s : Output) (t : OutputTree UInt8) : (s.withTree t).tree = t := rfl

end Output

/-- The machine of the engine with the tree, where every operation on the tree may be refused. -/
def outputMachine (f : Faults) : Machine OutputOp OutputOp.Res OosLiteError Output where
  step
    | .engine o, s, r, s' => ∃ g, (engineMachine f).step o s.engine r g ∧ s' = s.withEngine g
    | .tree o, s, r, s' => ∃ t, s' = s.withTree t ∧
      (r = .ok () ∧ s.tree.run o = some t ∨ (∃ e, r = .error (.ofIo e)) ∧ s.tree.Refused o t)
  cut
    | .engine o, s, s' => ∃ g, (engineMachine f).cut o s.engine g ∧ s' = s.withEngine g
    | .tree o, s, s' => ∃ t, s' = s.withTree t ∧ (s.tree.run o = some t ∨ s.tree.Refused o t)

namespace Output

/-- A program of the engine. -/
def engineProg {α : Type} (p : EngineProg α) : OutputProg α := p.lift OutputOp.engine fun _ a => a

/-- An operation on the tree. -/
def treeOp (o : TreeOp UInt8) : OutputProg Unit :=
  @Prog.perform OutputOp OutputOp.Res OosLiteError (.tree o)

/-- Run a program and go on whatever it answers (`let _ = ...`). -/
def ignore (p : OutputProg Unit) : OutputProg Unit := Prog.handle p fun _ => pure ()

/-! ## Temporary files -/

/-- `std::process::id`, `std::thread::current().id()` and the time in nanoseconds. -/
structure Stamp where
  pid : Nat
  threadId : Nat
  nanos : Nat

/-- The extension of a temporary file. -/
def Stamp.extension (stamp : Stamp) : String :=
  "tmp." ++ toString stamp.pid ++ ".ThreadId(" ++ toString stamp.threadId ++ ")." ++
    toString stamp.nanos

/-- `Path::file_stem`: the name up to its last dot, unless that is its first character. -/
def fileStem (name : String) : String :=
  match name.toList.reverse.dropWhile (· ≠ '.') with
  | _ :: c :: before => String.ofList (c :: before).reverse
  | _ => name

/-- `Path::with_extension`, of the last component. -/
def withExtension (name extension : String) : String := fileStem name ++ "." ++ extension

/-- The temporary file next to a path. -/
def tmpPath (out : List String) (stamp : Stamp) : List String :=
  match out.getLast? with
  | some name => out.dropLast ++ [withExtension name stamp.extension]
  | none => []

/-! ## The methods -/

variable (env : Env)

/-- `extract_manifest_to_file`; an error ends in the `drop` of its `TmpFileGuard`. -/
def extractManifestToFile (manifest : Manifest) (out : List String) (stamp : Stamp) :
    OutputProg Nat := do
  treeOp (.createDirAll out.dropLast)
  let tmp := tmpPath out stamp
  Prog.handle (do
    treeOp (.openTruncate tmp)
    let written ← Prog.forEach (fun written id => do
      let data ← engineProg (StorageEngine.segments (SegmentStore.getChunk env id))
      treeOp (.write tmp data)
      return written ++ data) [] manifest.chunks
    treeOp (.sync tmp)
    if env.blake3 written ≠ manifest.contentHash then
      throw (.internal ("Reconstructed file BLAKE3 mismatch: expected " ++ manifest.contentId ++
        ", got " ++ ChunkId.toHex (env.blake3 written)))
    else
      treeOp (.rename tmp out)
      return written.length) fun e => do
    ignore (treeOp (.remove tmp))
    throw e

/-- One entry of `restore_snapshot`. -/
def restoreEntry (target : List String) (entry : SnapshotEntry) (stamp : Stamp) :
    OutputProg Unit := do
  let manifest ← engineProg (StorageEngine.query fun m => do
    Option.orError (← m.getManifest env entry.manifestId)
      (.internal ("Manifest " ++ entry.manifestId ++ " not found for snapshot entry " ++ entry.name)))
  if StorageEngine.safeRelativePath entry.name = [] then
    throw (.invalidName entry.name "Snapshot entry resolved to empty relative path")
  else
    let _ ← extractManifestToFile env manifest (target ++ StorageEngine.safeRelativePath entry.name)
      stamp

/-- `restore_snapshot`; each entry has its own stamp. There is no target for an empty path. -/
def restoreSnapshot (label : String) (targetDir : Option (List String)) (stamps : Nat → Stamp) :
    OutputProg Nat := do
  let label := Text.trim label
  let snapshot ← engineProg (StorageEngine.query fun m => do
    Option.orError (← m.getSnapshot env label) (.snapshotNotFound label))
  match targetDir with
  | none => throw (.invalidName label "Target directory for snapshot restore cannot be empty")
  | some target =>
    treeOp (.createDirAll target)
    Prog.forEach (fun _ entry => restoreEntry env target entry.1 (stamps entry.2)) ()
      snapshot.entries.zipIdx
    return snapshot.entries.length

/-- `rollback_file`: the new version and how many bytes are written. -/
def rollbackFile (name : String) (targetVersion : UInt32) (outPath : Option (List String))
    (stamp : Stamp) : OutputProg (UInt32 × Nat) := do
  let name := Text.trim name
  Prog.ofExcept (validateLogicalName name)
  let (record, entry, manifest) ← engineProg
    (StorageEngine.query fun m => StorageEngine.rollbackTarget env m name targetVersion)
  let createdAt ← engineProg StorageEngine.now
  let version := record.nextVersion
  engineProg (StorageEngine.update fun m => m.putObject
    { record with
      latestVersion := version
      versions := record.versions ++ [{ entry with version, createdAt }] })
  match outPath with
  | none => return (version, 0)
  | some out =>
    ignore (treeOp (.createDirAll out.dropLast))
    let written ← extractManifestToFile env manifest out stamp
    return (version, written)

/-! ## Rules -/

section Rules

variable {f : Faults} {C : Output → Prop} {s : Output} {α : Type}

theorem part_engine (f : Faults) : Part (engineMachine f) (outputMachine f) OutputOp.engine
    (fun _ a => a) engine withEngine where
  get_set _ _ := rfl
  set_set _ _ _ := rfl
  step o s r s' step := by
    obtain ⟨g, inner, rfl⟩ := step
    refine ⟨g, ?_, rfl⟩
    cases r <;> exact inner
  cut _ _ _ cut := cut

theorem safe_engineProg {p : EngineProg α} {Q : Except OosLiteError α → Output → Prop}
    (h : Safe (engineMachine f) (fun r g => Q r (s.withEngine g)) (fun g => C (s.withEngine g)) p
      s.engine) :
    Safe (outputMachine f) Q C (engineProg p) s :=
  (part_engine f).safe_lift p s rfl h

theorem safe_treeOp {o : TreeOp UInt8} {Q : Except OosLiteError Unit → Output → Prop}
    (done : ∀ t, s.tree.run o = some t → Q (.ok ()) (s.withTree t))
    (refused : ∀ e t, s.tree.Refused o t → Q (.error e) (s.withTree t)) :
    Safe (outputMachine f) Q (fun _ => True) (treeOp o) s := by
  apply (safe_perform _ _).2
  refine ⟨fun _ _ => trivial, fun r s' step => ?_⟩
  obtain ⟨t, rfl, ⟨rfl, ran⟩ | ⟨⟨e, rfl⟩, left⟩⟩ := step
  · exact done t ran
  · exact refused _ t left

theorem safe_ignore {p : OutputProg Unit} {Q : Except OosLiteError Unit → Output → Prop}
    (h : Safe (outputMachine f) (fun _ t => Q (.ok ()) t) C p s) :
    Safe (outputMachine f) Q C (ignore p) s := by
  rw [ignore, safe_handle]
  refine h.mono (fun r t done => ?_) fun _ crash => crash
  cases r with
  | ok a => exact done
  | error e => exact done

end Rules

/-! ## Runs -/

/-- A run in which nothing goes wrong but what cannot be done to the tree. -/
def exec {α : Type} (answers : StorageEngine.Answers) :
    OutputProg α → Output → Except OosLiteError α × Output
  | .pure a, s => (.ok a, s)
  | .throw e, s => (.error e, s)
  | .op (.engine o) k, s =>
    let r := StorageEngine.exec false answers
      (@Prog.perform EngineOp EngineOp.Res OosLiteError o) [] s.engine
    exec answers (k r.1) (s.withEngine r.2)
  | .op (.tree o) k, s =>
    match s.tree.run o with
    | some t => exec answers (k (.ok ())) (s.withTree t)
    | none => exec answers (k (.error (.ofIo .other))) s

theorem returns_exec {α : Type} (answers : StorageEngine.Answers) (p : OutputProg α) (s : Output) :
    Returns (outputMachine (Faults.all false)) p s (exec answers p s).1 (exec answers p s).2 := by
  induction p generalizing s with
  | pure a => exact .pure a s
  | throw e => exact .throw e s
  | op o k ih =>
    cases o with
    | engine o =>
      have run := StorageEngine.returns_exec false answers
        (@Prog.perform EngineOp EngineOp.Res OosLiteError o) [] s.engine
      exact .op ⟨_, returns_perform.1 run, rfl⟩ (ih _ _)
    | tree o =>
      rw [exec]
      cases ran : s.tree.run o with
      | some t => exact .op ⟨t, rfl, .inl ⟨rfl, ran⟩⟩ (ih _ _)
      | none => exact .op ⟨s.tree, rfl, .inr ⟨⟨_, rfl⟩, .inl rfl⟩⟩ (ih _ _)

end Output

end OosLite
