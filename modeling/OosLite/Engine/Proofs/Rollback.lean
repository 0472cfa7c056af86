import OosLite.Engine.Proofs.Extraction
import OosLite.Engine.Proofs.Snapshots
import OosLite.Engine.Proofs.Tables

/-!
# A rollback that fails

`rollback_file` commits the new version and then writes it out. An error of the second step comes
back to the caller with the version in the record; the file that was to be written is as it was.
-/

namespace OosLite

open Effect FileTree

namespace Output

/-- What a failed rollback is to leave alone: every record, and the content at the output path. -/
structure Untouched (outPath : Option (List String)) (s s' : Output) : Prop where
  records : ∀ id, s'.engine.metadataStore.getObject id = s.engine.metadataStore.getObject id
  content : ∀ out ∈ outPath, s'.tree.fileAt out = s.tree.fileAt out

/-- However a rollback may be stopped by an error, it leaves records and output alone. -/
def FailsUntouched (env : Env) (s : Output) (name : String) (targetVersion : UInt32)
    (outPath : Option (List String)) (stamp : Stamp) : Prop :=
  ∀ f e s', Returns (outputMachine f) (rollbackFile env name targetVersion outPath stamp) s
    (.error e) s' → Untouched outPath s s'

/-- What a rollback finds before it commits anything. -/
def FindsTarget (env : Env) (m : MetadataStore) (name : String) (targetVersion : UInt32) : Prop :=
  validateLogicalName (Text.trim name) = .ok () ∧
    ∃ found, StorageEngine.rollbackTarget env m (Text.trim name) targetVersion = .ok found

section Runs

variable {f : Faults} {env : Env} {s : Output}

/-- The output path keeps its content through a failed extraction. -/
theorem OutputTree.Prepared.content {t t' : OutputTree UInt8} {out : List String} {stamp : Stamp}
    (h : OutputTree.Prepared (scratch out stamp) out.dropLast t t') : t'.fileAt out = t.fileAt out := by
  apply h.fileAt
  intro inScratch
  obtain ⟨same, nonempty⟩ := inScratch
  exact tmpPath_ne nonempty stamp same.symm

/-- How a failed rollback ends. -/
def RollbackPost (env : Env) (name : String) (targetVersion : UInt32)
    (outPath : Option (List String)) (s : Output) : Except OosLiteError (UInt32 × Nat) → Output → Prop
  | .ok _, _ => True
  | .error _, s' => (∀ out ∈ outPath, s'.tree.fileAt out = s.tree.fileAt out) ∧
      (s'.engine.metadataStore = s.engine.metadataStore ∨
        outPath ≠ none ∧ FindsTarget env s.engine.metadataStore name targetVersion)

theorem returns_rollbackFile {name : String} {targetVersion : UInt32}
    {outPath : Option (List String)} {stamp : Stamp} {r : Except OosLiteError (UInt32 × Nat)}
    {s' : Output} (run : Returns (outputMachine f)
      (rollbackFile env name targetVersion outPath stamp) s r s') :
    RollbackPost env name targetVersion outPath s r s' := by
  have early (e : OosLiteError) :
      RollbackPost env name targetVersion outPath s (.error e) s := ⟨fun _ _ => rfl, .inl rfl⟩
  refine Safe.returns (C := fun _ => True) ?_ run
  unfold rollbackFile
  simp only
  rw [safe_bind, safe_ofExcept]
  cases valid : validateLogicalName (Text.trim name) with
  | error e => exact early e
  | ok u =>
    rw [thenSafe_ok, safe_bind]
    apply safe_engineProg
    refine StorageEngine.safe_query ?_ fun _ => early (.redb "")
    cases found : StorageEngine.rollbackTarget env s.engine.metadataStore (Text.trim name)
        targetVersion with
    | error e => exact early e
    | ok target =>
      have finds : FindsTarget env s.engine.metadataStore name targetVersion :=
        ⟨valid, target, found⟩
      rw [thenSafe_ok, safe_bind]
      apply safe_engineProg
      apply StorageEngine.safe_now
      intro createdAt
      rw [thenSafe_ok, safe_bind]
      apply safe_engineProg
      refine StorageEngine.safe_update trivial trivial ?_ fun _ => early (.redb "")
      rw [thenSafe_ok]
      cases outPath with
      | none => exact trivial
      | some out =>
        -- from here on the version is in the record
        have late {s' : Output} (kept : s'.tree.fileAt out = s.tree.fileAt out) (e : OosLiteError) :
            RollbackPost env name targetVersion (some out) s (.error e) s' := by
          refine ⟨fun out' member => ?_, .inr ⟨nofun, finds⟩⟩
          rw [← Option.some.inj member]
          exact kept
        simp only
        rw [safe_bind]
        apply safe_ignore
        have extracts (u : Output)
            (prepared : OutputTree.Prepared (scratch out stamp) out.dropLast s.tree u.tree) :
            Safe (outputMachine f) (RollbackPost env name targetVersion (some out) s)
              (fun _ => True) (do
                let written ← extractManifestToFile env target.2.2 out stamp
                return (target.1.nextVersion, written)) u := by
          rw [safe_bind]
          refine (safe_extractManifestToFile _ out stamp u).mono (fun r s' post => ?_)
            fun _ _ => trivial
          cases r with
          | ok written => exact trivial
          | error e => exact late (OutputTree.Prepared.content (prepared.trans post.2)) e
        apply safe_treeOp
        · intro t made
          rw [thenSafe_ok]
          apply extracts
          show OutputTree.Prepared _ _ s.tree t
          rw [OutputTree.run_createDirAll made]
          exact .makeDirs (List.prefix_refl _)
        · intro e t left
          rw [thenSafe_ok]
          apply extracts
          refine left.prepared ?_ nofun
          intro q same
          cases same
          exact List.prefix_refl _

theorem returns_engineProg {α : Type} {p : EngineProg α} {g g' : StorageEngine}
    {r : Except OosLiteError α} (run : Returns (engineMachine f) p g r g') (t : OutputTree UInt8) :
    Returns (outputMachine f) (engineProg p) ⟨g, t⟩ r ⟨g', t⟩ := by
  induction run with
  | pure a g => exact .pure a _
  | throw e g => exact .throw e _
  | @op o k g r g₁ result last step _ ih =>
    refine .op (show (outputMachine f).step (.engine o) ⟨g, t⟩ r ⟨g₁, t⟩ from ⟨g₁, step, rfl⟩) ?_
    cases r with
    | ok a => exact ih
    | error e => exact ih

/-- A record in its table has one version more after the commit. -/
theorem getObject_rolledBack {m : MetadataStore} {record : ObjectRecord} {id : ObjectId}
    (owned : m.Owned) (found : m.getObject id = .ok (some record)) {v : ObjectVersion}
    (fits : (Text.utf8 v.manifestId).length < 2 ^ 16) (latestVersion : UInt32) :
    (m.putObject { record with latestVersion, versions := record.versions ++ [v] }).getObject id ≠
      m.getObject id := by
  have own : record.objectId = id := owned id record found
  have room : ObjectRecord.IdsFit
      { record with latestVersion, versions := record.versions ++ [v] } := by
    intro u member
    rcases List.mem_append.1 member with member | last
    · exact MetadataStore.idsFit_of_getObject found u member
    · rw [List.mem_singleton.1 last]
      exact fits
  rw [MetadataStore.getObject_putObject room, if_pos own, found]
  intro same
  have versions := congrArg (fun r : ObjectRecord => r.versions.length)
    (Option.some.inj (Except.ok.inj same))
  simp only [List.length_take, List.length_append, List.length_singleton] at versions
  have less := Nat.mod_le (record.versions.length + 1) (2 ^ 32)
  rw [Nat.min_eq_left less] at versions
  omega

/-- With a path that cannot be written to, a rollback fails after its commit. -/
theorem returns_rollbackFile_error {name : String} {targetVersion : UInt32} {g : StorageEngine}
    {record : ObjectRecord} {entry : ObjectVersion} {manifest : Manifest}
    (valid : validateLogicalName (Text.trim name) = .ok ())
    (found : StorageEngine.rollbackTarget env g.metadataStore (Text.trim name) targetVersion =
      .ok (record, entry, manifest)) (out : List String) (stamp : Stamp) (t : OutputTree UInt8) :
    ∃ e, Returns (outputMachine f) (rollbackFile env name targetVersion (some out) stamp) ⟨g, t⟩
      (.error e) ⟨g.withTables (g.metadataStore.putObject
        { record with
          latestVersion := record.nextVersion
          versions := record.versions ++
            [{ entry with version := record.nextVersion, createdAt := 0 }] }), t⟩ := by
  have clock : Returns (engineMachine f) StorageEngine.now g (.ok 0) g :=
    .op ⟨rfl, 0, rfl⟩ (.pure _ _)
  have refused (u : Output) : (outputMachine f).step (.tree (.createDirAll out.dropLast)) u
      (.error (.ofIo .other)) u := ⟨u.tree, rfl, .inr ⟨⟨_, rfl⟩, .inl rfl⟩⟩
  refine ⟨.ofIo .other, ?_⟩
  unfold rollbackFile
  simp only
  apply returns_bind.2
  refine .inl ⟨(), ⟨g, t⟩, ?_, ?_⟩
  · rw [valid]
    exact .pure _ _
  apply returns_bind.2
  refine .inl ⟨_, _, returns_engineProg (StorageEngine.returns_query found) t, ?_⟩
  apply returns_bind.2
  refine .inl ⟨_, _, returns_engineProg clock t, ?_⟩
  apply returns_bind.2
  refine .inl ⟨_, _, returns_engineProg (StorageEngine.returns_update g) t, ?_⟩
  simp only
  apply returns_bind.2
  refine .inl ⟨(), _, .op (refused _) (.pure _ _), ?_⟩
  apply returns_bind.2
  exact .inr ⟨_, .op (refused _) (.throw _ _), rfl⟩

/-- A rollback that fails changes nothing exactly if nothing is to be written out, or if it fails
before its commit whatever happens. -/
theorem rollback_fails_untouched_iff {run : EngineRun}
    (reachable : EngineReachable env (fun _ _ => True) run)
    (running : run.phase = .running s.engine) (name : String) (targetVersion : UInt32)
    (outPath : Option (List String)) (stamp : Stamp) :
    FailsUntouched env s name targetVersion outPath stamp ↔
      outPath = none ∨ ¬ FindsTarget env s.engine.metadataStore name targetVersion := by
  have owned := reachable.owned
  rw [running] at owned
  constructor
  · intro untouched
    by_cases finds : FindsTarget env s.engine.metadataStore name targetVersion
    · cases outPath with
      | none => exact .inl rfl
      | some out =>
        obtain ⟨valid, ⟨record, entry, manifest⟩, found⟩ := finds
        obtain ⟨id, -, object, member, -, -⟩ := StorageEngine.rollbackTarget_ok found
        obtain ⟨e, failed⟩ :=
          returns_rollbackFile_error (f := Faults.none) valid found out stamp s.tree
        have same := (untouched _ _ _ failed).records id
        have fits := MetadataStore.idsFit_of_getObject object entry member
        exact absurd same (getObject_rolledBack owned object
          (v := { entry with version := record.nextVersion, createdAt := 0 }) fits
          record.nextVersion)
    · exact .inr finds
  · intro cond f e s' failed
    have post := returns_rollbackFile failed
    refine ⟨fun id => ?_, post.1⟩
    rcases post.2 with same | ⟨writes, finds⟩
    · rw [same]
    · rcases cond with none | lost
      · exact absurd none writes
      · exact absurd finds lost

end Runs

/-! ## A path that is a directory -/

namespace RollbackSample

open EngineSample

/-- A store with one version of one file. -/
def stored : StorageEngine := after opened (.put "a" (file []) (FixedBytes.ofBytes 16 [1]))

/-- A tree with one directory. -/
def tree : OutputTree UInt8 := fun p => if p = [] ∨ p = ["out"] then some .dir else none

theorem reachable_stored : ∃ g, EngineReachable env (fun _ _ => True) ⟨.running stored, g⟩ := by
  obtain ⟨g, opened⟩ := reachable_opened
  exact opened.exec answers (.put "a" (file []) (FixedBytes.ofBytes 16 [1])) false []

end RollbackSample

theorem rollback_fails_untouched_iff_unwritten :
    FailsUntouched EngineSample.env ⟨RollbackSample.stored, RollbackSample.tree⟩ "a" 1 none
      ⟨1, 1, 0⟩ := by
  obtain ⟨g, stored⟩ := RollbackSample.reachable_stored
  exact (rollback_fails_untouched_iff (s := ⟨RollbackSample.stored, RollbackSample.tree⟩) stored rfl
    "a" 1 none ⟨1, 1, 0⟩).2 (.inl rfl)

/-- A rollback onto a directory fails and leaves another version. -/
theorem failed_rollback_adds_a_version :
    ¬ ∀ (env : Env) (run : EngineRun) (s : Output) (name : String) (targetVersion : UInt32)
      (outPath : Option (List String)) (stamp : Stamp),
      EngineReachable env (fun _ _ => True) run → run.phase = .running s.engine →
      FailsUntouched env s name targetVersion outPath stamp := by
  intro all
  obtain ⟨g, stored⟩ := RollbackSample.reachable_stored
  have untouched := all _ _ ⟨RollbackSample.stored, RollbackSample.tree⟩ "a" 1 (some ["out"])
    ⟨1, 1, 0⟩ stored rfl
  have failed := returns_exec EngineSample.answers (rollbackFile EngineSample.env "a" 1
    (some ["out"]) ⟨1, 1, 0⟩) ⟨RollbackSample.stored, RollbackSample.tree⟩
  have error : (exec EngineSample.answers (rollbackFile EngineSample.env "a" 1
      (some ["out"]) ⟨1, 1, 0⟩) ⟨RollbackSample.stored, RollbackSample.tree⟩).1 =
        .error (.ofIo .other) := by decide +kernel
  rw [error] at failed
  have same := (untouched _ _ _ failed).records (FixedBytes.ofBytes 16 [1])
  have other : ¬ (exec EngineSample.answers (rollbackFile EngineSample.env "a" 1
      (some ["out"]) ⟨1, 1, 0⟩)
        ⟨RollbackSample.stored, RollbackSample.tree⟩).2.engine.metadataStore.getObject
          (FixedBytes.ofBytes 16 [1]) =
      RollbackSample.stored.metadataStore.getObject (FixedBytes.ofBytes 16 [1]) := by decide +kernel
  exact other same

end Output

end OosLite
