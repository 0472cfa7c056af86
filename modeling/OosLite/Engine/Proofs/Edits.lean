import OosLite.Engine.Run
import Mathlib.Logic.Relation

/-!
# What a call does to the tables

Apart from a put, which writes to all parts, and the garbage collection, a call leaves the files
alone and commits one transaction after the other. Each of them is one of a few edits.
-/

namespace OosLite

open Files Effect Relation

/-! ## Edits -/

/-- The versions of a named object that a prune keeps. -/
def MetadataStore.Prunes (m : MetadataStore) (name : String) (keepLastN : Nat)
    (m' : MetadataStore) : Prop :=
  ∃ id record, m.resolveName name = some id ∧ m.getObject id = .ok (some record) ∧
    keepLastN < record.versions.length ∧
    m' = m.putObject
      { record with versions := record.versions.drop (record.versions.length - keepLastN) }

/-- A new version of a named object with the manifest of an earlier one. -/
def MetadataStore.RollsBack (env : Env) (m : MetadataStore) (name : String) (targetVersion : UInt32)
    (m' : MetadataStore) : Prop :=
  ∃ id record entry manifest createdAt, m.resolveName name = some id ∧
    m.getObject id = .ok (some record) ∧ entry ∈ record.versions ∧ entry.version = targetVersion ∧
    m.getManifest env entry.manifestId = .ok (some manifest) ∧
    m' = m.putObject
      { record with
        latestVersion := record.nextVersion
        versions := record.versions ++ [{ entry with version := record.nextVersion, createdAt }] }

/-- The snapshot of the named objects under a label that is free. -/
def MetadataStore.TakesSnapshot (env : Env) (m : MetadataStore) (label : String)
    (m' : MetadataStore) : Prop :=
  ∃ named createdAt, label ≠ "" ∧ m.getSnapshot env label = .ok none ∧
    m.listNamedObjects = .ok named ∧
    m' = m.saveSnapshot env ⟨label, createdAt, StorageEngine.snapshotEntries named⟩

/-- What one transaction of a call can make of the tables. -/
def EngineCall.Edits (env : Env) (call : EngineCall) (m m' : MetadataStore) : Prop :=
  match call with
  | put .. | get .. | restoreSnapshot _ | gc => False
  | createSnapshot label => m.TakesSnapshot env (Text.trim label) m'
  | deleteSnapshot label => m' = (m.deleteSnapshot (Text.trim label)).2
  | delete name => m' = (m.deleteNamedObject (Text.trim name)).2
  | deletePrefix _ => ∃ name, m' = (m.deleteNamedObject name).2
  | unbind name => m' = (m.unbindName (Text.trim name)).2
  | rename oldName newName => m' = (m.renameNameBinding (Text.trim oldName) (Text.trim newName)).2
  | updateWatchedPrefix watchRoot source target included =>
    ∃ changes, m.updateWatchedPrefix watchRoot source target included = .ok (changes, m')
  | markWatcherFile watchRoot logicalName => m' = m.markWatcherFile watchRoot logicalName
  | prune name keepLastN => m.Prunes (Text.trim name) keepLastN m'
  | pruneAll keepLastN => ∃ name, m.Prunes name keepLastN m'
  | rollback name targetVersion _ => m.RollsBack env (Text.trim name) targetVersion m'

/-- The calls that change nothing but the tables, one edit at a time. -/
def EngineCall.OnlyEdits : EngineCall → Prop
  | put .. | gc => False
  | _ => True

namespace StorageEngine

/-- The tables of `t` come from those of `s` by edits, and nothing else differs. -/
def Edited (R : MetadataStore → MetadataStore → Prop) (s t : StorageEngine) : Prop :=
  ∃ m, t = s.withTables m ∧ ReflTransGen R s.metadataStore m

section Rules

variable {f : Faults} {fails : Prop} {R : MetadataStore → MetadataStore → Prop} {s t : StorageEngine}
  {I : StorageEngine → Prop} {α β : Type}

theorem Edited.refl (R : MetadataStore → MetadataStore → Prop) (s : StorageEngine) : s.Edited R s :=
  ⟨s.metadataStore, rfl, .refl⟩

theorem Edited.edit {m : MetadataStore} (h : s.Edited R t) (edit : R t.metadataStore m) :
    s.Edited R (t.withTables m) := by
  obtain ⟨n, rfl, edits⟩ := h
  exact ⟨m, rfl, edits.tail edit⟩

/-- A read changes nothing. -/
theorem maintains_query (q : MetadataStore → Result α) :
    Maintains (engineMachine f fails) I (query q) := by
  intro t ht
  exact safe_query ht fun _ => ht

theorem maintains_now : Maintains (engineMachine f fails) I now := by
  intro t ht
  exact safe_now fun _ => ht

/-- What a read finds is known to what follows it. -/
theorem maintains_query_bind {q : MetadataStore → Result α} {p : α → EngineProg β}
    (h : ∀ t a, I t → q t.metadataStore = .ok a →
      Safe (engineMachine f fails) (fun _ t => I t) I (p a) t) :
    Maintains (engineMachine f fails) I (query q >>= p) := by
  intro t ht
  rw [safe_bind]
  apply safe_query
  · cases found : q t.metadataStore with
    | ok a => exact h t a ht found
    | error e => exact ht
  · exact fun _ => ht

/-- A transaction that is an edit. -/
theorem safe_edit {g : MetadataStore → MetadataStore} (h : s.Edited R t)
    (edit : R t.metadataStore (g t.metadataStore)) :
    Safe (engineMachine f fails) (fun _ t => s.Edited R t) (s.Edited R) (update g) t :=
  safe_update h (h.edit edit) (h.edit edit) fun _ => h

/-- A transaction that also returns something. -/
theorem maintains_transaction (g : MetadataStore → β × MetadataStore) (p : β → EngineProg α)
    (edit : ∀ m, R m (g m).2) (rest : ∀ b, Maintains (engineMachine f fails) (s.Edited R) (p b)) :
    Maintains (engineMachine f fails) (s.Edited R) (do
      let m ← tables
      commit (g m).2
      p (g m).1) := by
  intro t ht
  rw [safe_bind]
  apply safe_tables
  · rw [thenSafe_ok, safe_bind]
    apply safe_commit ht (ht.edit (edit _))
    · exact rest _ _ (ht.edit (edit _))
    · exact fun _ => ht
  · exact fun _ => ht

/-- A program of the segment store that changes nothing there. -/
theorem maintains_segments {p : SegProg α}
    (h : ∀ g, Maintains (segMachine f.segment fails) (fun t => t = g) p) :
    Maintains (engineMachine f fails) I (segments p) := by
  intro t ht
  apply safe_segments
  apply (h t.segmentStore t.segmentStore rfl).mono
  · rintro r g rfl
    exact ht
  · rintro g rfl
    exact ht

end Rules

/-! ## Extracting -/

section Reading

variable {f : Faults} {fails : Prop} {I : StorageEngine → Prop} (env : Env)

/-- An operation that only reads. -/
theorem maintains_fileOp {faulty : FsOp SegPath → Prop} {o : FsOp SegPath} (g : SegState)
    (cut : ∀ fs fs', ¬ Fs.Cut fs o fs' ∨ fs' = fs)
    (step : ∀ fs r fs', Fs.Step faulty fs o r fs' → fs' = fs) :
    Maintains (segMachine faulty fails) (fun t => t = g) (Proc.fileOp o : SegProg o.Res) := by
  rintro t rfl
  apply Proc.safe_file
  · intro fs there
    exact ((cut t.fs fs).resolve_left (not_not_intro there)) ▸ rfl
  · intro r fs there
    exact (step t.fs r fs there) ▸ rfl

theorem maintains_getChunk (faulty : FsOp SegPath → Prop) (id : ChunkId) (g : SegState) :
    Maintains (segMachine faulty fails) (fun t => t = g) (SegmentStore.getChunk env id) := by
  have read (p : SegPath) : Maintains (segMachine faulty fails) (fun t => t = g)
      (Proc.read p : SegProg Bytes) := by
    apply maintains_fileOp
    · exact fun _ _ => .inl not_false
    · rintro fs r fs' (⟨rfl, _⟩ | ⟨_, _, rfl⟩) <;> rfl
  apply Maintains.bind
  · rintro t rfl
    exact Proc.safe_load.2 rfl
  · intro store
    apply Maintains.bind (.ofExcept _)
    intro location
    apply Maintains.bind
    · exact .handle (read _) fun _ => .throw _
    · exact fun _ => .ofExcept _

theorem maintains_extractManifestToFile (manifest : Manifest) :
    Maintains (engineMachine f fails) I (extractManifestToFile env manifest) := by
  apply Maintains.bind
  · apply Maintains.forEach
    intro written id _
    apply Maintains.bind
    · exact maintains_segments fun g => maintains_getChunk env _ id g
    · exact fun _ => .pure _
  · intro written
    split
    · exact .throw _
    · exact .pure _

end Reading

/-! ## The calls -/

section Calls

variable {f : Faults} {fails : Prop} {R : MetadataStore → MetadataStore → Prop} {s : StorageEngine} {env : Env}

theorem maintains_deleteNamed (name : String) (edit : ∀ m, R m (m.deleteNamedObject name).2) :
    Maintains (engineMachine f fails) (s.Edited R) (deleteNamed name) :=
  maintains_transaction (fun m => m.deleteNamedObject name) (fun id => pure id.isSome) edit
    fun _ => .pure _

theorem maintains_pruneFileVersions (name : String) (keepLastN : Nat)
    (edit : ∀ m m', m.Prunes (Text.trim name) keepLastN m' → R m m') :
    Maintains (engineMachine f fails) (s.Edited R) (pruneFileVersions name keepLastN) := by
  apply maintains_query_bind
  intro t found ht same
  cases found with
  | none => exact ht
  | some record =>
    simp only
    split
    · exact ht
    · rename_i more
      rw [safe_bind]
      apply (safe_edit ht ?_).mono
      · intro r u hu
        cases r <;> exact hu
      · exact fun _ hu => hu
      · apply edit
        unfold namedRecord at same
        split at same
        · rename_i id bound
          exact ⟨id, record, bound, same, Nat.lt_of_not_le more, rfl⟩
        · cases same

theorem maintains_createSnapshot (label : String)
    (edit : ∀ m m', m.TakesSnapshot env (Text.trim label) m' → R m m') :
    Maintains (engineMachine f fails) (s.Edited R) (createSnapshot env label) := by
  unfold createSnapshot
  simp only
  split
  · exact .throw _
  · rename_i named
    apply maintains_query_bind
    intro t found ht free
    cases found with
    | some snapshot => exact ht
    | none =>
      simp only [Option.isSome_none, Bool.false_eq_true, if_false]
      rw [safe_bind]
      apply safe_query
      · cases listing : t.metadataStore.listNamedObjects with
        | error e => exact ht
        | ok files =>
          rw [thenSafe_ok, safe_bind]
          apply safe_now
          intro createdAt
          rw [thenSafe_ok, safe_bind]
          apply (safe_edit ht ?_).mono
          · intro r u hu
            cases r <;> exact hu
          · exact fun _ hu => hu
          · exact edit _ _ ⟨files, createdAt, named, free, listing, rfl⟩
      · exact fun _ => ht

theorem rollbackTarget_ok {m : MetadataStore} {name : String} {v : UInt32} {record : ObjectRecord}
    {entry : ObjectVersion} {manifest : Manifest}
    (h : rollbackTarget env m name v = .ok (record, entry, manifest)) :
    ∃ id, m.resolveName name = some id ∧ m.getObject id = .ok (some record) ∧
      entry ∈ record.versions ∧ entry.version = v ∧
      m.getManifest env entry.manifestId = .ok (some manifest) := by
  unfold rollbackTarget at h
  rw [Result.bind_eq_ok] at h
  obtain ⟨id, bound, h⟩ := h
  rw [Result.bind_eq_ok] at h
  obtain ⟨found, object, h⟩ := h
  rw [Result.bind_eq_ok] at h
  obtain ⟨record', known, h⟩ := h
  rw [Result.bind_eq_ok] at h
  obtain ⟨entry', version, h⟩ := h
  rw [Result.bind_eq_ok] at h
  obtain ⟨saved, lookup, h⟩ := h
  rw [Result.bind_eq_ok] at h
  obtain ⟨manifest', present, h⟩ := h
  cases h
  have version := Option.orError_eq_ok.1 version
  rw [Option.orError_eq_ok.1 known] at object
  rw [Option.orError_eq_ok.1 present] at lookup
  exact ⟨id, Option.orError_eq_ok.1 bound, object, List.mem_of_find?_eq_some version,
    by simpa using List.find?_some version, lookup⟩

theorem maintains_rollbackFile (name : String) (v : UInt32) (writes : Bool)
    (edit : ∀ m m', m.RollsBack env (Text.trim name) v m' → R m m') :
    Maintains (engineMachine f fails) (s.Edited R) (rollbackFile env name v writes) := by
  unfold rollbackFile
  extract_lets name
  generalize validateLogicalName name = valid
  refine Maintains.bind (.ofExcept valid) fun _ => ?_
  apply maintains_query_bind
  rintro t ⟨record, entry, manifest⟩ ht found
  obtain ⟨id, bound, object, mem, version, present⟩ := rollbackTarget_ok found
  simp only
  rw [safe_bind]
  apply safe_now
  intro createdAt
  rw [thenSafe_ok, safe_bind]
  apply (safe_edit ht ?_).mono
  · intro r u hu
    cases r with
    | error e => exact hu
    | ok value =>
      rw [thenSafe_ok]
      split
      · exact Maintains.bind (maintains_extractManifestToFile env manifest) (fun _ => .pure _) u hu
      · exact hu
  · exact fun _ hu => hu
  · exact edit _ _ ⟨id, record, entry, manifest, createdAt, bound, object, mem, version, present, rfl⟩

theorem maintains_renameFile (oldName newName : String)
    (edit : ∀ m, R m (m.renameNameBinding (Text.trim oldName) (Text.trim newName)).2) :
    Maintains (engineMachine f fails) (s.Edited R) (renameFile oldName newName) := by
  unfold renameFile
  extract_lets oldName newName
  generalize validateLogicalName newName = valid
  refine Maintains.bind (Maintains.ofExcept valid) fun _ => ?_
  exact maintains_transaction (fun m => m.renameNameBinding oldName newName) pure edit
    fun _ => Maintains.pure _

/-- Whatever may fail: however such a call ends, it has made some of its edits and nothing else. -/
theorem safe_call {call : EngineCall} (only : call.OnlyEdits) :
    Safe (engineMachine f fails) (fun _ t => s.Edited (call.Edits env) t) (s.Edited (call.Edits env))
      (call.run env) s := by
  suffices all : Maintains (engineMachine f fails) (s.Edited (call.Edits env)) (call.run env) from
    all s (.refl _ s)
  cases call with
  | put | gc => exact only.elim
  | get target version =>
    apply Maintains.bind
    · exact Maintains.bind (maintains_query _) (maintains_extractManifestToFile env)
    · exact fun _ => Maintains.pure _
  | createSnapshot label =>
    exact Maintains.bind (maintains_createSnapshot label fun _ _ h => h) fun _ => Maintains.pure _
  | restoreSnapshot label =>
    apply Maintains.bind
    · apply Maintains.bind (maintains_query _)
      intro snapshot
      apply Maintains.forEach
      intro written entry _
      apply Maintains.bind
      · apply Maintains.bind (maintains_query _)
        intro manifest
        split
        · exact .throw _
        · exact Maintains.bind (maintains_extractManifestToFile env manifest) fun _ => Maintains.pure _
      · exact fun _ => Maintains.pure _
    · exact fun _ => Maintains.pure _
  | deleteSnapshot label =>
    apply Maintains.bind
    · exact maintains_transaction (fun m => m.deleteSnapshot (Text.trim label)) pure (fun _ => rfl)
        fun _ => Maintains.pure _
    · exact fun _ => Maintains.pure _
  | delete name =>
    exact Maintains.bind (maintains_deleteNamed _ fun _ => rfl) fun _ => Maintains.pure _
  | deletePrefix start =>
    apply Maintains.bind
    · apply Maintains.bind (maintains_query _)
      intro files
      apply Maintains.forEach
      intro count file _
      split
      · exact Maintains.bind (maintains_deleteNamed _ fun _ => ⟨_, rfl⟩) fun _ => Maintains.pure _
      · exact .pure _
    · exact fun _ => Maintains.pure _
  | unbind name =>
    apply Maintains.bind
    · exact maintains_transaction (fun m => m.unbindName (Text.trim name))
        (fun id => pure id.isSome) (fun _ => rfl) fun _ => Maintains.pure _
    · exact fun _ => Maintains.pure _
  | rename oldName newName =>
    have renames := @maintains_renameFile f fails ((EngineCall.rename oldName newName).Edits env) s
      oldName newName fun _ => rfl
    simp only [EngineCall.run]
    -- the check of the new name is not to be evaluated
    generalize renameFile oldName newName = p at renames
    exact Maintains.bind renames fun _ => Maintains.pure _
  | updateWatchedPrefix watchRoot source target included =>
    apply Maintains.bind
    · intro t ht
      unfold StorageEngine.updateWatchedPrefix
      rw [safe_bind]
      apply safe_tables
      · rw [thenSafe_ok, safe_bind, safe_ofExcept]
        cases moved : t.metadataStore.updateWatchedPrefix watchRoot source target included with
        | error e => exact ht
        | ok found =>
          rw [thenSafe_ok, safe_bind]
          have next := ht.edit ⟨found.1, moved⟩
          exact safe_commit ht next next fun _ => ht
      · exact fun _ => ht
    · exact fun _ => Maintains.pure _
  | markWatcherFile watchRoot logicalName =>
    intro t ht
    exact safe_edit ht rfl
  | prune name keepLastN =>
    exact Maintains.bind (maintains_pruneFileVersions name keepLastN fun _ _ h => h) fun _ => Maintains.pure _
  | pruneAll keepLastN =>
    apply Maintains.bind
    · apply Maintains.bind (maintains_query _)
      intro files
      apply Maintains.forEach
      intro total file _
      exact Maintains.bind (maintains_pruneFileVersions _ keepLastN fun _ _ h => ⟨_, h⟩) fun _ => Maintains.pure _
    · exact fun _ => Maintains.pure _
  | rollback name v writes =>
    have rollsBack := @maintains_rollbackFile f fails ((EngineCall.rollback name v writes).Edits env) s env
      name v writes fun _ _ h => h
    simp only [EngineCall.run]
    generalize rollbackFile env name v writes = p at rollsBack
    exact Maintains.bind rollsBack fun _ => Maintains.pure _

end Calls

end StorageEngine

end OosLite
