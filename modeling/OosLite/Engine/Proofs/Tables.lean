import OosLite.Engine.Proofs.Edits
import OosLite.Engine.Proofs.MovedNames
import OosLite.Metadata.Proofs.Codecs

/-!
# What a run does to the tables

Whatever happens to a store, its tables change by single transactions only: the edits of the calls,
those of a put or of a replay, and the deletions of the garbage collection.  So what each of them
keeps holds of the tables of every state of every run, whatever fails or crashes on the way.
-/

namespace OosLite

open Files Effect Relation

/-- One transaction of any call, or of the recovery. -/
inductive MetadataStore.Transaction (env : Env) (m m' : MetadataStore) : Prop where
  | edit (call : EngineCall) : call.OnlyEdits → call.Edits env m m' → Transaction env m m'
  | saveManifest (manifest : Manifest) : m' = (m.saveManifest env manifest).2 → Transaction env m m'
  | addVersion (put : WalPutPayload) : m.putVersion put = .ok m' → Transaction env m m'
  | bindName (name : String) (id : ObjectId) : m' = m.bindName name id → Transaction env m m'
  | deleteManifest (id : String) : m' = m.deleteManifest id → Transaction env m m'

/-- One transaction of a put, or of the recovery. -/
inductive MetadataStore.Writes (env : Env) (m m' : MetadataStore) : Prop where
  | saveManifest (manifest : Manifest) : m' = (m.saveManifest env manifest).2 → Writes env m m'
  | addVersion (put : WalPutPayload) : m.putVersion put = .ok m' → Writes env m m'
  | bindName (name : String) (id : ObjectId) : m' = m.bindName name id → Writes env m m'

theorem MetadataStore.Writes.transaction {env : Env} {m m' : MetadataStore} (h : m.Writes env m') :
    m.Transaction env m' := by
  cases h with
  | saveManifest manifest same => exact .saveManifest manifest same
  | addVersion put added => exact .addVersion put added
  | bindName name id same => exact .bindName name id same

theorem EngineCall.onlyEdits_or (call : EngineCall) : call.OnlyEdits ∨
    (∃ name file generated, call = .put name file generated) ∨ call = .gc := by
  cases call with
  | put name file generated => exact .inr (.inl ⟨name, file, generated, rfl⟩)
  | gc => exact .inr (.inr rfl)
  | _ => exact .inl True.intro

namespace StorageEngine

section Programs

variable {f : Faults} {fails : Prop} {env : Env} {m : MetadataStore} {α : Type}
  {R : MetadataStore → MetadataStore → Prop}

/-- The tables of a state come from those tables by such transactions. -/
def TablesBy (R : MetadataStore → MetadataStore → Prop) (m : MetadataStore) (s : StorageEngine) :
    Prop :=
  ReflTransGen R m s.metadataStore

theorem tables_segments (p : SegProg α) :
    Maintains (engineMachine f fails) (TablesBy R m) (segments p) := by
  intro t ht
  apply safe_segments
  apply (safe_trivial p t.segmentStore).mono
  · intro r g _
    exact ht
  · intro g _
    exact ht

theorem tables_log (p : WalProg α) :
    Maintains (engineMachine f fails) (TablesBy R m) (log p) := by
  intro t ht
  apply safe_log
  apply (safe_trivial p t.wal).mono
  · intro r w _
    exact ht
  · intro w _
    exact ht

theorem tables_update {g : MetadataStore → MetadataStore}
    (h : ∀ m, R m (g m)) :
    Maintains (engineMachine f fails) (TablesBy R m) (update g) := by
  intro t ht
  exact safe_update ht (ht.tail (h _)) (ht.tail (h _)) fun _ => ht

section Writing

variable (writes : ∀ m m', MetadataStore.Writes env m m' → R m m')

include writes

theorem tables_addVersion (put : WalPutPayload) :
    Maintains (engineMachine f fails) (TablesBy R m) (addVersion put) := by
  apply maintains_query_bind
  intro t found ht known
  simp only
  apply safe_when
  · intro new
    have added : t.metadataStore.putVersion put = .ok (t.metadataStore.putObject
        { found.getD { objectId := put.objectId, latestVersion := put.version, versions := [] } with
          latestVersion := put.version
          versions := (found.getD
            { objectId := put.objectId, latestVersion := put.version, versions := [] }).versions ++
            [{ version := put.version
               manifestId := put.manifest.contentId
               createdAt := put.manifest.createdAt
               sizeBytes := put.manifest.totalSize }] }) := by
      unfold MetadataStore.putVersion
      rw [known]
      exact if_neg new
    have next := ht.tail (writes _ _ (.addVersion put added))
    exact safe_update ht next next fun _ => ht
  · exact fun _ => ht

theorem tables_storePut (put : WalPutPayload) :
    Maintains (engineMachine f fails) (TablesBy R m) (storePut env put) := by
  apply Maintains.bind
  · exact tables_update fun m => writes _ _ (.saveManifest put.manifest rfl)
  · intro _
    apply Maintains.bind (tables_addVersion writes put)
    intro _
    exact tables_update fun m => writes _ _ (.bindName put.name put.objectId rfl)

omit writes in
theorem tables_stableRead (readings : List Reading) :
    Maintains (engineMachine f fails) (TablesBy R m) (stableRead env readings) := by
  induction readings with
  | nil => exact .throw _
  | cons r rest ih =>
    apply Maintains.bind
    · apply Maintains.bind
      · apply Maintains.forEach
        intro count data _
        exact Maintains.bind (tables_segments _) fun _ => .pure _
      · intro newChunks
        split
        · exact .pure _
        · exact .throw _
    · intro newChunks
      split
      · exact .pure _
      · exact ih

theorem tables_putFileNamed (name : String) (file : SourceFile) (generated : ObjectId) :
    Maintains (engineMachine f fails) (TablesBy R m) (putFileNamed env name file generated) := by
  unfold putFileNamed
  extract_lets name
  generalize validateLogicalName name = valid
  refine Maintains.bind (.ofExcept valid) fun _ => ?_
  split
  · exact .throw _
  apply Maintains.bind (tables_stableRead _)
  intro read
  apply Maintains.bind (tables_segments _)
  intro _
  apply Maintains.bind maintains_now
  intro createdAt
  apply Maintains.bind (maintains_query _)
  intro target
  apply Maintains.bind (tables_log _)
  intro lsn
  apply Maintains.bind (tables_storePut writes _)
  intro _
  exact Maintains.bind (tables_log _) fun _ => .pure _

theorem tables_replayPut (put : WalPutPayload) :
    Maintains (engineMachine f fails) (TablesBy R m) (replayPut env put) := by
  apply Maintains.bind
  · apply Maintains.forEach
    intro _ chunk _
    apply Maintains.bind (tables_segments _)
    intro there
    apply Maintains.when
    apply Maintains.bind (tables_segments _)
    intro actual
    exact Maintains.when (.throw _)
  · intro _
    apply Maintains.bind (tables_segments _)
    intro _
    apply Maintains.bind
    · apply Maintains.forEach
      intro _ id _
      apply Maintains.bind (tables_segments _)
      intro there
      exact Maintains.when (.throw _)
    · exact fun _ => tables_storePut writes _

theorem tables_replayRecord (maxLsn : UInt64) (record : WalRecord) :
    Maintains (engineMachine f fails) (TablesBy R m) (replayRecord env maxLsn record) := by
  unfold replayRecord
  cases record.payload with
  | putObject put => exact Maintains.bind (tables_replayPut writes put) fun _ => Maintains.pure _
  | checkpoint lsn => exact Maintains.pure _

theorem tables_openInternal :
    Maintains (engineMachine f fails) (TablesBy R m) (openInternal env) := by
  apply Maintains.bind (tables_segments _)
  intro _
  apply Maintains.bind (tables_log _)
  intro _
  apply Maintains.bind (tables_log _)
  intro uncheckpointed
  apply Maintains.when
  apply Maintains.bind (tables_log _)
  intro wal
  apply Maintains.bind
  · apply Maintains.forEach
    intro maxLsn record _
    exact tables_replayRecord writes maxLsn record
  · exact fun _ => tables_log _

end Writing

/-- A collection deletes only manifests that its mark phase did not find. -/
theorem safe_gc_tables {s : StorageEngine} (sweeps : ∀ marked, mark env s.metadataStore = .ok marked →
    ∀ m id, id ∉ marked.manifests → R m (m.deleteManifest id)) :
    Safe (engineMachine f fails) (fun _ t => TablesBy R s.metadataStore t)
      (TablesBy R s.metadataStore) (gc env) s := by
  have start : TablesBy R s.metadataStore s := .refl
  unfold gc
  rw [safe_bind]
  apply safe_query
  · cases found : mark env s.metadataStore with
    | error e => exact start
    | ok marked =>
      rw [thenSafe_ok]
      suffices all : Maintains (engineMachine f fails) (TablesBy R s.metadataStore)
          (sweep env marked) from all s start
      apply Maintains.bind (maintains_query _)
      intro ids
      apply Maintains.bind
      · apply Maintains.forEach
        intro count id _
        by_cases there : id ∈ marked.manifests
        · rw [if_pos there]
          exact .pure _
        · rw [if_neg there]
          apply Maintains.bind
          · exact tables_update fun m => sweeps marked found m id there
          · exact fun _ => .pure _
      · intro manifestsReclaimed
        apply Maintains.bind (tables_segments _)
        intro chunksReclaimed
        exact Maintains.bind (tables_segments _) fun _ => .pure _
  · exact fun _ => start

theorem safe_call_tables {call : EngineCall} {s : StorageEngine}
    (writes : ∀ m m', MetadataStore.Writes env m m' → R m m')
    (edits : call.OnlyEdits → ∀ m m', call.Edits env m m' → R m m')
    (sweeps : ∀ marked, mark env s.metadataStore = .ok marked →
      ∀ m id, id ∉ marked.manifests → R m (m.deleteManifest id)) :
    Safe (engineMachine f fails) (fun _ t => TablesBy R s.metadataStore t)
      (TablesBy R s.metadataStore) (call.run env) s := by
  rcases call.onlyEdits_or with only | ⟨name, file, generated, rfl⟩ | rfl
  · have each {t : StorageEngine} (h : s.Edited (call.Edits env) t) :
        TablesBy R s.metadataStore t := by
      obtain ⟨m', rfl, run⟩ := h
      exact ReflTransGen.mono (edits only) _ _ run
    exact (safe_call only).mono (fun _ _ h => each h) fun _ h => each h
  · have puts := @tables_putFileNamed f fails env s.metadataStore R writes name file generated
    simp only [EngineCall.run]
    generalize putFileNamed env name file generated = p at puts ⊢
    exact Maintains.bind puts (fun _ => Maintains.pure _) s .refl
  · unfold EngineCall.run
    rw [safe_bind]
    apply (safe_gc_tables sweeps).mono ?_ fun _ crash => crash
    intro r t kept
    cases r with
    | ok _ => exact kept
    | error e => exact kept

end Programs

end StorageEngine

open StorageEngine in
/-- The tables of a run change by the edits of its calls, by what puts and the recovery write, and by
what a collection sweeps. -/
theorem EngineStep.tablesBy {env : Env} {R : MetadataStore → MetadataStore → Prop}
    {run run' : EngineRun} {act : EngineAct} (h : EngineStep env run act run')
    (writes : ∀ m m', MetadataStore.Writes env m m' → R m m')
    (edits : ∀ call, act.call? = some call → call.OnlyEdits →
      ∀ m m', call.Edits env m m' → R m m')
    (sweeps : ∀ marked, mark env run.phase.tables = .ok marked →
      ∀ m id, id ∉ marked.manifests → R m (m.deleteManifest id)) :
    ReflTransGen R run.phase.tables run'.phase.tables := by
  obtain ⟨phase, history⟩ := run
  obtain ⟨step⟩ := h
  have tablesBy {d : Disk} {s : StorageEngine} (starts : s.Starts d) : TablesBy R d.tables s := by
    unfold TablesBy
    rw [starts.tables]
  simp only at step ⊢
  cases step with
  | opened starts returned =>
    exact (tables_openInternal writes _ (tablesBy starts)).returns returned
  | openFailed starts returned =>
    exact (tables_openInternal writes _ (tablesBy starts)).returns returned
  | openCrashed starts crashed cut =>
    simp only [EnginePhase.tables, cut.tables]
    exact (tables_openInternal writes _ (tablesBy starts)).crashes crashed
  | returned returned => exact (safe_call_tables writes (edits _ rfl) sweeps).returns returned
  | crashed crashed cut =>
    simp only [EnginePhase.tables, cut.tables]
    exact (safe_call_tables writes (edits _ rfl) sweeps).crashes crashed
  | powerCut cut =>
    simp only [EnginePhase.tables, cut.tables]
    exact .refl
  | downCut cut =>
    simp only [EnginePhase.tables, cut.tables]
    exact .refl
  | closed => exact .refl

/-- The tables of a run change by transactions only. -/
theorem EngineStep.tables {env : Env} {run run' : EngineRun} {act : EngineAct}
    (h : EngineStep env run act run') :
    ReflTransGen (MetadataStore.Transaction env) run.phase.tables run'.phase.tables := by
  apply h.tablesBy
  · exact fun m m' write => write.transaction
  · exact fun call _ only m m' edit => .edit call only edit
  · exact fun marked _ m id _ => .deleteManifest id rfl

/-- No edit touches the manifests. -/
theorem EngineCall.Edits.manifests {env : Env} {call : EngineCall} {m m' : MetadataStore}
    (edit : call.Edits env m m') (only : call.OnlyEdits) : m'.manifests = m.manifests := by
  have deletes (name : String) : (m.deleteNamedObject name).2.manifests = m.manifests := by
    unfold MetadataStore.deleteNamedObject
    cases m.resolveName name with
    | none => rfl
    | some id => rfl
  cases call with
  | put | gc => exact only.elim
  | get | restoreSnapshot => exact edit.elim
  | createSnapshot label =>
    obtain ⟨named, createdAt, -, -, -, rfl⟩ := edit
    rfl
  | deleteSnapshot label =>
    obtain rfl := edit
    rfl
  | delete name =>
    obtain rfl := edit
    exact deletes _
  | deletePrefix start =>
    obtain ⟨name, rfl⟩ := edit
    exact deletes name
  | unbind name =>
    obtain rfl := edit
    rfl
  | rename oldName newName =>
    obtain rfl := edit
    unfold MetadataStore.renameNameBinding
    split
    · rfl
    · rfl
  | updateWatchedPrefix watchRoot source target included =>
    obtain ⟨changes, moved⟩ := edit
    obtain ⟨-, -, -, -, rfl⟩ := MetadataStore.updateWatchedPrefix_ok moved
    exact MetadataStore.updateWatcherBindings_manifests _ _ _
  | markWatcherFile watchRoot logicalName =>
    obtain rfl := edit
    rfl
  | prune name keepLastN =>
    obtain ⟨id, record, -, -, -, rfl⟩ := edit
    rfl
  | pruneAll keepLastN =>
    obtain ⟨name, id, record, -, -, -, rfl⟩ := edit
    rfl
  | rollback name v writes =>
    obtain ⟨id, record, entry, manifest, createdAt, -, -, -, -, -, rfl⟩ := edit
    rfl

/-- Nor does a new version of an object. -/
theorem MetadataStore.putVersion_manifests {m m' : MetadataStore} {put : WalPutPayload}
    (added : m.putVersion put = .ok m') : m'.manifests = m.manifests := by
  unfold putVersion at added
  obtain ⟨found, -, added⟩ := Result.bind_eq_ok.1 added
  generalize found.getD _ = record at added
  by_cases listed : (record.versions.any fun v => v.version = put.version) = true
  · rw [if_pos listed] at added
    cases added
    rfl
  · rw [if_neg listed] at added
    cases added
    rfl

/-! ## Records that can be read -/

/-- Every manifest identifier of a record has room in its binary form. -/
def ObjectRecord.IdsFit (r : ObjectRecord) : Prop :=
  ∀ v ∈ r.versions, (Text.utf8 v.manifestId).length < 2 ^ 16

/-- A record is read back with as many of its versions as its counter tells. -/
theorem ObjectRecord.fromBytes_toBytes_take {r : ObjectRecord} (h : r.IdsFit) :
    ObjectRecord.fromBytes r.toBytes =
      .ok { r with versions := r.versions.take (r.versions.length % 2 ^ 32) } := by
  have count : (r.versions.take (r.versions.length % 2 ^ 32)).length =
      r.versions.length % 2 ^ 32 := by
    rw [List.length_take, Nat.min_eq_left (Nat.mod_le _ _)]
  have counter : UInt32.ofNat (r.versions.length % 2 ^ 32) = UInt32.ofNat r.versions.length := by
    rw [← UInt32.toNat_inj]
    simp
  have front : r.toBytes = ObjectRecord.toBytes
      { r with versions := r.versions.take (r.versions.length % 2 ^ 32) } ++
        (r.versions.drop (r.versions.length % 2 ^ 32)).flatMap ObjectVersion.toBytes := by
    simp only [ObjectRecord.toBytes, count, counter, List.append_assoc, ← List.flatMap_append,
      List.take_append_drop]
  rw [front]
  apply ObjectRecord.fromBytes_toBytes_append ⟨?_, fun v there => h v (List.mem_of_mem_take there)⟩
  rw [count]
  exact Nat.mod_lt _ (by decide)

namespace MetadataStore

variable {env : Env} {m m' : MetadataStore}

theorem idsFit_of_getObject {id : ObjectId} {r : ObjectRecord}
    (h : m.getObject id = .ok (some r)) : r.IdsFit := by
  unfold getObject at h
  cases stored : m.objects[id]? with
  | none =>
    rw [stored] at h
    cases h
  | some value =>
    rw [stored] at h
    obtain ⟨r', decoded, h⟩ := Result.bind_eq_ok.1 h
    cases h
    exact (ObjectRecord.fromBytes_fits decoded).manifestId

/-- A version of an object has this manifest. -/
def ObjectRoot (m : MetadataStore) (id : String) : Prop :=
  ∃ oid record, m.getObject oid = .ok (some record) ∧
    id ∈ record.versions.map ObjectVersion.manifestId

theorem objectRoot_of_mem {id : ObjectId} {r : ObjectRecord} {v : ObjectVersion}
    (found : m.getObject id = .ok (some r)) (there : v ∈ r.versions) :
    m.ObjectRoot v.manifestId := ⟨id, r, found, List.mem_map.2 ⟨v, there, rfl⟩⟩

theorem idsFit_of_objectRoot {r : ObjectRecord} (h : ∀ v ∈ r.versions, m.ObjectRoot v.manifestId) :
    r.IdsFit := by
  intro v there
  obtain ⟨id, record, found, listed⟩ := h v there
  obtain ⟨u, hu, same⟩ := List.mem_map.1 listed
  rw [← same]
  exact idsFit_of_getObject found u hu

/-- What an edit makes of the table of objects. -/
theorem objects_of_edit {call : EngineCall} (edit : call.Edits env m m') (only : call.OnlyEdits) :
    m'.objects = m.objects ∨ (∃ id, m'.objects = m.objects.erase id) ∨
      ∃ r : ObjectRecord, (∀ v ∈ r.versions, m.ObjectRoot v.manifestId) ∧
        m'.objects = m.objects.insert r.objectId r.toBytes := by
  have deletes (name : String) : (m.deleteNamedObject name).2.objects = m.objects ∨
      ∃ id, (m.deleteNamedObject name).2.objects = m.objects.erase id := by
    unfold deleteNamedObject
    cases m.resolveName name with
    | none => exact .inl rfl
    | some id => exact .inr ⟨id, rfl⟩
  have prunes {name : String} {keepLastN : Nat} (h : m.Prunes name keepLastN m') :
      ∃ r : ObjectRecord, (∀ v ∈ r.versions, m.ObjectRoot v.manifestId) ∧
        m'.objects = m.objects.insert r.objectId r.toBytes := by
    obtain ⟨id, record, -, found, -, rfl⟩ := h
    refine ⟨_, fun v there => ?_, rfl⟩
    exact objectRoot_of_mem found (List.mem_of_mem_drop there)
  cases call with
  | put | gc => exact only.elim
  | get | restoreSnapshot => exact edit.elim
  | createSnapshot label =>
    obtain ⟨named, createdAt, -, -, -, rfl⟩ := edit
    exact .inl rfl
  | deleteSnapshot label =>
    obtain rfl := edit
    exact .inl rfl
  | delete name =>
    obtain rfl := edit
    exact (deletes _).imp_right .inl
  | deletePrefix start =>
    obtain ⟨name, rfl⟩ := edit
    exact (deletes _).imp_right .inl
  | unbind name =>
    obtain rfl := edit
    exact .inl rfl
  | rename oldName newName =>
    obtain rfl := edit
    left
    unfold renameNameBinding
    split
    · rfl
    · rfl
  | updateWatchedPrefix watchRoot source target included =>
    obtain ⟨changes, moved⟩ := edit
    obtain ⟨-, -, -, -, rfl⟩ := updateWatchedPrefix_ok moved
    exact .inl (updateWatcherBindings_objects _ _ _)
  | markWatcherFile watchRoot logicalName =>
    obtain rfl := edit
    exact .inl rfl
  | prune name keepLastN => exact .inr (.inr (prunes edit))
  | pruneAll keepLastN =>
    obtain ⟨name, edit⟩ := edit
    exact .inr (.inr (prunes edit))
  | rollback name v writes =>
    obtain ⟨id, record, entry, manifest, createdAt, -, found, there, -, -, rfl⟩ := edit
    refine .inr (.inr ⟨_, fun u listed => ?_, rfl⟩)
    rcases List.mem_append.1 listed with listed | last
    · exact objectRoot_of_mem found listed
    · rw [List.mem_singleton.1 last]
      have root := objectRoot_of_mem found there
      exact root

/-- What a transaction makes of the table of objects. -/
theorem Transaction.objects (h : Transaction env m m') :
    m'.objects = m.objects ∨ (∃ id, m'.objects = m.objects.erase id) ∨
      ∃ r : ObjectRecord, r.IdsFit ∧ m'.objects = m.objects.insert r.objectId r.toBytes := by
  cases h with
  | edit call only edit =>
    rcases objects_of_edit edit only with same | gone | ⟨r, roots, same⟩
    · exact .inl same
    · exact .inr (.inl gone)
    · exact .inr (.inr ⟨r, idsFit_of_objectRoot roots, same⟩)
  | saveManifest manifest same =>
    subst same
    exact .inl rfl
  | addVersion put added =>
    unfold putVersion at added
    obtain ⟨found, known, added⟩ := Result.bind_eq_ok.1 added
    have fits : (found.getD
        { objectId := put.objectId, latestVersion := put.version, versions := [] }).IdsFit := by
      cases found with
      | none => exact fun v there => absurd there List.not_mem_nil
      | some record => exact idsFit_of_getObject known
    generalize found.getD _ = record at added fits
    by_cases listed : (record.versions.any fun v => v.version = put.version) = true
    · rw [if_pos listed] at added
      cases added
      exact .inl rfl
    · rw [if_neg listed] at added
      cases added
      refine .inr (.inr ⟨_, fun v there => ?_, rfl⟩)
      rcases List.mem_append.1 there with there | last
      · exact fits v there
      · rw [List.mem_singleton.1 last]
        simp
  | bindName name id same =>
    subst same
    exact .inl rfl
  | deleteManifest id same =>
    subst same
    exact .inl rfl

/-- What a transaction makes of the table of manifests. -/
theorem Transaction.manifests (h : Transaction env m m') :
    m'.manifests = m.manifests ∨ (∃ id, m'.manifests = m.manifests.erase id) ∨
      ∃ manifest : Manifest,
        m'.manifests = m.manifests.insert manifest.contentId (manifest.toBytes env) := by
  cases h with
  | edit call only edit => exact .inl (edit.manifests only)
  | saveManifest manifest same =>
    subst same
    exact .inr (.inr ⟨manifest, rfl⟩)
  | addVersion put added => exact .inl (putVersion_manifests added)
  | bindName name id same =>
    subst same
    exact .inl rfl
  | deleteManifest id same =>
    subst same
    exact .inr (.inl ⟨id, rfl⟩)

/-- Every manifest is under the digest of its content. -/
def Keyed (env : Env) (m : MetadataStore) : Prop :=
  ∀ id manifest, m.getManifest env id = .ok (some manifest) → manifest.contentId = id

theorem Keyed.transaction (h : m.Keyed env) (step : Transaction env m m') : m'.Keyed env := by
  intro id manifest found
  unfold getManifest at found
  have before (same : m'.manifests[id]? = m.manifests[id]?) : manifest.contentId = id := by
    apply h id manifest
    unfold getManifest
    rw [← same]
    exact found
  rcases step.manifests with same | ⟨id', same⟩ | ⟨saved, same⟩
  · exact before (by rw [same])
  · by_cases gone : compare id' id = .eq
    · rw [same, Std.ExtTreeMap.getElem?_erase, if_pos gone] at found
      cases found
    · exact before (by rw [same, Std.ExtTreeMap.getElem?_erase, if_neg gone])
  · by_cases own : compare saved.contentId id = .eq
    · rw [same, Std.ExtTreeMap.getElem?_insert, if_pos own] at found
      obtain ⟨manifest', decoded, found⟩ := Result.bind_eq_ok.1 found
      cases found
      rw [← Std.LawfulEqCmp.eq_of_compare own, Manifest.contentId, Manifest.contentId,
        Manifest.contentHash_of_fromBytes decoded]
    · exact before (by rw [same, Std.ExtTreeMap.getElem?_insert, if_neg own])

/-- Every record of the table can be read. -/
def Legible (m : MetadataStore) : Prop :=
  ∀ id : ObjectId, ∀ value, m.objects[id]? = some value → ∃ r, ObjectRecord.fromBytes value = .ok r

theorem Legible.transaction (h : m.Legible) (step : Transaction env m m') : m'.Legible := by
  intro id value there
  rcases step.objects with same | ⟨id', same⟩ | ⟨r, fits, same⟩
  · rw [same] at there
    exact h id value there
  · rw [same, Std.ExtTreeMap.getElem?_erase] at there
    split at there
    · cases there
    · exact h id value there
  · rw [same, Std.ExtTreeMap.getElem?_insert] at there
    split at there
    · cases there
      exact ⟨_, ObjectRecord.fromBytes_toBytes_take fits⟩
    · exact h id value there

theorem Legible.readable (h : m.Legible) : m.Readable := by
  intro name id _
  unfold getObject
  cases stored : m.objects[id]? with
  | none => exact ⟨none, rfl⟩
  | some value =>
    obtain ⟨r, decoded⟩ := h id value stored
    exact ⟨some r, by simp [decoded, bind, Except.bind, pure, Except.pure]⟩

/-- What is found of a record that was put: as many of its versions as its counter tells. -/
theorem getObject_putObject {r : ObjectRecord} (h : r.IdsFit) (id : ObjectId) :
    (m.putObject r).getObject id = if r.objectId = id then
      .ok (some { r with versions := r.versions.take (r.versions.length % 2 ^ 32) })
      else m.getObject id := by
  have entry : (m.putObject r).objects[id]? =
      if r.objectId = id then some r.toBytes else m.objects[id]? := by
    show (m.objects.insert r.objectId r.toBytes)[id]? = _
    rw [Std.ExtTreeMap.getElem?_insert]
    simp only [Std.LawfulEqCmp.compare_eq_iff_eq]
  unfold getObject
  rw [entry]
  by_cases same : r.objectId = id
  · rw [if_pos same, if_pos same]
    simp only [ObjectRecord.fromBytes_toBytes_take h]
    rfl
  · rw [if_neg same, if_neg same]

/-- Every record is under its own identifier. -/
def Owned (m : MetadataStore) : Prop :=
  ∀ id r, m.getObject id = .ok (some r) → r.objectId = id

theorem Owned.transaction (h : m.Owned) (step : Transaction env m m') : m'.Owned := by
  have congr {m₁ : MetadataStore} (same : m₁.objects = m.objects) : m₁.Owned := by
    intro id r found
    apply h id r
    unfold getObject at found ⊢
    rw [← same]
    exact found
  rcases step.objects with same | ⟨id', same⟩ | ⟨r', fits, same⟩
  · exact congr same
  · intro id r found
    apply h id r
    unfold getObject at found ⊢
    rw [same, Std.ExtTreeMap.getElem?_erase] at found
    by_cases gone : compare id' id = .eq
    · rw [if_pos gone] at found
      cases found
    · rw [if_neg gone] at found
      exact found
  · have put : ∀ id, m'.getObject id = (m.putObject r').getObject id := by
      intro id
      unfold getObject
      rw [same]
      rfl
    intro id r found
    rw [put, getObject_putObject fits] at found
    by_cases own : r'.objectId = id
    · rw [if_pos own] at found
      cases found
      exact own
    · rw [if_neg own] at found
      exact h id r found

end MetadataStore

/-- What every transaction keeps holds of the tables of every run from a new store. -/
theorem EngineReachable.tables {env : Env} {allowed : EngineRun → EngineAct → Prop}
    {I : MetadataStore → Prop} (new : I .empty)
    (keeps : ∀ m m', MetadataStore.Transaction env m m' → I m → I m') {run : EngineRun}
    (h : EngineReachable env allowed run) : I run.phase.tables := by
  induction h with
  | start => exact new
  | step _ step _ ih =>
    have all {m m' : MetadataStore} (before : I m)
        (steps : ReflTransGen (MetadataStore.Transaction env) m m') : I m' := by
      induction steps with
      | refl => exact before
      | tail _ transaction ih => exact keeps _ _ transaction ih
    exact all ih step.tables

/-- In every run every record can be read. -/
theorem EngineReachable.legible {env : Env} {allowed : EngineRun → EngineAct → Prop}
    {run : EngineRun} (h : EngineReachable env allowed run) : run.phase.tables.Legible := by
  apply h.tables
  · intro id value there
    simp [MetadataStore.empty] at there
  · exact fun m m' step legible => legible.transaction step

/-- In every run every record is under its own identifier. -/
theorem EngineReachable.owned {env : Env} {allowed : EngineRun → EngineAct → Prop}
    {run : EngineRun} (h : EngineReachable env allowed run) : run.phase.tables.Owned := by
  apply h.tables
  · intro id r found
    simp [MetadataStore.getObject, MetadataStore.empty] at found
  · exact fun m m' step owned => owned.transaction step

/-- In every run every manifest is under the digest of its content. -/
theorem EngineReachable.keyed {env : Env} {allowed : EngineRun → EngineAct → Prop}
    {run : EngineRun} (h : EngineReachable env allowed run) : run.phase.tables.Keyed env := by
  apply h.tables
  · intro id manifest found
    simp [MetadataStore.getManifest, MetadataStore.empty] at found
  · exact fun m m' step keyed => keyed.transaction step

end OosLite
