import OosLite.Engine.Proofs.Lookups
import OosLite.Engine.Proofs.Snapshots
import OosLite.Engine.Proofs.Storing

/-!
# Snapshots over runs

In every later state a snapshot is read as it was created, until it is deleted, and its manifests
are extracted to the same contents.
-/

namespace OosLite

open Files Effect Relation StorageEngine

/-- A run goes on with steps that meet a condition. -/
def EngineSteps (env : Env) (allowed : EngineRun → EngineAct → Prop) :
    EngineRun → EngineRun → Prop :=
  ReflTransGen fun run run' => ∃ act, EngineStep env run act run' ∧ allowed run act

/-- The label has this snapshot, and the manifests of its entries are there. -/
structure MetadataStore.HoldsSnapshot (env : Env) (label : String) (snapshot : Snapshot)
    (m : MetadataStore) : Prop where
  stored : m.getSnapshot env label = .ok (some snapshot)
  manifests : ∀ e ∈ snapshot.entries, (m.manifests[e.manifestId]?).isSome

/-- The entry is that of a bound name, with the last version of its object. -/
def MetadataStore.Captures (m : MetadataStore) (e : SnapshotEntry) : Prop :=
  ∃ record last, m.resolveName e.name = some e.objectId ∧
    m.getObject e.objectId = .ok (some record) ∧ record.latest = some last ∧
    e.version = last.version ∧ e.manifestId = last.manifestId ∧ e.sizeBytes = last.sizeBytes

/-- The step does not delete the snapshot of this label. -/
def EngineAct.LeavesSnapshot (label : String) (act : EngineAct) : Prop :=
  ∀ l, act.call? = some (.deleteSnapshot l) → Text.trim l ≠ label

/-- The manifest of an identifier is extracted to this content. -/
def StorageEngine.Extracts (env : Env) (s : StorageEngine) (id : String) (content : Bytes) : Prop :=
  ∃ manifest, s.metadataStore.getManifest env id = .ok (some manifest) ∧
    s.Gives (extractManifestToFile env manifest) (.ok content)

section Steps

variable {env : Env} {allowed : EngineRun → EngineAct → Prop} {run run' : EngineRun}

theorem EngineReachable.steps (h : EngineReachable env allowed run)
    (later : EngineSteps env allowed run run') : EngineReachable env allowed run' := by
  induction later with
  | refl => exact h
  | tail _ step ih =>
    obtain ⟨act, step, all⟩ := step
    exact ih.step step all

theorem EngineSteps.files (h : EngineSteps env allowed run run') :
    run.history.files ⊆ run'.history.files := by
  induction h with
  | refl => exact Set.Subset.rfl
  | tail _ step ih =>
    obtain ⟨act, ⟨_⟩, -⟩ := step
    exact ih.trans Set.subset_union_left

theorem EngineSteps.mono {allowed' : EngineRun → EngineAct → Prop}
    (h : EngineSteps env allowed run run') (weaker : ∀ run act, allowed run act → allowed' run act) :
    EngineSteps env allowed' run run' :=
  ReflTransGen.mono (fun _ _ ⟨act, step, all⟩ => ⟨act, step, weaker _ _ all⟩) _ _ h

theorem EngineSteps.call {s s' : StorageEngine} {g : EngineHistory} {call : EngineCall} {f : Faults}
    {r : Result Unit} (returned : Returns (engineMachine f) (call.run env) s r s')
    (all : allowed ⟨.running s, g⟩ (.returned call f)) : EngineSteps env allowed ⟨.running s, g⟩
      ⟨.running s', g.next (.returned call f) (.running s')⟩ :=
  .single ⟨_, .mk (.returned returned), all⟩

end Steps

/-! ## The tables -/

section Tables

variable {env : Env} {m m' : MetadataStore} {label : String} {snapshot : Snapshot}

theorem MetadataStore.getSnapshot_of_get (same : m'.snapshots[label]? = m.snapshots[label]?) :
    m'.getSnapshot env label = m.getSnapshot env label := by
  unfold MetadataStore.getSnapshot
  rw [same]

/-- An edit leaves a snapshot alone, unless it deletes it. -/
theorem EngineCall.Edits.getSnapshot {call : EngineCall} (edit : call.Edits env m m')
    (only : call.OnlyEdits) (leaves : ∀ l, call = .deleteSnapshot l → Text.trim l ≠ label)
    (stored : m.getSnapshot env label = .ok (some snapshot)) :
    m'.getSnapshot env label = .ok (some snapshot) := by
  rw [← stored]
  apply MetadataStore.getSnapshot_of_get
  have deletes (name : String) : (m.deleteNamedObject name).2.snapshots = m.snapshots := by
    unfold MetadataStore.deleteNamedObject
    cases m.resolveName name with
    | none => rfl
    | some id => rfl
  cases call with
  | put | gc => exact only.elim
  | get | restoreSnapshot => exact edit.elim
  | createSnapshot l =>
    obtain ⟨named, createdAt, -, free, -, rfl⟩ := edit
    have other : Text.trim l ≠ label := by
      intro same
      rw [same, stored] at free
      cases free
    show (m.snapshots.insert (Text.trim l) _)[label]? = _
    rw [Std.ExtTreeMap.getElem?_insert, if_neg (by simpa using other)]
  | deleteSnapshot l =>
    obtain rfl := edit
    have other := leaves l rfl
    show (m.snapshots.erase (Text.trim l))[label]? = _
    rw [Std.ExtTreeMap.getElem?_erase, if_neg (by simpa using other)]
  | delete name =>
    obtain rfl := edit
    rw [deletes]
  | deletePrefix start =>
    obtain ⟨name, rfl⟩ := edit
    rw [deletes]
  | unbind name =>
    obtain rfl := edit
    rfl
  | rename oldName newName =>
    obtain rfl := edit
    unfold MetadataStore.renameNameBinding
    split
    · rfl
    · rfl
  | updateWatchedPrefix watchRoot source target included =>
    obtain ⟨changes, moved⟩ := edit
    obtain ⟨-, -, -, -, rfl⟩ := MetadataStore.updateWatchedPrefix_ok moved
    rw [MetadataStore.updateWatcherBindings_snapshots]
  | markWatcherFile watchRoot logicalName =>
    obtain rfl := edit
    rfl
  | prune name keepLastN =>
    obtain ⟨id, record, -, -, -, rfl⟩ := edit
    rfl
  | pruneAll keepLastN =>
    obtain ⟨name, id, record, -, -, -, rfl⟩ := edit
    rfl
  | rollback name v writes =>
    obtain ⟨id, record, entry, manifest, createdAt, -, -, -, -, -, rfl⟩ := edit
    rfl

namespace MetadataStore.HoldsSnapshot

theorem edit {call : EngineCall} (h : m.HoldsSnapshot env label snapshot)
    (edit : call.Edits env m m') (only : call.OnlyEdits)
    (leaves : ∀ l, call = .deleteSnapshot l → Text.trim l ≠ label) :
    m'.HoldsSnapshot env label snapshot := by
  constructor
  · exact edit.getSnapshot only leaves h.stored
  · rw [edit.manifests only]
    exact h.manifests

theorem write (h : m.HoldsSnapshot env label snapshot) (write : m.Writes env m') :
    m'.HoldsSnapshot env label snapshot := by
  cases write with
  | saveManifest manifest same =>
    subst same
    refine ⟨h.stored, fun e he => ?_⟩
    show ((m.manifests.insert manifest.contentId _)[e.manifestId]?).isSome
    rw [Std.ExtTreeMap.getElem?_insert]
    split
    · rfl
    · exact h.manifests e he
  | addVersion put added =>
    have snapshots : m'.snapshots = m.snapshots := by
      rcases MetadataStore.putVersion_cases added with same | ⟨record, same⟩
      · rw [same]
      · rw [same]
        rfl
    refine ⟨?_, ?_⟩
    · rw [getSnapshot_of_get (congrArg (·[label]?) snapshots), h.stored]
    · rw [putVersion_manifests added]
      exact h.manifests
  | bindName name id same =>
    subst same
    exact ⟨h.stored, h.manifests⟩

/-- What a collection sweeps is not of the snapshot. -/
theorem sweep {marked : Marked} (h : m.HoldsSnapshot env label snapshot)
    (found : mark env m = .ok marked) (h' : m'.HoldsSnapshot env label snapshot) {id : String}
    (unmarked : id ∉ marked.manifests) : (m'.deleteManifest id).HoldsSnapshot env label snapshot := by
  refine ⟨h'.stored, fun e he => ?_⟩
  have root : m.SnapshotRoot env e.manifestId :=
    ⟨label, snapshot, h.stored, List.mem_map.2 ⟨e, he, rfl⟩⟩
  have other : id ≠ e.manifestId := by
    intro same
    rw [same] at unmarked
    exact unmarked (((mark_ok found).1 _).2 (.inr root))
  show ((m'.manifests.erase id)[e.manifestId]?).isSome
  rw [Std.ExtTreeMap.getElem?_erase, if_neg (by simpa using other)]
  exact h'.manifests e he

theorem step {run run' : EngineRun} {act : EngineAct}
    (h : run.phase.tables.HoldsSnapshot env label snapshot) (step : EngineStep env run act run')
    (leaves : act.LeavesSnapshot label) : run'.phase.tables.HoldsSnapshot env label snapshot := by
  have path : ReflTransGen (fun m m' => m.HoldsSnapshot env label snapshot →
      m'.HoldsSnapshot env label snapshot) run.phase.tables run'.phase.tables := by
    apply step.tablesBy
    · exact fun m m' write h => h.write write
    · intro call present only m m' edit h
      apply h.edit edit only
      intro l same
      rw [same] at present
      exact leaves l present
    · exact fun marked found m id unmarked h' => h.sweep found h' unmarked
  generalize run'.phase.tables = m' at path ⊢
  induction path with
  | refl => exact h
  | tail _ keeps ih => exact keeps ih

theorem steps {allowed : EngineRun → EngineAct → Prop} {run run' : EngineRun}
    (h : run.phase.tables.HoldsSnapshot env label snapshot)
    (later : EngineSteps env allowed run run')
    (leaves : ∀ run act, allowed run act → act.LeavesSnapshot label) :
    run'.phase.tables.HoldsSnapshot env label snapshot := by
  induction later with
  | refl => exact h
  | tail _ step ih =>
    obtain ⟨act, step, all⟩ := step
    exact ih.step step (leaves _ _ all)

end MetadataStore.HoldsSnapshot

end Tables

/-! ## Creation -/

section Created

variable {env : Env} {files : Set Bytes} {H K : Set ChunkId} {s s' t : StorageEngine}
  {label : String} {snapshot : Snapshot}

/-- The entries are the named objects that have a version, each with the last one. -/
theorem mem_entries {m : MetadataStore} {named : List (String × ObjectId × ObjectRecord)}
    (listing : m.listNamedObjects = .ok named) {e : SnapshotEntry} :
    e ∈ snapshotEntries named ↔ m.Captures e := by
  have spec := m.withRecords_spec m.boundNames
  unfold MetadataStore.listNamedObjects at listing
  rw [listing] at spec
  obtain ⟨-, members, -⟩ := spec
  rw [mem_snapshotEntries]
  constructor
  · intro ⟨⟨name, id, record⟩, there, last, latest, same⟩
    obtain ⟨bound, found⟩ := (members name id record).1 there
    subst same
    exact ⟨record, last, (m.mem_boundNames name id).1 bound, found, latest, rfl, rfl, rfl⟩
  · intro ⟨record, last, bound, found, latest, version, manifestId, size⟩
    have there := (members e.name e.objectId record).2 ⟨(m.mem_boundNames _ _).2 bound, found⟩
    refine ⟨_, there, last, latest, ?_⟩
    rw [← version, ← manifestId, ← size]

/-- What `create_snapshot` leaves, if the snapshot fits. -/
theorem holdsSnapshot_created (post : CreatePost env label s (.ok snapshot) s')
    (short : (Text.utf8 (Text.trim label)).length < 2 ^ 16) (fit : s.metadataStore.NamesFit)
    (rooted : s.metadataStore.Rooted) :
    s'.metadataStore.HoldsSnapshot env (Text.trim label) snapshot := by
  obtain ⟨-, ⟨named, createdAt, listing, made⟩, same⟩ := post
  have decoded : Snapshot.fromBytes env (snapshot.toBytes env) = .ok snapshot := by
    apply Snapshot.fromBytes_toBytes
    rw [made]
    exact (fits_snapshotEntries listing _ _).2 ⟨short, fit⟩
  have tables : s'.metadataStore = s.metadataStore.saveSnapshot env snapshot := by
    rw [same]
    rfl
  rw [tables]
  constructor
  · have own : (s.metadataStore.saveSnapshot env snapshot).snapshots[Text.trim label]? =
        some (snapshot.toBytes env) := by
      show (s.metadataStore.snapshots.insert snapshot.label _)[Text.trim label]? = _
      rw [made]
      simp
    unfold MetadataStore.getSnapshot
    rw [own]
    simp only [decoded]
    rfl
  · intro e he
    rw [made] at he
    obtain ⟨record, last, -, found, latest, -, id, -⟩ := (mem_entries listing).1 he
    rw [id]
    exact rooted _ (MetadataStore.objectRoot_of_mem found (List.mem_of_getLast? latest))

/-- What is in the table is extracted to the content that was stored. -/
theorem Upheld.extracts (h : Upheld env files .empty H K s)
    (distinct : NoCollision env (dataOf env files)) {id : String}
    (there : (s.metadataStore.manifests[id]?).isSome) :
    ∃ content, ContentOf env files id content ∧ s.Extracts env id content := by
  obtain ⟨manifest, content, found, own, extracts⟩ :=
    h.extract_manifest onlyMetadata_none distinct there
  refine ⟨content, own, manifest, found, ?_⟩
  exact ((extracts fun _ => True).ends (total_engineMachine _)).mono fun _ _ given => given.2

theorem ContentOf.unique {id : String} {content content' : Bytes}
    (distinct : NoCollision env (dataOf env files)) (h : ContentOf env files id content)
    (h' : ContentOf env files id content') : content = content' :=
  distinct (.inl h.1) (.inl h'.1) (FixedBytes.ext (Text.hex_injective (h.2.trans h'.2.symm)))

end Created

/-- What a snapshot promises: it is read as it was created, it has the named objects of its creation
that have a version, and their last versions are extracted to the contents they had. -/
structure SnapshotKept (env : Env) (label : String) (snapshot : Snapshot) (s s' t : StorageEngine) :
    Prop where
  read : t.Gives (getSnapshot env label) (.ok (some snapshot))
  entries : ∀ e, e ∈ snapshot.entries ↔ s.metadataStore.Captures e
  contents : ∀ e ∈ snapshot.entries, ∃ content, s'.Extracts env e.manifestId content ∧
    t.Extracts env e.manifestId content ∧
    ∀ target, Text.trim target = e.name → s'.Gives (getFileVersion env target none) (.ok content)

/-- In every run in which nothing fails but transactions, with any crashes: a snapshot that was
created keeps what it promises, until it is deleted. -/
theorem snapshot_kept {env : Env} {run : EngineRun}
    (reachable : EngineReachable env OnlyTransactionsFail run) {s : StorageEngine}
    (running : run.phase = .running s) {f : Faults} (only : f.OnlyMetadata) {label : String}
    {snapshot : Snapshot} {s' : StorageEngine}
    (created : Returns (engineMachine f) (createSnapshot env label) s (.ok snapshot) s')
    (short : (Text.utf8 (Text.trim label)).length < 2 ^ 16) (fit : s.metadataStore.NamesFit)
    {run' : EngineRun}
    (later : EngineSteps env
      (fun run act => OnlyTransactionsFail run act ∧ act.LeavesSnapshot (Text.trim label))
      ⟨.running s', run.history.next (.returned (.createSnapshot label) f) (.running s')⟩ run')
    {t : StorageEngine} (running' : run'.phase = .running t)
    (distinct : NoCollision env (dataOf env run'.history.files)) :
    SnapshotKept env label snapshot s s' t := by
  obtain ⟨phase, history⟩ := run
  simp only at running
  subst running
  -- the three moments of the run
  have first := reachable.endures fun _ _ only => only
  obtain ⟨⟨H, K, kept⟩, -⟩ := first
  have returned : Returns (engineMachine f) ((EngineCall.createSnapshot label).run env) s (.ok ()) s' :=
    returns_bind.2 (.inl ⟨snapshot, s', created, .pure _ _⟩)
  have reachable' := reachable.step (.mk (.returned returned)) only
  have second := reachable'.endures fun _ _ only => only
  have third := (reachable'.steps (later.mono fun _ _ all => all.1)).endures fun _ _ only => only
  unfold Endures at third
  rw [running'] at third
  obtain ⟨⟨H₂, K₂, kept₂⟩, -⟩ := Serving.mono second later.files
  obtain ⟨⟨H₃, K₃, kept₃⟩, -⟩ := third
  have post : CreatePost env label s (.ok snapshot) s' := (safe_createSnapshot label s).returns created
  have holds := holdsSnapshot_created post short fit (MetadataStore.rooted_of_lawful kept.changes)
  have start : (EngineRun.mk (.running s') (history.next (.returned (.createSnapshot label) f)
      (.running s'))).phase.tables.HoldsSnapshot env (Text.trim label) snapshot := holds
  have holds' : t.metadataStore.HoldsSnapshot env (Text.trim label) snapshot := by
    have last := start.steps later fun _ _ all => all.2
    rw [running'] at last
    exact last
  obtain ⟨-, ⟨named, createdAt, listing, made⟩, same⟩ := post
  have entries (e : SnapshotEntry) : e ∈ snapshot.entries ↔ s.metadataStore.Captures e := by
    rw [made]
    exact mem_entries listing
  refine ⟨?_, entries, ?_⟩
  · have given : t.Gives (getSnapshot env label) _ := gives_query _
    rw [holds'.stored] at given
    exact given
  · intro e he
    obtain ⟨content, own, extracts⟩ := kept₂.extracts distinct (holds.manifests e he)
    obtain ⟨content', own', extracts'⟩ := kept₃.extracts distinct (holds'.manifests e he)
    obtain rfl := own.unique distinct own'
    refine ⟨content, extracts, extracts', fun target trimmed => ?_⟩
    obtain ⟨record, last, bound, found, latest, -, id, -⟩ := (entries e).1 he
    have known : s'.metadataStore.targetRecord (Text.trim target) = some record := by
      rw [trimmed]
      subst same
      change s.metadataStore.targetRecord e.name = some record
      unfold MetadataStore.targetRecord
      rw [bound]
      show (s.metadataStore.getObject e.objectId).toOption.join = _
      rw [found]
      rfl
    obtain ⟨content'', own'', reads⟩ := kept₂.gives_latest distinct known latest
    rw [← id] at own''
    obtain rfl := own.unique distinct own''
    exact reads

namespace EngineSample

/-- The store with a snapshot of its file. -/
def captured : StorageEngine := (exec false answers (createSnapshot env "v1") [] reported).2

/-- The store with the file that was captured deleted, after a collection. -/
def captureLeft : StorageEngine := after (after captured (.delete "report")) .gc

/-- The store with all versions of its file pruned. -/
def emptied : StorageEngine := after reported (.prune "report" 0)

theorem namesFit_report {m : MetadataStore}
    (listed : m.listNamedObjects.map (fun named => named.map fun n => n.1) = .ok ["report"]) :
    m.NamesFit := by
  obtain ⟨named, listing, names⟩ : ∃ named, m.listNamedObjects = .ok named ∧
      named.map (fun n => n.1) = ["report"] := by
    cases listing : m.listNamedObjects with
    | error e =>
      rw [listing] at listed
      cases listed
    | ok named =>
      rw [listing] at listed
      exact ⟨named, rfl, Except.ok.inj listed⟩
  refine ⟨named, listing, ?_, ?_⟩
  · have length := congrArg List.length names
    rw [List.length_map] at length
    apply Nat.lt_of_le_of_lt (List.length_filter_le _ _)
    rw [length]
    decide
  · intro n hn _
    have there : n.1 ∈ named.map (fun n => n.1) := List.mem_map.2 ⟨n, hn, rfl⟩
    rw [names, List.mem_singleton] at there
    rw [there]
    decide +kernel

end EngineSample

/-- The snapshot of a file with two versions, after the file was deleted and a collection ran. -/
theorem snapshot_kept_sample : ∃ snapshot, snapshot.entries.map (fun e => e.name) = ["report"] ∧
    SnapshotKept EngineSample.env "v1" snapshot EngineSample.reported EngineSample.captured
      EngineSample.captureLeft := by
  obtain ⟨g, reachable, within⟩ := EngineSample.reached_reported
  have returned := returns_exec false EngineSample.answers (createSnapshot EngineSample.env "v1") []
    EngineSample.reported
  have taken : (exec false EngineSample.answers (createSnapshot EngineSample.env "v1") []
      EngineSample.reported).1.map (fun s => s.entries.map fun e => e.name) = .ok ["report"] := by
    decide +kernel
  cases done : (exec false EngineSample.answers (createSnapshot EngineSample.env "v1") []
      EngineSample.reported).1 with
  | error e =>
    rw [done] at taken
    cases taken
  | ok snapshot =>
    rw [done] at taken returned
    refine ⟨snapshot, Except.ok.inj taken, ?_⟩
    have delete := returns_exec false EngineSample.answers
      ((EngineCall.delete "report").run EngineSample.env) [] EngineSample.captured
    have collect := returns_exec false EngineSample.answers (EngineCall.gc.run EngineSample.env) []
      (EngineSample.after EngineSample.captured (.delete "report"))
    have fit : EngineSample.reported.metadataStore.NamesFit := by
      apply EngineSample.namesFit_report
      decide +kernel
    have spares (run : EngineRun) (call : EngineCall) (other : ∀ l, call ≠ .deleteSnapshot l) :
        OnlyTransactionsFail run (.returned call (Faults.all false)) ∧
          EngineAct.LeavesSnapshot (Text.trim "v1") (.returned call (Faults.all false)) := by
      refine ⟨EngineSample.onlyMetadata, ?_⟩
      intro l there
      exact absurd (Option.some.inj there) (other l)
    have first (h : EngineHistory) : EngineSteps EngineSample.env (fun run act =>
        OnlyTransactionsFail run act ∧ EngineAct.LeavesSnapshot (Text.trim "v1") act)
        ⟨.running EngineSample.captured, h⟩ _ :=
      EngineSteps.call delete (spares _ (.delete "report") fun _ same => nomatch same)
    have later (h : EngineHistory) := (first h).trans
      (EngineSteps.call collect (spares _ .gc fun _ same => nomatch same))
    apply snapshot_kept reachable rfl EngineSample.onlyMetadata returned (by decide) fit (later _) rfl
    apply EngineSample.noCollision [[7, 8], [9]]
    · simp only [EngineHistory.next, EngineAct.call?, Option.elim, EngineCall.files, Set.union_empty]
      exact within
    · decide +kernel

/-- A name whose versions are all pruned is bound and not captured. -/
theorem emptied_name_is_not_captured :
    ¬ ∀ (env : Env) (run : EngineRun) (s : StorageEngine) (f : Faults) (label : String)
      (snapshot : Snapshot) (s' : StorageEngine),
      EngineReachable env OnlyTransactionsFail run → run.phase = .running s → f.OnlyMetadata →
      Returns (engineMachine f) (createSnapshot env label) s (.ok snapshot) s' →
      (Text.utf8 (Text.trim label)).length < 2 ^ 16 → s.metadataStore.NamesFit →
      ∀ name, (s.metadataStore.resolveName name).isSome ↔ ∃ e ∈ snapshot.entries, e.name = name := by
  intro all
  obtain ⟨g, reachable, -⟩ :=
    EngineSample.reached_reported.after (.prune "report" 0) fun _ none => none.elim
  have returned := returns_exec false EngineSample.answers (createSnapshot EngineSample.env "v1") []
    EngineSample.emptied
  have taken : (exec false EngineSample.answers (createSnapshot EngineSample.env "v1") []
      EngineSample.emptied).1.map (fun s => s.entries.map fun e => e.name) = .ok [] := by
    decide +kernel
  cases done : (exec false EngineSample.answers (createSnapshot EngineSample.env "v1") []
      EngineSample.emptied).1 with
  | error e =>
    rw [done] at taken
    cases taken
  | ok snapshot =>
    rw [done] at taken returned
    have fit : EngineSample.emptied.metadataStore.NamesFit := by
      apply EngineSample.namesFit_report
      decide +kernel
    have captures := (all _ _ _ _ _ _ _ reachable rfl EngineSample.onlyMetadata returned (by decide)
      fit "report").1 (by decide +kernel)
    obtain ⟨e, he, -⟩ := captures
    have empty : snapshot.entries = [] := List.map_eq_nil_iff.1 (Except.ok.inj taken)
    rw [empty] at he
    cases he

end OosLite
