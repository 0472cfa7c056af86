import OosLite.Vfs.Proofs.Lookup
import OosLite.Engine.Proofs.Tables
import OosLite.Engine.Proofs.Snapshots
import OosLite.Engine.Execution

/-!
# The tree shows every file

A name is split at separators of either kind when the tree is built, and at slashes when a path is
followed, which also skips dots.  Where the two agree, and no two files lie in one place, every name,
every version and every entry of a snapshot is found.
-/

namespace OosLite

open VfsNodes

/-! ## What is asked of a tree -/

/-- A path leads to a file with this manifest and size. -/
def VfsNodes.ShowsFile (t : VfsNodes) (path manifestId : String) (size : UInt64) : Prop :=
  ∃ node, t.resolvePath path = some node ∧ node.kind = .regularFile ∧
    node.manifestId = some manifestId ∧ node.size = size

/-- The tree shows the last version of every name, every version of it, and every entry of every
snapshot; and the entries of its directories differ in their names. -/
structure VfsNodes.ShowsAll (env : Env) (m : MetadataStore) (t : VfsNodes) : Prop where
  current : ∀ name id record v, m.resolveName name = some id →
    m.getObject id = .ok (some record) → record.latest = some v →
    t.ShowsFile ("/current/" ++ name) v.manifestId v.sizeBytes
  history : ∀ name id record, m.resolveName name = some id →
    m.getObject id = .ok (some record) → ∀ v ∈ record.versions,
    t.ShowsFile ("/history/" ++ name ++ "@v" ++ toString v.version) v.manifestId v.sizeBytes
  snapshots : ∀ label s, m.getSnapshot env label = .ok (some s) → ∀ e ∈ s.entries,
    t.ShowsFile ("/snapshots/" ++ label ++ "/" ++ e.name) e.manifestId e.sizeBytes
  distinct : t.Distinct

/-- A name that is split alike at slashes and at separators of either kind: no backslash, no part
that is a dot or two, and something behind the last slash. -/
def PlainName (name : String) : Prop :=
  '\\' ∉ name.toList ∧ "." ∉ Text.split '/' name ∧ ".." ∉ Text.split '/' name ∧
    (Text.split '/' name).getLast? ≠ some ""

/-- A label that is one part of a path. -/
def PlainLabel (label : String) : Prop := IsStep label ∧ '/' ∉ label.toList

instance (name : String) : Decidable (PlainName name) := inferInstanceAs (Decidable (_ ∧ _))

instance (label : String) : Decidable (PlainLabel label) := inferInstanceAs (Decidable (_ ∧ _))

/-- Every snapshot of the table is read back under its label. -/
def MetadataStore.SnapshotsRead (env : Env) (m : MetadataStore) : Prop :=
  ∀ label value, m.snapshots[(label : String)]? = some value →
    ∃ s, Snapshot.fromBytes env value = .ok s ∧ s.label = label

/-- The leaves of the tree of a store lie apart. -/
def MetadataStore.LiesApart (env : Env) (m : MetadataStore) : Prop :=
  Apart (m.leaves env) (m.directories env)

/-- The names and labels of what there is to show are plain. -/
structure MetadataStore.AllPlain (env : Env) (m : MetadataStore) : Prop where
  names : ∀ named ∈ m.shownObjects, named.2.2.versions ≠ [] → PlainName named.1
  entries : ∀ s ∈ m.shownSnapshots env, ∀ e ∈ s.entries, PlainLabel s.label ∧ PlainName e.name

/-! ## Plain names -/

theorem nameParts_eq (name : String) : nameParts name =
    ((Text.split '/' name).flatMap (Text.split '\\')).filter (· ≠ "") := by
  have either : (fun c => decide (c = '/') || decide (c = '\\')) =
      fun c => (c == '/') || (c == '\\') := rfl
  unfold nameParts Text.split List.splitOn
  rw [either, Text.splitOnP_or, List.map_flatMap, List.flatMap_map]
  simp only [String.toList_ofList]

theorem PlainName.nameParts {name : String} (h : PlainName name) :
    nameParts name = FilePath.components (Text.split '/' name) := by
  have whole : (Text.split '/' name).flatMap (Text.split '\\') = Text.split '/' name := by
    have each : ∀ part ∈ Text.split '/' name, Text.split '\\' part = [part] := by
      intro part there
      obtain ⟨cs, member, rfl⟩ := List.mem_map.1 there
      have none : '\\' ∉ cs := fun backslash => h.1 (Text.of_mem_splitOnP _ member _ backslash).1
      rw [Text.split, String.toList_ofList, List.splitOn_eq_singleton none, List.map_singleton]
    rw [List.flatMap_congr each, List.flatMap_singleton']
  rw [nameParts_eq, whole]
  unfold FilePath.components
  apply List.filter_congr
  intro part there
  have dot : part ≠ "." := fun same => h.2.1 (same ▸ there)
  simp [FilePath.isNoise, dot]

/-- The steps of the path of a plain name. -/
theorem PlainName.isStep {name part : String} (h : PlainName name)
    (there : part ∈ VfsNodes.nameParts name) : IsStep part := by
  rw [h.nameParts] at there
  obtain ⟨there, noise⟩ := List.mem_filter.1 there
  refine ⟨fun same => ?_, fun same => h.2.1 (same ▸ there), fun same => h.2.2.1 (same ▸ there)⟩
  subst same
  exact absurd noise (by decide)

/-! ## What is listed -/

namespace MetadataStore

variable {env : Env} {m : MetadataStore}

theorem mem_shownObjects (legible : m.Legible) {name : String} {id : ObjectId}
    {record : ObjectRecord} : (name, id, record) ∈ m.shownObjects ↔
      m.resolveName name = some id ∧ m.getObject id = .ok (some record) := by
  obtain ⟨named, listed⟩ := listNamedObjects_isOk legible.readable
  have spec := m.withRecords_spec m.boundNames
  unfold shownObjects
  rw [listed]
  rw [listNamedObjects] at listed
  rw [listed] at spec
  rw [← mem_boundNames]
  exact spec.2.1 name id record

theorem SnapshotsRead.listSnapshots (h : m.SnapshotsRead env) :
    ∃ l, m.listSnapshots env = .ok l ∧ m.shownSnapshots env = l := by
  obtain ⟨l, listed⟩ := listSnapshots_ok fun label value there =>
    (h label value there).imp fun _ read => read.1
  exact ⟨l, listed, by rw [shownSnapshots, listed]; rfl⟩

theorem SnapshotsRead.mem_shownSnapshots (h : m.SnapshotsRead env) {label : String} {s : Snapshot}
    (got : m.getSnapshot env label = .ok (some s)) : s ∈ m.shownSnapshots env ∧ s.label = label := by
  obtain ⟨l, listed, same⟩ := h.listSnapshots
  unfold getSnapshot at got
  cases there : m.snapshots[label]? with
  | none =>
    rw [there] at got
    cases got
  | some value =>
    rw [there] at got
    obtain ⟨s', read, got⟩ := Result.bind_eq_ok.1 got
    cases got
    obtain ⟨s', read', named⟩ := h label value there
    rw [read] at read'
    cases read'
    rw [same, (of_listSnapshots_ok listed).2]
    exact ⟨⟨label, value, there, read⟩, named⟩

/-- Snapshots that are read back under their labels are listed once each. -/
theorem SnapshotsRead.nodup (h : m.SnapshotsRead env) :
    ((m.shownSnapshots env).map Snapshot.label).Nodup := by
  obtain ⟨l, listed, same⟩ := h.listSnapshots
  rw [same]
  unfold MetadataStore.listSnapshots at listed
  obtain ⟨results, read, listed⟩ := Result.bind_eq_ok.1 listed
  cases listed
  have labels {entries : List (String × Bytes)} {results : List Snapshot}
      (each : ∀ e ∈ entries, ∃ s, Snapshot.fromBytes env e.2 = .ok s ∧ s.label = e.1)
      (read : (entries.mapM fun e => Snapshot.fromBytes env e.2) = .ok results) :
      results.map Snapshot.label = entries.map Prod.fst := by
    induction entries generalizing results with
    | nil =>
      cases read
      rfl
    | cons e entries ih =>
      rw [List.mapM_cons] at read
      obtain ⟨s, first, read⟩ := Result.bind_eq_ok.1 read
      obtain ⟨rest, later, read⟩ := Result.bind_eq_ok.1 read
      cases read
      obtain ⟨s', first', named⟩ := each e List.mem_cons_self
      rw [first] at first'
      cases first'
      rw [List.map_cons, List.map_cons, named,
        ih (fun e there => each e (List.mem_cons_of_mem _ there)) later]
  have keys := labels (fun e there => h e.1 e.2 (mem_snapshots.1 there)) read
  apply ((List.mergeSort_perm results _).map _).nodup_iff.2
  rw [keys, List.Nodup, List.pairwise_map]
  apply Std.ExtTreeMap.distinct_keys_toList.imp
  intro a b other same
  exact other (Std.LawfulEqCmp.compare_eq_iff_eq.2 same)

end MetadataStore

/-! ## What is found -/

section Found

variable {t : VfsNodes} {leaves : List Leaf} {dirs : List (List String)}

/-- A path whose parts are those of a file of the tree leads to it. -/
theorem showsFile_of_leaf (built : t.Built leaves dirs) (apart : Apart leaves dirs) {leaf : Leaf}
    (member : leaf ∈ leaves) (kind : leaf.kind = .regularFile) {manifestId : String}
    (manifest : leaf.manifestId = some manifestId) {path : String}
    (parts : FilePath.components (Text.split '/' path) = leaf.path)
    (steps : ∀ part ∈ leaf.path, IsStep part) : t.ShowsFile path manifestId leaf.size := by
  have distinct := (distinct_iff_apart built).2 apart
  obtain ⟨shown, rfl, laid, -⟩ := built
  obtain ⟨e, listed, rfl⟩ := List.mem_map.1 member
  obtain ⟨⟨node, found, sameKind, size, id, there⟩, -⟩ := laid.leaf e listed
  obtain ⟨root, begins, -, -⟩ := laid.sound.root
  have noLink : node.kind ≠ .symlink := by
    rw [sameKind, kind]
    decide
  have one := distinct.oneNode laid.sound
  refine ⟨node, ?_, sameKind.trans kind, id.trans manifest, size⟩
  rw [resolvePath_eq begins, parts]
  exact one.foldlM laid.sound begins found there steps noLink

theorem components_append (s t : String) :
    FilePath.components (Text.split '/' (s ++ "/" ++ t)) =
      FilePath.components (Text.split '/' s) ++ FilePath.components (Text.split '/' t) := by
  rw [String.append_assoc, Text.split_append]
  exact List.filter_append ..

theorem components_label {label : String} (plain : PlainLabel label) :
    FilePath.components (Text.split '/' label) = [label] := by
  rw [Text.split, List.splitOn_eq_singleton plain.2, List.map_singleton, String.ofList_toList]
  simp [FilePath.components, FilePath.isNoise, plain.1.1, plain.1.2.1]

/-- The parts of a plain name, with something behind the last of them. -/
theorem PlainName.components_append {name suffix : String} (plain : PlainName name)
    (whole : '/' ∉ suffix.toList) : ∃ above leafFile,
      VfsNodes.nameParts name = above ++ [leafFile] ∧ (leafFile ++ suffix ≠ "." →
        FilePath.components (Text.split '/' (name ++ suffix)) = above ++ [leafFile ++ suffix]) := by
  obtain ⟨before, last, first, after, parts, parts', both⟩ :=
    Text.splitOn_append '/' name.toList suffix.toList
  rw [List.splitOn_eq_singleton whole] at parts'
  obtain ⟨rfl, rfl⟩ := List.cons.inj parts'
  have split : Text.split '/' name = before.map String.ofList ++ [String.ofList last] := by
    rw [Text.split, parts, List.map_append, List.map_singleton]
  have nonempty : String.ofList last ≠ "" := by
    intro empty
    apply plain.2.2.2
    rw [split, empty, List.getLast?_concat]
  have dot : String.ofList last ≠ "." := by
    intro dot
    apply plain.2.1
    rw [split, dot]
    exact List.mem_append_right _ (List.mem_singleton_self _)
  refine ⟨FilePath.components (before.map String.ofList), String.ofList last, ?_, fun other => ?_⟩
  · rw [plain.nameParts, split]
    simp [FilePath.components, FilePath.isNoise, nonempty, dot]
  · have cut : Text.split '/' (name ++ suffix) =
        before.map String.ofList ++ [String.ofList last ++ suffix] := by
      rw [Text.split, String.toList_append, both, List.map_append, List.map_singleton]
      simp [String.ofList_append]
    have nonempty' : String.ofList last ++ suffix ≠ "" := by
      intro empty
      exact nonempty (String.append_eq_empty_iff.1 empty).1
    rw [cut]
    simp [FilePath.components, FilePath.isNoise, nonempty', other]

theorem PlainName.nameParts_ne_nil {name : String} (plain : PlainName name) :
    VfsNodes.nameParts name ≠ [] := by
  have nothing : '/' ∉ "".toList := by decide
  obtain ⟨above, leafFile, parts, -⟩ := plain.components_append nothing
  rw [parts]
  simp

end Found

/-! ## The tree of a store -/

section Store

variable {env : Env} {m : MetadataStore}

theorem isStep_version (leafFile : String) (version : UInt32) :
    IsStep (leafFile ++ ("@v" ++ toString version)) ∧ '/' ∉ ("@v" ++ toString version).toList := by
  have at' : '@' ∈ (leafFile ++ ("@v" ++ toString version)).toList := by simp
  refine ⟨⟨fun same => ?_, fun same => ?_, fun same => ?_⟩, fun slash => ?_⟩
  · rw [same] at at'
    exact absurd at' (by decide)
  · rw [same] at at'
    exact absurd at' (by decide)
  · rw [same] at at'
    exact absurd at' (by decide)
  · rw [String.toList_append] at slash
    rcases List.mem_append.1 slash with slash | slash
    · exact absurd slash (by decide)
    · have digits : (toString version).toList = Nat.toDigits 10 version.toNat := Nat.toList_repr
      rw [digits] at slash
      have digit := Nat.isDigit_of_mem_toDigits (by decide) (by decide) slash
      exact absurd digit (by decide)

/-- Plain names whose files lie apart are all shown. -/
theorem shows_all (legible : m.Legible) (read : m.SnapshotsRead env) (plain : m.AllPlain env)
    (apart : m.LiesApart env) (now : UInt64) : (build env m now).ShowsAll env m := by
  have built := built_build now read.nodup
  refine ⟨?_, ?_, ?_, (distinct_iff_apart built).2 apart⟩
  · intro name id record v bound object latest
    have listed := (MetadataStore.mem_shownObjects legible).2 ⟨bound, object⟩
    have nonempty : record.versions ≠ [] := by
      intro none
      rw [ObjectRecord.latest, none] at latest
      cases latest
    have plain := plain.names _ listed nonempty
    have parts := plain.nameParts
    have leaf : currentLeaf (name, id, record) = .some
        ⟨["current"] ++ nameParts name, .regularFile, v.sizeBytes, v.manifestId⟩ := by
      unfold currentLeaf
      rw [latest, Option.bind_some, fileLeaf, if_neg plain.nameParts_ne_nil]
    have member : _ ∈ m.leaves env := List.mem_append_left _ (List.mem_append_left _
      (List.mem_filterMap.2 ⟨_, listed, leaf⟩))
    apply showsFile_of_leaf built apart member rfl rfl
    · show FilePath.components (Text.split '/' ("/current" ++ "/" ++ name)) = _
      rw [components_append, parts]
      rfl
    · intro part there
      rcases List.mem_append.1 there with there | there
      · rw [List.mem_singleton.1 there]
        decide
      · exact plain.isStep there
  · intro name id record bound object v there
    have listed := (MetadataStore.mem_shownObjects legible).2 ⟨bound, object⟩
    have plain := plain.names _ listed (List.ne_nil_of_mem there)
    obtain ⟨above, leafFile, parts, found⟩ :=
      plain.components_append (isStep_version "" v.version).2
    have step := (isStep_version leafFile v.version).1
    have leaves : historyLeaves (name, id, record) =
        record.versions.map (versionLeaf ("history" :: above) leafFile) ++
          latestLeaf ("history" :: above) leafFile record.versions := by
      unfold historyLeaves
      simp only [parts, List.getLast?_concat, List.dropLast_concat]
    have member : versionLeaf ("history" :: above) leafFile v ∈ m.leaves env := by
      apply List.mem_append_right _ (List.mem_flatMap.2 ⟨_, listed, ?_⟩)
      rw [leaves]
      exact List.mem_append_left _ (List.mem_map.2 ⟨v, there, rfl⟩)
    apply showsFile_of_leaf built apart member rfl rfl
    · rw [String.append_assoc]
      show FilePath.components (Text.split '/' ("/history" ++ "/" ++ name ++ _)) = _
      rw [String.append_assoc, components_append, found step.2.1, versionLeaf, String.append_assoc]
      rfl
    · intro part there
      rw [versionLeaf, List.cons_append, List.mem_cons, List.mem_append, List.mem_singleton] at there
      rcases there with rfl | there | rfl
      · decide
      · exact plain.isStep (by rw [parts]; exact List.mem_append_left _ there)
      · rw [String.append_assoc]
        exact step
  · intro label s got e there
    obtain ⟨listed, rfl⟩ := read.mem_shownSnapshots got
    obtain ⟨plainLabel, plain⟩ := plain.entries s listed e there
    have parts := plain.nameParts
    have leaf : entryLeaf s.label e = .some
        ⟨["snapshots", s.label] ++ nameParts e.name, .regularFile, e.sizeBytes, e.manifestId⟩ := by
      unfold entryLeaf
      rw [fileLeaf, if_neg plain.nameParts_ne_nil]
    have member : _ ∈ m.leaves env := List.mem_append_left _ (List.mem_append_right _
      (List.mem_flatMap.2 ⟨s, listed, List.mem_filterMap.2 ⟨e, there, leaf⟩⟩))
    apply showsFile_of_leaf built apart member rfl rfl
    · show FilePath.components (Text.split '/' ("/snapshots" ++ "/" ++ s.label ++ "/" ++ e.name)) = _
      rw [components_append, components_append, parts, components_label plainLabel]
      rfl
    · intro part there
      rcases List.mem_append.1 there with there | there
      · rcases List.mem_pair.1 there with rfl | rfl
        · decide
        · exact plainLabel.1
      · exact plain.isStep there

end Store

/-- In every state of every run: if every snapshot is read back, what is to be shown has plain names
and no two of its files lie in one place, the tree shows it all; and if two files lie in one place,
the entries of some directory do not differ in their names. -/
theorem mounted_tree_shows_every_file {env : Env} {allowed : EngineRun → EngineAct → Prop}
    {run : EngineRun} {s : StorageEngine} (reachable : EngineReachable env allowed run)
    (running : run.phase = .running s) (now : UInt64) (read : s.metadataStore.SnapshotsRead env) :
    (s.metadataStore.AllPlain env ∧ s.metadataStore.LiesApart env →
      (build env s.metadataStore now).ShowsAll env s.metadataStore) ∧
    ((build env s.metadataStore now).ShowsAll env s.metadataStore →
      s.metadataStore.LiesApart env) := by
  have legible := reachable.legible
  rw [running] at legible
  constructor
  · intro cond
    exact shows_all legible read cond.1 cond.2 now
  · intro shows
    exact (distinct_iff_apart (built_build now read.nodup)).1 shows.distinct

/-! ## A file and a directory of one name -/

namespace TreeSample

open EngineSample

/-- A store with one file. -/
def single : StorageEngine :=
  after opened (.put "docs/report" (file []) (FixedBytes.ofBytes 16 [1]))

/-- A store with a file whose name goes on from that of another. -/
def nested : StorageEngine :=
  after single (.put "docs/report/draft" (file []) (FixedBytes.ofBytes 16 [2]))

/-- Three files, one of them with two versions, and a snapshot of two of them. -/
def shelved : StorageEngine :=
  let noted := after single (.put "notes" (file [7, 8]) (FixedBytes.ofBytes 16 [2]))
  let captured := after noted (.createSnapshot "v1")
  after (after captured (.put "docs/report" (file [9]) (FixedBytes.ofBytes 16 [3])))
    (.put "docs/2024/draft" (file [5]) (FixedBytes.ofBytes 16 [4]))

theorem reachable_shelved :
    ∃ g, EngineReachable env (fun _ _ => True) ⟨.running shelved, g⟩ := by
  have call {s : StorageEngine} (before : ∃ g, EngineReachable env (fun _ _ => True) ⟨.running s, g⟩)
      (call : EngineCall) : ∃ g, EngineReachable env (fun _ _ => True) ⟨.running (after s call), g⟩ := by
    obtain ⟨g, reachable⟩ := before
    exact reachable.exec answers call false []
  exact call (call (call (call (call reachable_opened _) _) _) _) _

theorem snapshotsRead {s : StorageEngine} (legible : s.metadataStore.snapshots.toList.all fun e =>
    (Snapshot.fromBytes env e.2).toOption.any fun snapshot => snapshot.label = e.1) :
    s.metadataStore.SnapshotsRead env := by
  intro label value there
  have read := List.all_eq_true.1 legible _ (MetadataStore.mem_snapshots.2 there)
  cases decoded : Snapshot.fromBytes env value with
  | error e =>
    rw [decoded] at read
    cases read
  | ok snapshot =>
    rw [decoded] at read
    exact ⟨snapshot, rfl, of_decide_eq_true read⟩

end TreeSample

/-- Three files, one of them with two versions, and a snapshot of two files: twelve leaves. -/
theorem mounted_tree_shows_every_file_shelved :
    (TreeSample.shelved.metadataStore.leaves EngineSample.env).length = 12 ∧
    (build EngineSample.env TreeSample.shelved.metadataStore 0).ShowsAll EngineSample.env
      TreeSample.shelved.metadataStore := by
  obtain ⟨g, reachable⟩ := TreeSample.reachable_shelved
  have computed : (TreeSample.shelved.metadataStore.leaves EngineSample.env).length = 12 ∧
      (∀ named ∈ TreeSample.shelved.metadataStore.shownObjects,
        named.2.2.versions ≠ [] → PlainName named.1) ∧
      (∀ s ∈ TreeSample.shelved.metadataStore.shownSnapshots EngineSample.env,
        ∀ e ∈ s.entries, PlainLabel s.label ∧ PlainName e.name) ∧
      Apart (TreeSample.shelved.metadataStore.leaves EngineSample.env)
        (TreeSample.shelved.metadataStore.directories EngineSample.env) := by decide +kernel
  obtain ⟨count, names, labels, apart⟩ := computed
  refine ⟨count, (mounted_tree_shows_every_file reachable rfl 0
    (TreeSample.snapshotsRead (s := TreeSample.shelved) (by decide +kernel))).1 ⟨⟨names, labels⟩, apart⟩⟩

/-- With the names `docs/report` and `docs/report/draft` the tree has two entries of one name. -/
theorem nested_name_is_hidden :
    ¬ ∀ (env : Env) (run : EngineRun) (s : StorageEngine),
      EngineReachable env (fun _ _ => True) run → run.phase = .running s →
      ∀ now, (build env s.metadataStore now).ShowsAll env s.metadataStore := by
  intro all
  obtain ⟨g, opened⟩ := EngineSample.reachable_opened
  obtain ⟨g, single⟩ := opened.exec EngineSample.answers
    (.put "docs/report" (EngineSample.file []) (FixedBytes.ofBytes 16 [1])) false []
  obtain ⟨g, nested⟩ := single.exec EngineSample.answers
    (.put "docs/report/draft" (EngineSample.file []) (FixedBytes.ofBytes 16 [2])) false []
  have shows := all _ _ TreeSample.nested nested rfl 0
  have read : TreeSample.nested.metadataStore.SnapshotsRead EngineSample.env :=
    TreeSample.snapshotsRead (by decide +kernel)
  have apart := (distinct_iff_apart (built_build 0 read.nodup)).1 shows.distinct
  have meet : ¬ Apart (TreeSample.nested.metadataStore.leaves EngineSample.env)
      (TreeSample.nested.metadataStore.directories EngineSample.env) := by decide +kernel
  exact meet apart

end OosLite
