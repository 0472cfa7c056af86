import OosLite.Engine.Operations
import OosLite.Reference

/-!
# What a created snapshot is read back as

The binary form of a snapshot has room for labels and names of 65535 bytes. Neither the label of
a snapshot nor the new name of a rename is checked against that.
-/

namespace OosLite

open Files Effect

namespace MetadataStore

variable {env : Env} {m : MetadataStore}

theorem mem_snapshots {label : String} {value : Bytes} :
    (label, value) ∈ m.snapshots.toList ↔ m.snapshots[label]? = some value :=
  Std.ExtTreeMap.mem_toList_iff_getElem?_eq_some

/-- The snapshots are listed if each of them can be read. -/
theorem listSnapshots_ok (h : ∀ (label : String) value, m.snapshots[label]? = some value →
    ∃ snapshot, Snapshot.fromBytes env value = .ok snapshot) :
    ∃ l, m.listSnapshots env = .ok l := by
  have each : ∀ e ∈ m.snapshots.toList, ∃ snapshot, Snapshot.fromBytes env e.2 = .ok snapshot :=
    fun e he => h e.1 e.2 (mem_snapshots.1 he)
  obtain ⟨l, read⟩ := Result.mapM_ok each
  unfold listSnapshots
  rw [read]
  exact ⟨_, rfl⟩

/-- A listing reads every snapshot of the table, and has no others. -/
theorem of_listSnapshots_ok {l : List Snapshot} (h : m.listSnapshots env = .ok l) :
    (∀ (label : String) value, m.snapshots[label]? = some value →
      ∃ snapshot, Snapshot.fromBytes env value = .ok snapshot) ∧
    ∀ t, t ∈ l ↔ ∃ (label : String) (value : Bytes), m.snapshots[label]? = some value ∧
      Snapshot.fromBytes env value = .ok t := by
  unfold listSnapshots at h
  obtain ⟨results, read, h⟩ := Result.bind_eq_ok.1 h
  cases h
  obtain ⟨all, mem⟩ := Result.of_mapM_ok read
  refine ⟨fun label value present => all _ (mem_snapshots.2 present), fun t => ?_⟩
  rw [List.mem_mergeSort, mem]
  constructor
  · intro h
    obtain ⟨⟨label, value⟩, present, decoded⟩ := h
    exact ⟨label, value, mem_snapshots.1 present, decoded⟩
  · intro h
    obtain ⟨label, value, present, decoded⟩ := h
    exact ⟨(label, value), mem_snapshots.2 present, decoded⟩

/-- A snapshot under a free label that reads back is listed next to the others. -/
theorem listSnapshots_saveSnapshot {s : Snapshot} (free : m.getSnapshot env s.label = .ok none)
    (back : Snapshot.fromBytes env (s.toBytes env) = .ok s) {l : List Snapshot}
    (h : m.listSnapshots env = .ok l) :
    ∃ l', (m.saveSnapshot env s).listSnapshots env = .ok l' ∧ ∀ t, t ∈ l' ↔ t = s ∨ t ∈ l := by
  obtain ⟨all, mem⟩ := of_listSnapshots_ok h
  have absent : m.snapshots[s.label]? = none := by
    unfold getSnapshot at free
    cases present : m.snapshots[s.label]? with
    | none => rfl
    | some value =>
      rw [present] at free
      obtain ⟨t, -, free⟩ := Result.bind_eq_ok.1 free
      cases free
  have lookup : ∀ label : String, (m.saveSnapshot env s).snapshots[label]? =
      if s.label = label then some (s.toBytes env) else m.snapshots[label]? := by
    intro label
    show (m.snapshots.insert s.label (s.toBytes env))[label]? = _
    rw [Std.ExtTreeMap.getElem?_insert]
    simp only [Std.LawfulEqCmp.compare_eq_iff_eq]
  have readable : ∀ (label : String) value,
      (m.saveSnapshot env s).snapshots[label]? = some value →
      ∃ snapshot, Snapshot.fromBytes env value = .ok snapshot := by
    intro label value present
    rw [lookup] at present
    by_cases same : s.label = label
    · rw [if_pos same] at present
      cases present
      exact ⟨s, back⟩
    · rw [if_neg same] at present
      exact all label value present
  obtain ⟨l', listed⟩ := listSnapshots_ok readable
  refine ⟨l', listed, fun t => ?_⟩
  rw [(of_listSnapshots_ok listed).2, mem]
  constructor
  · intro h
    obtain ⟨label, value, present, decoded⟩ := h
    rw [lookup] at present
    by_cases same : s.label = label
    · rw [if_pos same] at present
      cases present
      rw [back] at decoded
      exact .inl (Except.ok.inj decoded).symm
    · rw [if_neg same] at present
      exact .inr ⟨label, value, present, decoded⟩
  · rintro (rfl | ⟨label, value, present, decoded⟩)
    · exact ⟨t.label, t.toBytes env, by rw [lookup, if_pos rfl], back⟩
    · have other : s.label ≠ label := by
        intro same
        rw [← same, absent] at present
        cases present
      exact ⟨label, value, by rw [lookup, if_neg other]; exact present, decoded⟩

/-- Every record that a listing gives was read. -/
theorem listNamedObjects_fits {named : List (String × ObjectId × ObjectRecord)}
    (h : m.listNamedObjects = .ok named) : ∀ n ∈ named, n.2.2.Fits := by
  unfold listNamedObjects at h
  generalize m.boundNames = bound at h
  induction bound generalizing named with
  | nil =>
    cases h
    exact fun n hn => absurd hn List.not_mem_nil
  | cons b bound ih =>
    obtain ⟨name, id⟩ := b
    rw [withRecords] at h
    obtain ⟨found, got, h⟩ := Result.bind_eq_ok.1 h
    cases found with
    | none => exact ih h
    | some record =>
      obtain ⟨rest, later, h⟩ := Result.bind_eq_ok.1 h
      cases h
      intro n hn
      rcases List.mem_cons.1 hn with rfl | hn
      · unfold getObject at got
        cases stored : m.objects[id]? with
        | none =>
          rw [stored] at got
          cases got
        | some value =>
          rw [stored] at got
          obtain ⟨r, decoded, got⟩ := Result.bind_eq_ok.1 got
          cases got
          exact ObjectRecord.fromBytes_fits decoded
      · exact ih later n hn

/-- The names that a snapshot of these tables takes up have room in it. -/
def NamesFit (m : MetadataStore) : Prop :=
  ∃ named, m.listNamedObjects = .ok named ∧
    (named.filter fun n => n.2.2.versions ≠ []).length < 2 ^ 32 ∧
    ∀ n ∈ named, n.2.2.versions ≠ [] → (Text.utf8 n.1).length < 2 ^ 16

end MetadataStore

namespace StorageEngine

variable {env : Env}

/-- The entries come from the objects that have a version. -/
theorem length_snapshotEntries (named : List (String × ObjectId × ObjectRecord)) :
    (snapshotEntries named).length = (named.filter fun n => n.2.2.versions ≠ []).length := by
  simp only [snapshotEntries, ObjectRecord.latest]
  induction named with
  | nil => rfl
  | cons n named ih =>
    obtain ⟨name, id, record⟩ := n
    simp only [List.filterMap_cons, List.filter_cons]
    cases versions : record.versions with
    | nil => simpa using ih
    | cons v vs =>
      rw [List.getLast?_cons]
      simpa using ih

theorem mem_snapshotEntries {named : List (String × ObjectId × ObjectRecord)} {e : SnapshotEntry} :
    e ∈ snapshotEntries named ↔ ∃ n ∈ named, ∃ v, n.2.2.latest = some v ∧
      e = ⟨n.1, n.2.1, v.version, v.manifestId, v.sizeBytes⟩ := by
  unfold snapshotEntries
  rw [List.mem_filterMap]
  constructor
  · intro h
    obtain ⟨n, hn, h⟩ := h
    obtain ⟨v, hv, rfl⟩ := Option.map_eq_some_iff.1 h
    exact ⟨n, hn, v, hv, rfl⟩
  · intro h
    obtain ⟨n, hn, v, hv, rfl⟩ := h
    exact ⟨n, hn, Option.map_eq_some_iff.2 ⟨v, hv, rfl⟩⟩

/-- Which snapshots of these names fit. -/
theorem fits_snapshotEntries {m : MetadataStore} {named : List (String × ObjectId × ObjectRecord)}
    (h : m.listNamedObjects = .ok named) (label : String) (createdAt : UInt64) :
    (Snapshot.mk label createdAt (snapshotEntries named)).Fits ↔
      (Text.utf8 label).length < 2 ^ 16 ∧ m.NamesFit := by
  have records := MetadataStore.listNamedObjects_fits h
  constructor
  · intro fits
    refine ⟨fits.label, named, h, ?_, ?_⟩
    · rw [← length_snapshotEntries]
      exact fits.count
    · intro n hn nonempty
      obtain ⟨v, latest⟩ : ∃ v, n.2.2.latest = some v := by
        unfold ObjectRecord.latest
        exact ⟨_, List.getLast?_eq_some_getLast nonempty⟩
      exact (fits.entries _ (mem_snapshotEntries.2 ⟨n, hn, v, latest, rfl⟩)).name
  · intro cond
    obtain ⟨label, named', listed, count, names⟩ := cond
    obtain rfl := Except.ok.inj (h.symm.trans listed)
    refine ⟨label, ?_, ?_⟩
    · rw [← length_snapshotEntries] at count
      exact count
    · intro e he
      obtain ⟨n, hn, v, latest, rfl⟩ := mem_snapshotEntries.1 he
      have member : v ∈ n.2.2.versions := List.mem_of_getLast? latest
      refine ⟨names n hn (List.ne_nil_of_mem member), ?_⟩
      exact (records n hn).manifestId v member

/-- What `create_snapshot` gives and leaves. -/
def CreatePost (env : Env) (label : String) (s : StorageEngine) :
    Result Snapshot → StorageEngine → Prop
  | .ok snapshot, s' => s.metadataStore.getSnapshot env (Text.trim label) = .ok none ∧
      (∃ named createdAt, s.metadataStore.listNamedObjects = .ok named ∧
        snapshot = ⟨Text.trim label, createdAt, snapshotEntries named⟩) ∧
      s' = s.withTables (s.metadataStore.saveSnapshot env snapshot)
  | .error _, s' => s' = s

theorem safe_createSnapshot {f : Faults} (label : String) (s : StorageEngine) :
    Safe (engineMachine f) (CreatePost env label s) (fun _ => True)
      (createSnapshot env label) s := by
  unfold createSnapshot
  simp only
  by_cases empty : Text.trim label = ""
  · rw [if_pos empty]
    exact rfl
  rw [if_neg empty, safe_bind]
  apply safe_query _ fun _ => rfl
  cases free : s.metadataStore.getSnapshot env (Text.trim label) with
  | error e => exact rfl
  | ok found =>
    rw [thenSafe_ok]
    cases found with
    | some snapshot => exact rfl
    | none =>
      simp only [Option.isSome_none, Bool.false_eq_true, if_false]
      rw [safe_bind]
      apply safe_query _ fun _ => rfl
      cases listing : s.metadataStore.listNamedObjects with
      | error e => exact rfl
      | ok named =>
        rw [thenSafe_ok, safe_bind]
        apply safe_now
        intro createdAt
        rw [thenSafe_ok, safe_bind]
        apply safe_update trivial trivial _ fun _ => rfl
        exact ⟨free, ⟨named, createdAt, listing, rfl⟩, rfl⟩

/-- A snapshot that was created is read back, and is listed with all that were listed before. -/
structure ReadsBack (env : Env) (s s' : StorageEngine) (snapshot : Snapshot) : Prop where
  decoded : Snapshot.fromBytes env (snapshot.toBytes env) = .ok snapshot
  listed : ∀ l, s.metadataStore.listSnapshots env = .ok l →
    ∃ l', s'.metadataStore.listSnapshots env = .ok l' ∧ ∀ t, t ∈ l' ↔ t = snapshot ∨ t ∈ l

/-- A created snapshot is read back exactly if its label and the names it takes up have room. -/
theorem created_readsBack_iff {label : String} {s s' : StorageEngine} {snapshot : Snapshot}
    (run : Returns (engineMachine Faults.none) (createSnapshot env label) s (.ok snapshot) s') :
    ReadsBack env s s' snapshot ↔
      (Text.utf8 (Text.trim label)).length < 2 ^ 16 ∧ s.metadataStore.NamesFit := by
  have post : CreatePost env label s (.ok snapshot) s' := (safe_createSnapshot label s).returns run
  unfold CreatePost at post
  generalize Text.trim label = label at post ⊢
  obtain ⟨free, ⟨named, createdAt, listing, rfl⟩, rfl⟩ := post
  rw [← fits_snapshotEntries listing label createdAt, ← Snapshot.fromBytes_toBytes_iff env]
  constructor
  · intro reads
    exact reads.decoded
  · intro decoded
    exact ⟨decoded, fun l => MetadataStore.listSnapshots_saveSnapshot free decoded⟩

/-! ## A label of 65536 bytes -/

theorem returns_query {f : Faults} {α : Type} {q : MetadataStore → Result α} {s : StorageEngine}
    {a : α} (h : q s.metadataStore = .ok a) : Returns (engineMachine f) (query q) s (.ok a) s := by
  have read : Returns (engineMachine f) tables s (.ok s.metadataStore) s :=
    .op ⟨rfl, .inl rfl⟩ (.pure _ _)
  apply returns_bind.2
  refine .inl ⟨_, s, read, ?_⟩
  rw [h]
  exact .pure a s

theorem returns_update {f : Faults} {g : MetadataStore → MetadataStore} (s : StorageEngine) :
    Returns (engineMachine f) (update g) s (.ok ()) (s.withTables (g s.metadataStore)) := by
  have read : Returns (engineMachine f) tables s (.ok s.metadataStore) s :=
    .op ⟨rfl, .inl rfl⟩ (.pure _ _)
  apply returns_bind.2
  exact .inl ⟨_, s, read, .op (.inl ⟨rfl, rfl⟩) (.pure _ _)⟩

/-- A label that is not empty and not in use makes a snapshot. -/
theorem returns_createSnapshot {f : Faults} {label : String} {s : StorageEngine}
    (nonempty : Text.trim label ≠ "")
    (free : s.metadataStore.getSnapshot env (Text.trim label) = .ok none)
    {named : List (String × ObjectId × ObjectRecord)}
    (listing : s.metadataStore.listNamedObjects = .ok named) (createdAt : UInt64) :
    Returns (engineMachine f) (createSnapshot env label) s
      (.ok ⟨Text.trim label, createdAt, snapshotEntries named⟩)
      (s.withTables (s.metadataStore.saveSnapshot env
        ⟨Text.trim label, createdAt, snapshotEntries named⟩)) := by
  unfold createSnapshot
  simp only
  rw [if_neg nonempty]
  have clock : Returns (engineMachine f) now s (.ok createdAt) s :=
    .op ⟨rfl, createdAt, rfl⟩ (.pure _ _)
  apply returns_bind.2
  refine .inl ⟨none, s, returns_query free, ?_⟩
  rw [Option.isSome_none, if_neg Bool.false_ne_true]
  apply returns_bind.2
  refine .inl ⟨named, s, returns_query listing, ?_⟩
  apply returns_bind.2
  refine .inl ⟨createdAt, s, clock, ?_⟩
  apply returns_bind.2
  exact .inl ⟨(), _, returns_update s, .pure _ _⟩

namespace SnapshotSample

/-- An engine without any data. -/
def empty : StorageEngine :=
  ⟨⟨⟨∅, fun _ => 0⟩, ⟨fun _ => ⟨none, 0, false, [], 0, 0⟩, fun _ => ∅⟩⟩, ⟨⟨∅, fun _ => 0⟩, ⟨0, 0⟩⟩, MetadataStore.empty⟩

/-- So many letters. -/
def letters (count : Nat) : String := String.ofList (List.replicate count 'a')

theorem trim_letters (count : Nat) : Text.trim (letters count) = letters count := by
  apply Text.trim_of_none
  intro c hc
  rw [List.eq_of_mem_replicate hc]
  decide

theorem length_letters (count : Nat) : (Text.utf8 (letters count)).length = count := by
  unfold letters
  rw [Text.utf8_ofList]
  · rw [List.length_map, List.length_replicate]
  · intro c hc
    rw [List.eq_of_mem_replicate hc]
    decide

theorem listing_empty : empty.metadataStore.listNamedObjects = .ok [] := rfl

theorem nonempty_letters (count : Nat) : Text.trim (letters (count + 1)) ≠ "" := by
  rw [trim_letters]
  intro same
  have size := length_letters (count + 1)
  rw [same] at size
  cases size

theorem created (env : Env) (count : Nat) : ∃ s',
    Returns (engineMachine Faults.none) (createSnapshot env (letters (count + 1))) empty
      (.ok ⟨letters (count + 1), 0, []⟩) s' := by
  have free : empty.metadataStore.getSnapshot env (Text.trim (letters (count + 1))) = .ok none := by
    simp [MetadataStore.getSnapshot, empty, MetadataStore.empty]
  have run := returns_createSnapshot (f := Faults.none) (nonempty_letters count) free listing_empty 0
  rw [trim_letters] at run
  exact ⟨_, run⟩

/-- A file with two versions. -/
def report : ObjectRecord :=
  ⟨FixedBytes.ofBytes 16 [1], 2, [⟨1, "m1", 0, 2⟩, ⟨2, "m2", 0, 1⟩]⟩

/-- An engine with this file under a name. -/
def named : StorageEngine :=
  { empty with metadataStore := (empty.metadataStore.bindName "report" report.objectId).putObject report }

theorem listing_named :
    named.metadataStore.listNamedObjects = .ok [("report", report.objectId, report)] := by
  decide +kernel

end SnapshotSample

/-- A snapshot of the newest version of a file. -/
theorem created_readsBack_letters : ∃ s',
    ReadsBack (Reference.env []) SnapshotSample.named s' ⟨SnapshotSample.letters 1, 0,
      [⟨"report", SnapshotSample.report.objectId, 2, "m2", 1⟩]⟩ := by
  have free : SnapshotSample.named.metadataStore.getSnapshot (Reference.env [])
      (Text.trim (SnapshotSample.letters 1)) = .ok none := by
    rw [SnapshotSample.trim_letters]
    decide +kernel
  have run := returns_createSnapshot (f := Faults.none) (SnapshotSample.nonempty_letters 0) free
    SnapshotSample.listing_named 0
  rw [SnapshotSample.trim_letters] at run
  refine ⟨_, (created_readsBack_iff run).2
    ⟨?_, _, SnapshotSample.listing_named, by decide, fun n hn _ => ?_⟩⟩
  · rw [SnapshotSample.trim_letters, SnapshotSample.length_letters]
    decide
  · obtain rfl := List.mem_singleton.1 hn
    decide

/-- A snapshot with a label of 65536 bytes is not read back. -/
theorem long_label_is_not_read_back :
    ¬ ∀ (env : Env) (label : String) (s s' : StorageEngine) (snapshot : Snapshot),
      Returns (engineMachine Faults.none) (createSnapshot env label) s (.ok snapshot) s' →
      Snapshot.fromBytes env (snapshot.toBytes env) = .ok snapshot := by
  intro all
  obtain ⟨s', run⟩ := SnapshotSample.created (Reference.env []) 65535
  have fits := Snapshot.fromBytes_fits _ (all _ _ _ _ _ run)
  have size := fits.label
  rw [SnapshotSample.length_letters] at size
  omega

end StorageEngine

end OosLite
