import OosLite.Engine.Proofs.Tables
import OosLite.Segment.Format
import OosLite.Wal.Proofs.Codec

/-!
# Manifests of stored files

A file is cut into chunks that join to it again. The manifests of a store are those of the files
that were stored, and the mark phase finds all that an object or a snapshot lists.
-/

namespace OosLite

open Files Effect Relation

/-! ## The chunks of a file -/

section Chunks

variable {env : Env}

/-- `MAX_CHUNK_SIZE`. -/
def maxChunkSize : Nat := 256 * 1024

theorem nextChunkLen_bounds {data : Bytes} (nonempty : data ≠ []) :
    0 < nextChunkLen env data ∧ nextChunkLen env data ≤ maxChunkSize := by
  unfold nextChunkLen
  by_cases small : data.length ≤ minChunkSize
  · rw [if_pos small]
    unfold minChunkSize at small
    unfold maxChunkSize
    exact ⟨List.length_pos_iff.2 nonempty, by omega⟩
  · rw [if_neg small]
    obtain ⟨first, -, last⟩ := env.fastcdc_bounds data nonempty
    exact ⟨first, last⟩

theorem flatten_chunkLoop {n : Nat} {data : Bytes} (enough : data.length ≤ n) :
    (chunkLoop env n data).flatten = data := by
  induction n generalizing data with
  | zero =>
    have empty : data = [] := List.length_eq_zero_iff.1 (Nat.le_zero.1 enough)
    rw [empty]
    rfl
  | succ n ih =>
    cases data with
    | nil => rfl
    | cons b bs =>
      have first := (@nextChunkLen_bounds env (b :: bs) (List.cons_ne_nil b bs)).1
      have rest : ((b :: bs).drop (nextChunkLen env (b :: bs))).length ≤ n := by
        rw [List.length_drop, List.length_cons]
        rw [List.length_cons] at enough
        omega
      unfold chunkLoop
      rw [List.flatten_cons, ih rest, List.take_append_drop]

/-- The chunks of a file are the file. -/
theorem flatten_chunksOf (data : Bytes) : (chunksOf env data).flatten = data :=
  flatten_chunkLoop (Nat.le_refl _)

theorem chunkLoop_bounds {n : Nat} {data chunk : Bytes} (h : chunk ∈ chunkLoop env n data) :
    chunk ≠ [] ∧ chunk.length ≤ maxChunkSize := by
  induction n generalizing data with
  | zero => cases h
  | succ n ih =>
    cases data with
    | nil => cases h
    | cons b bs =>
      unfold chunkLoop at h
      rcases List.mem_cons.1 h with rfl | h
      · obtain ⟨first, last⟩ := @nextChunkLen_bounds env (b :: bs) (List.cons_ne_nil b bs)
        constructor
        · intro empty
          have length := congrArg List.length empty
          simp only [List.length_take, List.length_cons, List.length_nil] at length
          omega
        · rw [List.length_take]
          omega
      · exact ih h

/-- No chunk is empty, or larger than the largest. -/
theorem chunksOf_bounds {data chunk : Bytes} (h : chunk ∈ chunksOf env data) :
    chunk ≠ [] ∧ chunk.length ≤ maxChunkSize := chunkLoop_bounds h

theorem fits_chunksOf {data chunk : Bytes} (h : chunk ∈ chunksOf env data) : Fits env chunk := by
  apply fits_of_length_le
  have := (chunksOf_bounds h).2
  unfold maxChunkSize at this
  have limit : 256 * 1024 + 16 ≤ defaultMaxSegmentSize := by decide
  omega

theorem mem_chunks_manifestOf {content : Bytes} {createdAt : UInt64} {id : ChunkId} :
    id ∈ (manifestOf env content createdAt).chunks ↔
      ∃ chunk ∈ chunksOf env content, ChunkId.fromData env chunk = id := by
  simp [manifestOf]

end Chunks

/-! ## Manifests -/

section Manifests

variable (env : Env) (files : Set Bytes)

/-- The manifest of one of these files, with no more chunks than its binary form can number. -/
def ManifestOf (manifest : Manifest) : Prop :=
  (∃ content ∈ files, ∃ createdAt, manifest = manifestOf env content createdAt) ∧
    manifest.chunks.length < 2 ^ 32

/-- Every manifest of the table is that of one of these files, under its digest. -/
def MetadataStore.Original (m : MetadataStore) : Prop :=
  ∀ id value, m.manifests[id]? = some value → ∃ manifest, ManifestOf env files manifest ∧
    manifest.contentId = id ∧ value = manifest.toBytes env

/-- The chunks that the manifests of the table name. -/
def MetadataStore.needed (m : MetadataStore) : Set ChunkId :=
  {c | ∃ id manifest, m.getManifest env id = .ok (some manifest) ∧ c ∈ manifest.chunks}

/-- An entry of a snapshot has this manifest. -/
def MetadataStore.SnapshotRoot (m : MetadataStore) (id : String) : Prop :=
  ∃ label snapshot, m.getSnapshot env label = .ok (some snapshot) ∧
    id ∈ snapshot.entries.map SnapshotEntry.manifestId

/-- The manifest of every version is in the table. -/
def MetadataStore.Rooted (m : MetadataStore) : Prop :=
  ∀ id, m.ObjectRoot id → (m.manifests[id]?).isSome

/-- One transaction, where it belongs: a manifest is saved before it is listed, and deleted only
when nothing lists it. -/
inductive MetadataStore.Lawful (m m' : MetadataStore) : Prop where
  | edit (call : EngineCall) : call.OnlyEdits → call.Edits env m m' → Lawful m m'
  | saveManifest (manifest : Manifest) : ManifestOf env files manifest →
      m' = (m.saveManifest env manifest).2 → Lawful m m'
  | addVersion (put : WalPutPayload) : (m.manifests[put.manifest.contentId]?).isSome →
      m.putVersion put = .ok m' → Lawful m m'
  | bindName (put : WalPutPayload) : (∃ record, m.getObject put.objectId = .ok (some record)) →
      m' = m.bindName put.name put.objectId → Lawful m m'
  | deleteManifest (id : String) : ¬ m.ObjectRoot id → ¬ m.SnapshotRoot env id →
      m' = m.deleteManifest id → Lawful m m'

variable {env files} {m m' : MetadataStore}

theorem ManifestOf.mono {manifest : Manifest} (h : ManifestOf env files manifest)
    {files' : Set Bytes} (sub : files ⊆ files') : ManifestOf env files' manifest := by
  obtain ⟨⟨content, stored, createdAt, same⟩, few⟩ := h
  exact ⟨⟨content, sub stored, createdAt, same⟩, few⟩

/-- A manifest that fits in a record of the log. -/
theorem ManifestOf.of_encodePut {content : Bytes} (stored : content ∈ files) {createdAt : UInt64}
    {put : WalPutPayload} (same : put.manifest = manifestOf env content createdAt) {lsn : UInt64}
    {nonce : Nonce} {bytes : Bytes} (encoded : WalRecord.encodePut env lsn put nonce = .ok bytes) :
    ManifestOf env files put.manifest := by
  refine ⟨⟨content, stored, createdAt, same⟩, ?_⟩
  have small := (WalRecord.encodePut_ok_fits encoded).1.manifest
  rw [Manifest.length_toBytes] at small
  omega

theorem MetadataStore.Lawful.transaction (h : m.Lawful env files m') :
    MetadataStore.Transaction env m m' := by
  cases h with
  | edit call only edit => exact .edit call only edit
  | saveManifest manifest _ same => exact .saveManifest manifest same
  | addVersion put _ added => exact .addVersion put added
  | bindName put _ same => exact .bindName put.name put.objectId same
  | deleteManifest id _ _ same => exact .deleteManifest id same

namespace MetadataStore

theorem Lawful.mono (h : m.Lawful env files m') {files' : Set Bytes} (sub : files ⊆ files') :
    m.Lawful env files' m' := by
  cases h with
  | edit call only edit => exact .edit call only edit
  | saveManifest manifest original same => exact .saveManifest manifest (original.mono sub) same
  | addVersion put saved added => exact .addVersion put saved added
  | bindName put there same => exact .bindName put there same
  | deleteManifest id object snapshot same => exact .deleteManifest id object snapshot same

theorem getManifest_congr (same : m'.manifests = m.manifests) (id : String) :
    m'.getManifest env id = m.getManifest env id := by
  unfold getManifest
  rw [same]

theorem getManifest_saveManifest {manifest : Manifest} (few : manifest.chunks.length < 2 ^ 32)
    (id : String) : (m.saveManifest env manifest).2.getManifest env id =
      if manifest.contentId = id then .ok (some manifest) else m.getManifest env id := by
  unfold getManifest saveManifest
  simp only [Std.ExtTreeMap.getElem?_insert, Std.LawfulEqCmp.compare_eq_iff_eq]
  by_cases same : manifest.contentId = id
  · simp only [if_pos same, Manifest.fromBytes_toBytes env few]
    rfl
  · simp only [if_neg same]

theorem getManifest_deleteManifest (id id' : String) : (m.deleteManifest id).getManifest env id' =
    if id = id' then .ok none else m.getManifest env id' := by
  unfold getManifest deleteManifest
  simp only [Std.ExtTreeMap.getElem?_erase, Std.LawfulEqCmp.compare_eq_iff_eq]
  by_cases same : id = id'
  · simp only [if_pos same]
  · simp only [if_neg same]

/-! ### What every transaction keeps -/

/-- What the table has under an identifier is read back. -/
theorem Original.getManifest (h : m.Original env files) {id : String}
    (there : (m.manifests[id]?).isSome) : ∃ manifest, ManifestOf env files manifest ∧
      manifest.contentId = id ∧ m.getManifest env id = .ok (some manifest) := by
  obtain ⟨value, stored⟩ := Option.isSome_iff_exists.1 there
  obtain ⟨manifest, original, own, rfl⟩ := h id value stored
  refine ⟨manifest, original, own, ?_⟩
  unfold MetadataStore.getManifest
  rw [stored]
  simp only [Manifest.fromBytes_toBytes env original.2]
  rfl

theorem Original.mono (h : m.Original env files) {files' : Set Bytes} (sub : files ⊆ files') :
    m.Original env files' := by
  intro id value stored
  obtain ⟨manifest, original, rest⟩ := h id value stored
  exact ⟨manifest, original.mono sub, rest⟩

theorem Original.lawful (h : m.Original env files) (step : m.Lawful env files m') :
    m'.Original env files := by
  have congr {n : MetadataStore} (same : n.manifests = m.manifests) : n.Original env files := by
    intro id value stored
    rw [same] at stored
    exact h id value stored
  cases step with
  | edit call only edit => exact congr (edit.manifests only)
  | addVersion put _ added => exact congr (putVersion_manifests added)
  | bindName put _ same => exact congr (same ▸ rfl)
  | saveManifest manifest original same =>
    subst same
    intro id value stored
    simp only [saveManifest, Std.ExtTreeMap.getElem?_insert, Std.LawfulEqCmp.compare_eq_iff_eq]
      at stored
    by_cases own : manifest.contentId = id
    · rw [if_pos own] at stored
      cases stored
      exact ⟨manifest, original, own, rfl⟩
    · rw [if_neg own] at stored
      exact h id value stored
  | deleteManifest id _ _ same =>
    subst same
    intro id' value stored
    simp only [deleteManifest, Std.ExtTreeMap.getElem?_erase, Std.LawfulEqCmp.compare_eq_iff_eq]
      at stored
    by_cases gone : id = id'
    · rw [if_pos gone] at stored
      cases stored
    · rw [if_neg gone] at stored
      exact h id' value stored

theorem needed_congr (same : m'.manifests = m.manifests) : m'.needed env = m.needed env := by
  unfold needed
  simp only [getManifest_congr same]

theorem needed_saveManifest {manifest : Manifest} (few : manifest.chunks.length < 2 ^ 32) :
    (m.saveManifest env manifest).2.needed env ⊆ m.needed env ∪ {c | c ∈ manifest.chunks} := by
  intro c ⟨id, manifest', found, there⟩
  rw [getManifest_saveManifest few] at found
  by_cases own : manifest.contentId = id
  · rw [if_pos own] at found
    cases found
    exact .inr there
  · rw [if_neg own] at found
    exact .inl ⟨id, manifest', found, there⟩

theorem needed_deleteManifest (id : String) :
    (m.deleteManifest id).needed env ⊆ m.needed env := by
  intro c ⟨id', manifest, found, there⟩
  rw [getManifest_deleteManifest] at found
  by_cases gone : id = id'
  · rw [if_pos gone] at found
    cases found
  · rw [if_neg gone] at found
    exact ⟨id', manifest, found, there⟩

/-! ### Manifests of listed versions -/

theorem ObjectRoot.congr {id : String} (h : m'.ObjectRoot id) (same : m'.objects = m.objects) :
    m.ObjectRoot id := by
  obtain ⟨oid, record, found, listed⟩ := h
  refine ⟨oid, record, ?_, listed⟩
  unfold getObject at found ⊢
  rw [← same]
  exact found

/-- The roots of a table with one more record. -/
theorem ObjectRoot.of_insert {id : String} {r : ObjectRecord} (fits : r.IdsFit)
    (h : m'.ObjectRoot id) (same : m'.objects = m.objects.insert r.objectId r.toBytes) :
    id ∈ r.versions.map ObjectVersion.manifestId ∨ m.ObjectRoot id := by
  obtain ⟨oid, record, found, listed⟩ := h
  have put : m'.getObject oid = (m.putObject r).getObject oid := by
    unfold getObject
    rw [same]
    rfl
  rw [put, getObject_putObject fits] at found
  by_cases own : r.objectId = oid
  · rw [if_pos own] at found
    cases found
    left
    obtain ⟨v, there, rfl⟩ := List.mem_map.1 listed
    exact List.mem_map.2 ⟨v, List.mem_of_mem_take there, rfl⟩
  · rw [if_neg own] at found
    exact .inr ⟨oid, record, found, listed⟩

theorem ObjectRoot.of_erase {id : String} {oid : ObjectId} (h : m'.ObjectRoot id)
    (same : m'.objects = m.objects.erase oid) : m.ObjectRoot id := by
  obtain ⟨oid', record, found, listed⟩ := h
  refine ⟨oid', record, ?_, listed⟩
  unfold getObject at found ⊢
  rw [same, Std.ExtTreeMap.getElem?_erase] at found
  by_cases gone : compare oid oid' = .eq
  · rw [if_pos gone] at found
    cases found
  · rw [if_neg gone] at found
    exact found

/-- An edit lists no manifest that was not listed. -/
theorem ObjectRoot.of_edit {id : String} {call : EngineCall} (h : m'.ObjectRoot id)
    (edit : call.Edits env m m') (only : call.OnlyEdits) : m.ObjectRoot id := by
  rcases objects_of_edit edit only with same | ⟨oid, same⟩ | ⟨r, roots, same⟩
  · exact h.congr same
  · exact h.of_erase same
  · rcases h.of_insert (idsFit_of_objectRoot roots) same with listed | old
    · obtain ⟨v, there, rfl⟩ := List.mem_map.1 listed
      exact roots v there
    · exact old

/-- A new version lists its own manifest only. -/
theorem ObjectRoot.of_putVersion {id : String} {put : WalPutPayload} (h : m'.ObjectRoot id)
    (added : m.putVersion put = .ok m') : id = put.manifest.contentId ∨ m.ObjectRoot id := by
  unfold putVersion at added
  obtain ⟨found, known, added⟩ := Result.bind_eq_ok.1 added
  have roots : ∀ v ∈ (found.getD
      { objectId := put.objectId, latestVersion := put.version, versions := [] }).versions,
      m.ObjectRoot v.manifestId := by
    cases found with
    | none => exact fun v there => absurd there List.not_mem_nil
    | some record => exact fun v there => objectRoot_of_mem known there
  generalize found.getD _ = record at added roots
  by_cases listed : (record.versions.any fun v => v.version = put.version) = true
  · rw [if_pos listed] at added
    cases added
    exact .inr h
  · rw [if_neg listed] at added
    cases added
    have fits : ObjectRecord.IdsFit
        { record with
          latestVersion := put.version
          versions := record.versions ++
            [{ version := put.version
               manifestId := put.manifest.contentId
               createdAt := put.manifest.createdAt
               sizeBytes := put.manifest.totalSize }] } := by
      intro v there
      rcases List.mem_append.1 there with there | last
      · exact idsFit_of_objectRoot roots v there
      · rw [List.mem_singleton.1 last]
        simp
    rcases h.of_insert fits rfl with own | old
    · obtain ⟨v, there, rfl⟩ := List.mem_map.1 own
      rcases List.mem_append.1 there with there | last
      · exact .inr (roots v there)
      · rw [List.mem_singleton.1 last]
        exact .inl rfl
    · exact .inr old

theorem Rooted.lawful (h : m.Rooted) (step : m.Lawful env files m') : m'.Rooted := by
  intro id root
  cases step with
  | edit call only edit =>
    rw [edit.manifests only]
    exact h id (root.of_edit edit only)
  | saveManifest manifest _ same =>
    subst same
    have there := h id root
    unfold saveManifest
    simp only [Std.ExtTreeMap.getElem?_insert]
    split
    · rfl
    · exact there
  | addVersion put saved added =>
    rw [putVersion_manifests added]
    rcases root.of_putVersion added with rfl | old
    · exact saved
    · exact h id old
  | bindName put _ same =>
    subst same
    exact h id root
  | deleteManifest id' unlisted _ same =>
    subst same
    have there := h id root
    unfold deleteManifest
    simp only [Std.ExtTreeMap.getElem?_erase, Std.LawfulEqCmp.compare_eq_iff_eq]
    by_cases gone : id' = id
    · subst gone
      exact absurd root unlisted
    · rw [if_neg gone]
      exact there

end MetadataStore

end Manifests

/-! ## The mark phase -/

namespace StorageEngine

section Marking

variable {env : Env} {m : MetadataStore}

/-- The chunks that are found are those of the manifests. -/
theorem markManifests_ok {missing : String → OosLiteError} {ids : List String}
    {found : List ChunkId × List String} (h : markManifests env m missing ids = .ok found) :
    found.2 = ids ∧ (∀ id ∈ ids, ∃ manifest, m.getManifest env id = .ok (some manifest) ∧
      ∀ c ∈ manifest.chunks, c ∈ found.1) ∧
    ∀ c ∈ found.1, ∃ id ∈ ids, ∃ manifest, m.getManifest env id = .ok (some manifest) ∧
      c ∈ manifest.chunks := by
  induction ids generalizing found with
  | nil =>
    cases h
    exact ⟨rfl, fun _ h => absurd h List.not_mem_nil, fun _ h => absurd h List.not_mem_nil⟩
  | cons id rest ih =>
    unfold markManifests at h
    obtain ⟨stored, lookup, h⟩ := Result.bind_eq_ok.1 h
    obtain ⟨manifest, there, h⟩ := Result.bind_eq_ok.1 h
    obtain ⟨more, marked, h⟩ := Result.bind_eq_ok.1 h
    cases h
    rw [Option.orError_eq_ok.1 there] at lookup
    obtain ⟨ids, all, only⟩ := ih marked
    refine ⟨by rw [ids], ?_, ?_⟩
    · intro id' listed
      rcases List.mem_cons.1 listed with rfl | listed
      · exact ⟨manifest, lookup, fun c hc => List.mem_append_left _ hc⟩
      · obtain ⟨manifest', lookup', chunks⟩ := all id' listed
        exact ⟨manifest', lookup', fun c hc => List.mem_append_right _ (chunks c hc)⟩
    · intro c hc
      rcases List.mem_append.1 hc with hc | hc
      · exact ⟨id, List.mem_cons_self, manifest, lookup, hc⟩
      · obtain ⟨id', listed, rest⟩ := only c hc
        exact ⟨id', List.mem_cons_of_mem id listed, rest⟩

theorem markObjects_ok {values : List Bytes} {found : List (List ChunkId × List String)}
    (h : markObjects env m values = .ok found) :
    (∀ value ∈ values, ∃ record, ObjectRecord.fromBytes value = .ok record ∧
      ∃ marked ∈ found, markObject env m record = .ok marked) ∧
    ∀ marked ∈ found, ∃ value ∈ values, ∃ record, ObjectRecord.fromBytes value = .ok record ∧
      markObject env m record = .ok marked := by
  induction values generalizing found with
  | nil =>
    cases h
    exact ⟨fun _ h => absurd h List.not_mem_nil, fun _ h => absurd h List.not_mem_nil⟩
  | cons value rest ih =>
    unfold markObjects at h
    obtain ⟨record, decoded, h⟩ := Result.bind_eq_ok.1 h
    obtain ⟨marked, first, h⟩ := Result.bind_eq_ok.1 h
    obtain ⟨more, later, h⟩ := Result.bind_eq_ok.1 h
    cases h
    obtain ⟨all, only⟩ := ih later
    constructor
    · intro value' listed
      rcases List.mem_cons.1 listed with rfl | listed
      · exact ⟨record, decoded, marked, List.mem_cons_self, first⟩
      · obtain ⟨record', decoded', marked', there, same⟩ := all value' listed
        exact ⟨record', decoded', marked', List.mem_cons_of_mem marked there, same⟩
    · intro marked' there
      rcases List.mem_cons.1 there with rfl | there
      · exact ⟨value, List.mem_cons_self, record, decoded, first⟩
      · obtain ⟨value', listed, rest⟩ := only marked' there
        exact ⟨value', List.mem_cons_of_mem value listed, rest⟩

theorem getObject_of_mem {value : Bytes} {record : ObjectRecord}
    (listed : value ∈ m.objects.toList.map Prod.snd)
    (decoded : ObjectRecord.fromBytes value = .ok record) :
    ∃ oid, m.getObject oid = .ok (some record) := by
  obtain ⟨⟨oid, value'⟩, there, rfl⟩ := List.mem_map.1 listed
  refine ⟨oid, ?_⟩
  unfold MetadataStore.getObject
  rw [Std.ExtTreeMap.mem_toList_iff_getElem?_eq_some.1 there]
  simp only [decoded]
  rfl

theorem mem_of_getObject {oid : ObjectId} {record : ObjectRecord}
    (found : m.getObject oid = .ok (some record)) :
    ∃ value ∈ m.objects.toList.map Prod.snd, ObjectRecord.fromBytes value = .ok record := by
  unfold MetadataStore.getObject at found
  cases stored : m.objects[oid]? with
  | none =>
    rw [stored] at found
    cases found
  | some value =>
    rw [stored] at found
    obtain ⟨record', decoded, found⟩ := Result.bind_eq_ok.1 found
    cases found
    refine ⟨value, List.mem_map.2 ⟨(oid, value), ?_, rfl⟩, decoded⟩
    exact Std.ExtTreeMap.mem_toList_iff_getElem?_eq_some.2 stored

/-- What the snapshots that are listed are. -/
theorem mem_listSnapshots {snapshots : List Snapshot} (h : m.listSnapshots env = .ok snapshots)
    (snapshot : Snapshot) :
    snapshot ∈ snapshots ↔ ∃ label, m.getSnapshot env label = .ok (some snapshot) := by
  unfold MetadataStore.listSnapshots at h
  obtain ⟨results, all, h⟩ := Result.bind_eq_ok.1 h
  cases h
  rw [(List.mergeSort_perm _ _).mem_iff, (Result.of_mapM_ok all).2 snapshot]
  constructor
  · intro ⟨⟨label, value⟩, there, decoded⟩
    refine ⟨label, ?_⟩
    unfold MetadataStore.getSnapshot
    rw [Std.ExtTreeMap.mem_toList_iff_getElem?_eq_some.1 there]
    simp only at decoded
    simp only [decoded]
    rfl
  · intro ⟨label, found⟩
    unfold MetadataStore.getSnapshot at found
    cases stored : m.snapshots[label]? with
    | none =>
      rw [stored] at found
      cases found
    | some value =>
      rw [stored] at found
      obtain ⟨snapshot', decoded, found⟩ := Result.bind_eq_ok.1 found
      cases found
      exact ⟨(label, value), Std.ExtTreeMap.mem_toList_iff_getElem?_eq_some.2 stored, decoded⟩

/-- The mark phase finds the roots and nothing else, with all their chunks. -/
theorem mark_ok {marked : Marked} (h : mark env m = .ok marked) :
    (∀ id, id ∈ marked.manifests ↔ m.ObjectRoot id ∨ m.SnapshotRoot env id) ∧
    (∀ id ∈ marked.manifests, ∃ manifest, m.getManifest env id = .ok (some manifest) ∧
      ∀ c ∈ manifest.chunks, c ∈ marked.chunks) ∧
    ∀ c ∈ marked.chunks, ∃ id ∈ marked.manifests, ∃ manifest,
      m.getManifest env id = .ok (some manifest) ∧ c ∈ manifest.chunks := by
  unfold mark at h
  obtain ⟨objects, ofObjects, h⟩ := Result.bind_eq_ok.1 h
  obtain ⟨listed, listing, h⟩ := Result.bind_eq_ok.1 h
  obtain ⟨snapshots, ofSnapshots, h⟩ := Result.bind_eq_ok.1 h
  cases h
  obtain ⟨objectsAll, objectsOnly⟩ := markObjects_ok ofObjects
  obtain ⟨snapshotsAll, snapshotsOnly⟩ := Result.of_mapM_ok ofSnapshots
  -- each part of what is found comes from the manifests it names
  have parts : ∀ part ∈ objects ++ snapshots, ∃ missing ids,
      markManifests env m missing ids = .ok part := by
    intro part there
    rcases List.mem_append.1 there with there | there
    · obtain ⟨value, -, record, -, marked⟩ := objectsOnly part there
      exact ⟨_, _, marked⟩
    · obtain ⟨snapshot, -, marked⟩ := (snapshotsOnly part).1 there
      exact ⟨_, _, marked⟩
  refine ⟨fun id => ⟨fun there => ?_, fun root => ?_⟩, fun id there => ?_, fun c there => ?_⟩
  · obtain ⟨part, hpart, there⟩ := List.mem_flatMap.1 there
    rcases List.mem_append.1 hpart with hpart | hpart
    · obtain ⟨value, hvalue, record, decoded, marked⟩ := objectsOnly part hpart
      obtain ⟨oid, found⟩ := getObject_of_mem hvalue decoded
      rw [(markManifests_ok marked).1] at there
      exact .inl ⟨oid, record, found, there⟩
    · obtain ⟨snapshot, hsnapshot, marked⟩ := (snapshotsOnly part).1 hpart
      obtain ⟨label, found⟩ := (mem_listSnapshots listing snapshot).1 hsnapshot
      rw [(markManifests_ok marked).1] at there
      exact .inr ⟨label, snapshot, found, there⟩
  · apply List.mem_flatMap.2
    rcases root with ⟨oid, record, found, root⟩ | ⟨label, snapshot, found, root⟩
    · obtain ⟨value, hvalue, decoded⟩ := mem_of_getObject found
      obtain ⟨record', decoded', part, hpart, marked⟩ := objectsAll value hvalue
      obtain rfl : record = record' := by
        rw [decoded] at decoded'
        exact Except.ok.inj decoded'
      refine ⟨part, List.mem_append_left _ hpart, ?_⟩
      rw [(markManifests_ok marked).1]
      exact root
    · have hsnapshot := (mem_listSnapshots listing snapshot).2 ⟨label, found⟩
      obtain ⟨part, marked⟩ := snapshotsAll snapshot hsnapshot
      refine ⟨part, List.mem_append_right _ ((snapshotsOnly part).2 ⟨snapshot, hsnapshot, marked⟩), ?_⟩
      rw [(markManifests_ok marked).1]
      exact root
  · obtain ⟨part, hpart, there⟩ := List.mem_flatMap.1 there
    obtain ⟨missing, ids, marked⟩ := parts part hpart
    obtain ⟨same, all, -⟩ := markManifests_ok marked
    rw [same] at there
    obtain ⟨manifest, found, chunks⟩ := all id there
    exact ⟨manifest, found, fun c hc => List.mem_flatMap.2 ⟨part, hpart, chunks c hc⟩⟩
  · obtain ⟨part, hpart, there⟩ := List.mem_flatMap.1 there
    obtain ⟨missing, ids, marked⟩ := parts part hpart
    obtain ⟨same, -, only⟩ := markManifests_ok marked
    obtain ⟨id, hid, manifest, found, hc⟩ := only c there
    exact ⟨id, List.mem_flatMap.2 ⟨part, hpart, same ▸ hid⟩, manifest, found, hc⟩

end Marking

end StorageEngine

end OosLite
