import OosLite.Engine.Proofs.Lookups

/-!
# What a garbage collection leaves

Exactly what objects and snapshots reach is left, with the same contents, and a second collection
finds nothing to do. If the mark phase fails nothing has changed.
-/

namespace OosLite

open Files Effect Relation StorageEngine

/-- An object or a snapshot lists the manifest. -/
def MetadataStore.Root (env : Env) (m : MetadataStore) (id : String) : Prop :=
  m.ObjectRoot id ∨ m.SnapshotRoot env id

/-- A manifest that is listed has the chunk. -/
def MetadataStore.Reaches (env : Env) (m : MetadataStore) (c : ChunkId) : Prop :=
  ∃ id manifest, m.Root env id ∧ m.getManifest env id = .ok (some manifest) ∧ c ∈ manifest.chunks

/-- The manifest of an identifier is extracted to the same bytes in both states. -/
def SameExtract (env : Env) (s s' : StorageEngine) (id : String) : Prop :=
  ∃ manifest content, s.metadataStore.getManifest env id = .ok (some manifest) ∧
    s'.metadataStore.getManifest env id = .ok (some manifest) ∧
    s.Gives (extractManifestToFile env manifest) (.ok content) ∧
    s'.Gives (extractManifestToFile env manifest) (.ok content)

/-- What a collection leaves: the records and the snapshots, their manifests and the chunks of those,
and nothing else. -/
structure Collected (env : Env) (s s' : StorageEngine) : Prop where
  objects : s'.metadataStore.objects = s.metadataStore.objects
  snapshots : s'.metadataStore.snapshots = s.metadataStore.snapshots
  names : s'.metadataStore.names = s.metadataStore.names
  manifests : ∀ id, (s'.metadataStore.manifests[id]?).isSome ↔ s.metadataStore.Root env id
  chunks : ∀ c, (s'.segmentStore.mem.index .own).contains c = true ↔ s.metadataStore.Reaches env c
  same : ∀ id, s.metadataStore.Root env id → SameExtract env s s' id

section Marking

variable {env : Env} {m m' : MetadataStore}

/-- The mark phase reads nothing but the manifests of the roots. -/
theorem markManifests_congr {missing : String → OosLiteError} {ids : List String}
    {found : List ChunkId × List String} (h : markManifests env m missing ids = .ok found)
    (same : ∀ id ∈ found.2, m'.getManifest env id = m.getManifest env id) :
    markManifests env m' missing ids = .ok found := by
  induction ids generalizing found with
  | nil => exact h
  | cons id rest ih =>
    unfold markManifests at h ⊢
    obtain ⟨stored, lookup, h⟩ := Result.bind_eq_ok.1 h
    obtain ⟨manifest, there, h⟩ := Result.bind_eq_ok.1 h
    obtain ⟨more, marked, h⟩ := Result.bind_eq_ok.1 h
    cases h
    have later := ih marked fun id' listed => same id' (List.mem_cons_of_mem id listed)
    rw [same id List.mem_cons_self, lookup]
    simp only [bind, Except.bind, there, later]
    rfl

theorem markObjects_congr {values : List Bytes} {found : List (List ChunkId × List String)}
    (h : markObjects env m values = .ok found)
    (same : ∀ id ∈ found.flatMap Prod.snd, m'.getManifest env id = m.getManifest env id) :
    markObjects env m' values = .ok found := by
  induction values generalizing found with
  | nil => exact h
  | cons value rest ih =>
    unfold markObjects at h ⊢
    obtain ⟨record, decoded, h⟩ := Result.bind_eq_ok.1 h
    obtain ⟨marked, first, h⟩ := Result.bind_eq_ok.1 h
    obtain ⟨more, later, h⟩ := Result.bind_eq_ok.1 h
    cases h
    have first' : markObject env m' record = .ok marked :=
      markManifests_congr first fun id listed => same id (List.mem_append_left _ listed)
    have later' := ih later fun id listed => same id (List.mem_append_right _ listed)
    simp only [bind, Except.bind, decoded, first', later']
    rfl

theorem markSnapshots_congr {snapshots : List Snapshot} {found : List (List ChunkId × List String)}
    (h : snapshots.mapM (markSnapshot env m) = .ok found)
    (same : ∀ id ∈ found.flatMap Prod.snd, m'.getManifest env id = m.getManifest env id) :
    snapshots.mapM (markSnapshot env m') = .ok found := by
  induction snapshots generalizing found with
  | nil => exact h
  | cons snapshot rest ih =>
    rw [List.mapM_cons] at h ⊢
    obtain ⟨marked, first, h⟩ := Result.bind_eq_ok.1 h
    obtain ⟨more, later, h⟩ := Result.bind_eq_ok.1 h
    cases h
    have first' : markSnapshot env m' snapshot = .ok marked :=
      markManifests_congr first fun id listed => same id (List.mem_append_left _ listed)
    have later' := ih later fun id listed => same id (List.mem_append_right _ listed)
    simp only [bind, Except.bind, first', later']
    rfl

theorem mark_congr {marked : Marked} (h : mark env m = .ok marked)
    (objects : m'.objects = m.objects) (snapshots : m'.snapshots = m.snapshots)
    (same : ∀ id ∈ marked.manifests, m'.getManifest env id = m.getManifest env id) :
    mark env m' = .ok marked := by
  unfold mark MetadataStore.listSnapshots at h ⊢
  rw [objects, snapshots]
  obtain ⟨ofObjects, first, h⟩ := Result.bind_eq_ok.1 h
  obtain ⟨listed, listing, h⟩ := Result.bind_eq_ok.1 h
  obtain ⟨ofSnapshots, second, h⟩ := Result.bind_eq_ok.1 h
  cases h
  have same (id : String)
      (there : id ∈ ofObjects.flatMap Prod.snd ++ ofSnapshots.flatMap Prod.snd) :
      m'.getManifest env id = m.getManifest env id := by
    rw [← List.flatMap_append] at there
    exact same id there
  have first' : markObjects env m' (m.objects.toList.map Prod.snd) = .ok ofObjects :=
    markObjects_congr first fun id listed => same id (List.mem_append_left _ listed)
  have second' : listed.mapM (markSnapshot env m') = .ok ofSnapshots :=
    markSnapshots_congr second fun id listed => same id (List.mem_append_right _ listed)
  rw [first', listing]
  simp only [bind, Except.bind, second']
  rfl

/-- What is marked are the chunks that are reached. -/
theorem mem_chunks_marked {marked : Marked} (h : mark env m = .ok marked) (c : ChunkId) :
    c ∈ marked.chunks ↔ m.Reaches env c := by
  obtain ⟨roots, all, only⟩ := mark_ok h
  constructor
  · intro there
    obtain ⟨id, listed, manifest, found, hc⟩ := only c there
    exact ⟨id, manifest, (roots id).1 listed, found, hc⟩
  · intro ⟨id, manifest, root, found, hc⟩
    obtain ⟨manifest', found', chunks⟩ := all id ((roots id).2 root)
    rw [found] at found'
    cases found'
    exact chunks c hc

end Marking

/-! ## One collection -/

section Collecting

variable {env : Env} {files : Set Bytes} {f : Faults} {H K : Set ChunkId} {s s' : StorageEngine}

theorem MetadataStore.Root.listed {m : MetadataStore} {marked : Marked}
    (h : mark env m = .ok marked) {id : String} : m.Root env id ↔ id ∈ marked.manifests :=
  ((mark_ok h).1 id).symm

/-- What a collection that returned has left. -/
theorem Upheld.collected (h : Upheld env files .empty H K s)
    (distinct : NoCollision env (dataOf env files)) {marked : Marked}
    (did : GcDid env s.metadataStore s'.metadataStore marked)
    (h' : Upheld env files .empty {c | c ∈ H ∧ c ∈ marked.chunks} {c | c ∈ H ∧ c ∈ marked.chunks} s') :
    Collected env s s' := by
  obtain ⟨found, same⟩ := did
  obtain ⟨objects, snapshots, names, -⟩ := MetadataStore.swept_others s.metadataStore
    marked.manifests s.metadataStore.listAllManifestIds
  have kept {id : String} (there : id ∈ marked.manifests) :
      s'.metadataStore.getManifest env id = s.metadataStore.getManifest env id := by
    rw [same]
    exact MetadataStore.getManifest_swept_all _ there
  have stored {id : String} (there : id ∈ marked.manifests) :
      (s.metadataStore.manifests[id]?).isSome := by
    obtain ⟨manifest, got, -⟩ := (mark_ok found).2.1 id there
    cases stored : s.metadataStore.manifests[id]? with
    | none =>
      rw [MetadataStore.getManifest_of_none stored] at got
      cases got
    | some value => rfl
  have left (id : String) : (s'.metadataStore.manifests[id]?).isSome ↔ id ∈ marked.manifests := by
    rw [same, MetadataStore.manifests_swept_all]
    by_cases there : id ∈ marked.manifests
    · simp [there, stored there]
    · simp [there]
  refine ⟨same ▸ objects, same ▸ snapshots, same ▸ names, ?_, ?_, ?_⟩
  · intro id
    rw [left, MetadataStore.Root.listed found]
  · intro c
    rw [h'.holds.contains_iff, ← mem_chunks_marked found]
    constructor
    · exact fun there => there.2
    · intro there
      obtain ⟨id, manifest, -, got, hc⟩ := (mem_chunks_marked found c).1 there
      exact ⟨h.holds.le (h.needed ⟨id, manifest, got, hc⟩), there⟩
  · intro id root
    have there := (MetadataStore.Root.listed found).1 root
    obtain ⟨manifest, content, got, own, reads⟩ :=
      h.extract_manifest onlyMetadata_none distinct (stored there)
    obtain ⟨manifest', content', got', own', reads'⟩ :=
      h'.extract_manifest onlyMetadata_none distinct ((left id).2 there)
    rw [kept there, got] at got'
    obtain rfl := Option.some.inj (Except.ok.inj got')
    have equal : content' = content := distinct (.inl own'.1) (.inl own.1)
      (FixedBytes.ext (Text.hex_injective (own'.2.trans own.2.symm)))
    subst equal
    refine ⟨manifest, content', got, by rw [kept there, got], ?_, ?_⟩
    · exact ((reads fun _ => True).ends (total_engineMachine _)).mono fun _ _ given => given.2
    · exact ((reads' fun _ => True).ends (total_engineMachine _)).mono fun _ _ given => given.2

/-- A collection that has nothing to do. -/
theorem Upheld.gc_idle (h : Upheld env files .empty H K s) {marked : Marked}
    (found : mark env s.metadataStore = .ok marked)
    (listed : ∀ id ∈ s.metadataStore.listAllManifestIds, id ∈ marked.manifests)
    (held : ∀ c ∈ H, c ∈ marked.chunks) :
    Safe (engineMachine .none)
      (fun r _ => ∃ stats, r = .ok stats ∧ stats.chunksReclaimed = 0 ∧ stats.manifestsReclaimed = 0)
      (fun _ => True) (StorageEngine.gc env) s := by
  unfold StorageEngine.gc
  rw [safe_bind]
  apply safe_query
  · rw [found, thenSafe_ok]
    unfold sweep
    rw [safe_bind]
    apply safe_query
    · rw [thenSafe_ok, safe_bind]
      apply safe_forEach fun _ rest count t => t = s ∧ count = 0 ∧
        ∀ id ∈ rest, id ∈ marked.manifests
      · exact ⟨rfl, rfl, listed⟩
      · intro before id rest count t _ ⟨same, counted, there⟩
        rw [if_pos (there id List.mem_cons_self), safe_pure]
        exact ⟨same, counted, fun id' hid => there id' (List.mem_cons_of_mem id hid)⟩
      · intro count t ⟨same, counted, _⟩
        subst same
        rw [thenSafe_ok, safe_bind]
        apply StorageEngine.safe_segments
        have fits (c : ChunkId) (_ : c ∈ H) (_ : decide (c ∈ marked.chunks) = true) (d : Bytes)
            (known : piecesOf env files c d) : Fits env d :=
          fits_piecesOf known
        have compacts := h.holds.compactAndReclaim onlyMetadata_none.segment h.clean fits
        apply compacts.mono ?_ fun _ _ => trivial
        intro r g ⟨reclaimed, ok, nothing, _⟩
        rw [ok, thenSafe_ok, safe_bind]
        apply StorageEngine.safe_segments
        rw [Proc.safe_load]
        exact ⟨_, rfl, nothing fun c hc => decide_eq_true (held c hc), counted⟩
    · exact fun failed => failed.elim
  · exact fun failed => failed.elim

/-- A mark phase that fails leaves all as it was. -/
theorem returns_gc_error {e : OosLiteError} (failed : mark env s.metadataStore = .error e)
    {r : Result GcStats} (returned : Returns (engineMachine f) (StorageEngine.gc env) s r s') :
    (∃ e, r = .error e) ∧ s' = s := by
  have safe : Safe (engineMachine f) (fun r t => (∃ e, r = .error e) ∧ t = s) (fun _ => True)
      (StorageEngine.gc env) s := by
    unfold StorageEngine.gc
    rw [safe_bind]
    apply safe_query
    · rw [failed]
      exact ⟨⟨e, rfl⟩, rfl⟩
    · exact fun _ => ⟨⟨_, rfl⟩, rfl⟩
  exact safe.returns returned

/-- A manifest that is listed and missing, or cannot be decoded, fails the mark phase. -/
theorem MetadataStore.Root.mark_error {m : MetadataStore} {id : String} (root : m.Root env id)
    (missing : ∀ manifest, m.getManifest env id ≠ .ok (some manifest)) : ∃ e, mark env m = .error e := by
  cases found : mark env m with
  | error e => exact ⟨e, rfl⟩
  | ok marked =>
    obtain ⟨manifest, there, -⟩ := (mark_ok found).2.1 id ((MetadataStore.Root.listed found).1 root)
    exact absurd there (missing manifest)

end Collecting

/-- In every run in which nothing fails but transactions, with any crashes: a collection leaves
exactly what objects and snapshots reach, with the same contents, and another one right behind it
returns and reclaims nothing. In every state in which the mark phase fails, as it does if a manifest
of an object or of a snapshot is missing or cannot be decoded, the collection fails and changes
nothing. -/
theorem gc_exact {env : Env} :
    (∀ (run : EngineRun) (s : StorageEngine) (f : Faults), EngineReachable env OnlyTransactionsFail run →
      run.phase = .running s → NoCollision env (dataOf env run.history.files) → f.OnlyMetadata →
      ∀ stats s', Returns (engineMachine f) (StorageEngine.gc env) s (.ok stats) s' →
        Collected env s s' ∧ Ends (engineMachine .none) (StorageEngine.gc env) s' fun r _ =>
          ∃ stats', r = .ok stats' ∧ stats'.chunksReclaimed = 0 ∧ stats'.manifestsReclaimed = 0) ∧
    ∀ (s : StorageEngine) (f : Faults),
      ((∃ e, mark env s.metadataStore = .error e) ∨ ∃ id, s.metadataStore.Root env id ∧
        ∀ manifest, s.metadataStore.getManifest env id ≠ .ok (some manifest)) →
      ∀ r s', Returns (engineMachine f) (StorageEngine.gc env) s r s' →
        (∃ e, r = .error e) ∧ s' = s := by
  constructor
  · intro run s f reachable running distinct only stats s' returned
    have endures := reachable.endures fun _ _ only => only
    unfold Endures at endures
    rw [running] at endures
    obtain ⟨⟨H, K, kept⟩, -⟩ := endures
    obtain ⟨-, -, did⟩ := (kept.gc only).returns returned
    obtain ⟨marked, did, kept', -, -⟩ := did stats rfl
    refine ⟨kept.collected distinct did kept', ?_⟩
    obtain ⟨found, same⟩ := did
    obtain ⟨objects, snapshots, -, -⟩ := MetadataStore.swept_others s.metadataStore
      marked.manifests s.metadataStore.listAllManifestIds
    have found' : mark env s'.metadataStore = .ok marked := by
      rw [same]
      exact mark_congr found objects snapshots fun id there =>
        MetadataStore.getManifest_swept_all _ there
    have listed (id : String) (there : id ∈ s'.metadataStore.listAllManifestIds) :
        id ∈ marked.manifests := by
      have stored := MetadataStore.mem_listAllManifestIds.1 there
      rw [same, MetadataStore.manifests_swept_all] at stored
      by_contra gone
      rw [if_neg gone] at stored
      cases stored
    exact (kept'.gc_idle found' listed fun c hc => hc.2).ends (total_engineMachine _)
  · intro s f fails r s' returned
    obtain ⟨e, failed⟩ : ∃ e, mark env s.metadataStore = .error e := by
      rcases fails with failed | ⟨id, root, missing⟩
      · exact failed
      · exact root.mark_error missing
    exact returns_gc_error failed returned

namespace EngineSample

/-- The file has lost its name and is in a snapshot; another file is deleted. -/
def cleared : StorageEngine :=
  let captured := after reported (.createSnapshot "v1")
  let unbound := after captured (.unbind "report")
  after (after unbound (.put "draft" (file [1]) (FixedBytes.ofBytes 16 [3]))) (.delete "draft")

theorem reached_cleared : Reached [[7, 8], [9], [1]] cleared := by
  have more : Reached [[7, 8], [9], [1]] reported := by
    obtain ⟨g, reachable, within⟩ := reached_reported
    exact ⟨g, reachable, fun d there => List.mem_append_left [[1]] (within d there)⟩
  have none {call : EngineCall} (no : call.files = ∅) (d : Bytes) (there : d ∈ call.files) :
      d ∈ [[7, 8], [9], [1]] := by
    rw [no] at there
    exact there.elim
  apply ((more.after (.createSnapshot "v1") (none rfl)).after (.unbind "report") (none rfl)).after _ _
    |>.after (.delete "draft") (none rfl)
  intro d there
  simp [mem_files_put there]

/-- A collection, and the store after it. -/
def collecting : Result GcStats × StorageEngine := exec false answers (StorageEngine.gc env) [] cleared

/-- The same store without the manifest of the first version. -/
def damaged : StorageEngine :=
  cleared.withTables (cleared.metadataStore.deleteManifest (manifestOf env [7, 8] 0).contentId)

end EngineSample

/-- Of a deleted file the manifest and the chunk are collected, and both versions of the other one
stay. Without the manifest of one of them nothing is collected. -/
theorem gc_exact_cleared :
    (∃ stats, stats.manifestsReclaimed = 1 ∧ stats.chunksReclaimed = 1 ∧
      Returns (engineMachine (Faults.all false)) (StorageEngine.gc EngineSample.env)
        EngineSample.cleared (.ok stats) EngineSample.collecting.2) ∧
    Collected EngineSample.env EngineSample.cleared EngineSample.collecting.2 ∧
    EngineSample.collecting.2.metadataStore.listAllManifestIds.length = 2 ∧
    ∀ r s', Returns (engineMachine (Faults.all false)) (StorageEngine.gc EngineSample.env)
      EngineSample.damaged r s' → (∃ e, r = .error e) ∧ s' = EngineSample.damaged := by
  obtain ⟨g, reachable, within⟩ := EngineSample.reached_cleared
  have distinct := EngineSample.noCollision [[7, 8], [9], [1]] within (by decide +kernel)
  obtain ⟨exact, aborts⟩ := @gc_exact EngineSample.env
  have computed : EngineSample.collecting.1.map (fun s => (s.manifestsReclaimed, s.chunksReclaimed)) =
        .ok (1, 1) ∧ EngineSample.collecting.2.metadataStore.listAllManifestIds.length = 2 ∧
      (mark EngineSample.env EngineSample.damaged.metadataStore).isOk = false := by
    decide +kernel
  obtain ⟨reclaims, left, fails⟩ := computed
  have returned := returns_exec false EngineSample.answers (StorageEngine.gc EngineSample.env) []
    EngineSample.cleared
  have returned : Returns (engineMachine (Faults.all false)) (StorageEngine.gc EngineSample.env)
    EngineSample.cleared EngineSample.collecting.1 EngineSample.collecting.2 := returned
  have failed : ∃ e, mark EngineSample.env EngineSample.damaged.metadataStore = .error e := by
    cases found : mark EngineSample.env EngineSample.damaged.metadataStore with
    | error e => exact ⟨e, rfl⟩
    | ok marked =>
      rw [found] at fails
      cases fails
  cases done : EngineSample.collecting.1 with
  | error e =>
    rw [done] at reclaims
    cases reclaims
  | ok stats =>
    rw [done] at reclaims returned
    obtain ⟨manifests, chunks⟩ := Prod.mk.inj (Except.ok.inj reclaims)
    have collected := (exact _ _ _ reachable rfl distinct EngineSample.onlyMetadata _ _ returned).1
    exact ⟨⟨stats, manifests, chunks, returned⟩, collected, left, aborts _ _ (.inl failed)⟩

end OosLite
