import OosLite.Engine.Fsck
import OosLite.Engine.Proofs.Reads

/-!
# What a healthy report says

The checker looks at chunks one by one and at whether manifests exist; extraction resolves names and
compares whole files. What is left to the tables is that every name leads to a manifest, and that a
manifest belongs to a content that has the chunks it lists.
-/

namespace OosLite

open Files Effect

variable {env : Env}

/-! ## What is stored -/

/-- What `get_chunk` finds. -/
def storedChunk (env : Env) (s : SegState) (id : ChunkId) : Result Bytes := do
  let location ← SegmentStore.locationOf (s.mem.index .own) id
  match s.fs.data (.active location.segmentId) with
  | some file => readRecord env file id location
  | none => .error (.internal ("Failed to open segment file: " ++
      (OosLiteError.ofIo .notFound).display))

/-- The chunks of a manifest, one after the other. -/
def contents (env : Env) (s : SegState) (chunks : List ChunkId) : Result Bytes :=
  chunks.foldlM (fun written id => do return written ++ (← storedChunk env s id)) []

/-- The chunk is stored, and is the one with this identifier. -/
def Intact (env : Env) (s : SegState) (id : ChunkId) : Prop :=
  ∃ d, storedChunk env s id = .ok d ∧ ChunkId.fromData env d = id

/-- Chunks that are intact are read one after the other. -/
theorem contents_of_intact {s : SegState} {chunks : List ChunkId}
    (intact : ∀ id ∈ chunks, Intact env s id) : ∃ pieces : List Bytes,
      (∀ d ∈ pieces, ∃ id, storedChunk env s id = .ok d) ∧
      chunks = pieces.map (ChunkId.fromData env) ∧ contents env s chunks = .ok pieces.flatten := by
  have read : ∃ pieces : List Bytes, (∀ d ∈ pieces, ∃ id, storedChunk env s id = .ok d) ∧
      chunks = pieces.map (ChunkId.fromData env) ∧ ∀ written,
        (chunks.foldlM (fun written id => do return written ++ (← storedChunk env s id)) written :
          Result Bytes) = .ok (written ++ pieces.flatten) := by
    induction chunks with
    | nil => exact ⟨[], nofun, rfl, fun written => by rw [List.flatten_nil, List.append_nil]; rfl⟩
    | cons id chunks ih =>
      obtain ⟨d, stored, own⟩ := intact id List.mem_cons_self
      obtain ⟨pieces, all, ids, read⟩ := ih fun id hid => intact id (List.mem_cons_of_mem _ hid)
      refine ⟨d :: pieces, List.forall_mem_cons.2 ⟨⟨id, stored⟩, all⟩, ?_, fun written => ?_⟩
      · rw [List.map_cons, own, ids]
      · rw [List.foldlM_cons, List.flatten_cons, ← List.append_assoc, ← read (written ++ d)]
        simp only [stored, bind, Except.bind, pure, Except.pure]
  obtain ⟨pieces, all, ids, read⟩ := read
  exact ⟨pieces, all, ids, read []⟩

theorem safe_getChunk_stored {faulty : FsOp SegPath → Prop} {C : SegState → Prop} (s : SegState)
    (id : ChunkId) :
    Safe (segMachine faulty)
      (fun r t => t = s ∧ (∀ d, r = .ok d → storedChunk env s id = .ok d) ∧
        ((∀ o, ¬ faulty o) → r = storedChunk env s id)) C (SegmentStore.getChunk env id) s := by
  unfold SegmentStore.getChunk storedChunk
  rw [safe_bind, Proc.safe_load, thenSafe_ok, safe_bind, safe_ofExcept]
  cases SegmentStore.locationOf (s.mem.index .own) id with
  | error e => exact ⟨rfl, fun _ h => (by cases h), fun _ => rfl⟩
  | ok location =>
    rw [thenSafe_ok, SegmentStore.readChunk, safe_bind, safe_handle]
    apply Proc.safe_read
    · intro f hf
      simp only [thenSafe_ok, safe_ofExcept]
      have there : s.fs.data (.active location.segmentId) = some f.data := by
        rw [Fs.data, hf]
        rfl
      simp only [there, bind, Except.bind]
      exact ⟨trivial, fun _ h => h, fun _ => trivial⟩
    · intro absent
      have gone : s.fs.data (.active location.segmentId) = none := by
        rw [Fs.data, absent]
        rfl
      simp only [gone, bind, Except.bind]
      exact ⟨rfl, fun _ h => (by cases h), fun _ => rfl⟩
    · intro fault
      exact ⟨rfl, fun _ h => (by cases h), fun steady => absurd fault (steady _)⟩

/-! ## Checks -/

namespace FsckReport

/-- Nothing was found. -/
structure Clean (r : FsckReport) : Prop where
  corrupted : r.corruptedChunks = 0
  missing : r.missingChunks = 0
  errors : r.errors = []

theorem clean_error {r : FsckReport} {message : String} : ¬ (r.error message).Clean := by
  intro clean
  have := clean.errors
  simp [error] at this

theorem clean_corrupted {r : FsckReport} {message : String} : ¬ (r.corrupted message).Clean := by
  intro clean
  have := clean.corrupted
  simp [corrupted] at this

theorem clean_missing {r : FsckReport} {message : String} : ¬ (r.missing message).Clean := by
  intro clean
  have := clean.missing
  simp [missing] at this

theorem isHealthy_finish (r : FsckReport) : r.finish.isHealthy = true ↔ r.Clean := by
  simp only [finish, Bool.and_eq_true, decide_eq_true_eq, List.isEmpty_iff]
  constructor
  · rintro ⟨⟨corrupted, missing⟩, errors⟩
    exact ⟨corrupted, missing, errors⟩
  · intro clean
    exact ⟨⟨clean.corrupted, clean.missing⟩, clean.errors⟩

end FsckReport

/-- A clean report was clean before, and what was checked is so. -/
def Finds (before : FsckReport) (fact : Prop) (r : Result FsckReport) : Prop :=
  ∀ after, r = .ok after → after.Clean → before.Clean ∧ fact

/-- The rule of a loop of checks. -/
theorem safe_checks {Op : Type} {Res : Op → Type} {σ τ : Type} {M : Machine Op Res OosLiteError σ}
    {C : σ → Prop} {s : σ} {fact : τ → Prop} {step : FsckReport → τ → Prog Op Res OosLiteError FsckReport}
    (check : ∀ report x, Safe M (fun r t => t = s ∧ Finds report (fact x) r) C (step report x) s)
    (report : FsckReport) (xs : List τ) :
    Safe M (fun r t => t = s ∧ Finds report (∀ x ∈ xs, fact x) r) C (Prog.forEach step report xs)
      s := by
  induction xs generalizing report with
  | nil =>
    refine ⟨rfl, ?_⟩
    rintro _ ⟨⟩ clean
    exact ⟨clean, nofun⟩
  | cons x xs ih =>
    apply Safe.bind (check report x)
    · rintro report₁ _ ⟨rfl, first⟩
      apply (ih report₁).mono _ fun _ h => h
      rintro r _ ⟨rfl, rest⟩
      refine ⟨rfl, fun after ok clean => ?_⟩
      obtain ⟨clean₁, others⟩ := rest after ok clean
      obtain ⟨clean₀, this⟩ := first report₁ rfl clean₁
      exact ⟨clean₀, List.forall_mem_cons.2 ⟨this, others⟩⟩
    · rintro e _ ⟨rfl, -⟩
      exact ⟨rfl, nofun⟩

namespace FsckRunner

variable {f : Faults} {C : StorageEngine → Prop}

/-- Whatever the segment files are found to be, nothing is repaired. -/
theorem safe_checkSegments {faulty : FsOp SegPath → Prop} {C : SegState → Prop} (s : SegState)
    (report : FsckReport) :
    Safe (segMachine faulty) (fun _ t => t = s) C (checkSegments env report) s := by
  unfold checkSegments SegmentStore.listIds
  rw [safe_bind, safe_bind]
  apply Proc.safe_list
  · intro ps _
    rw [thenSafe_ok]
    apply safe_forEach fun _ _ _ t => t = s
    · rfl
    · intro _ id _ report t _ same
      subst same
      show Safe _ _ _ (Proc.read _ >>= _) _
      rw [safe_bind]
      apply Proc.safe_read
      · intro f _
        exact rfl
      · intro _
        exact rfl
      · intro _
        exact rfl
    · intro _ t same
      exact same
  · intro _
    rfl

theorem safe_checkChunk {faulty : FsOp SegPath → Prop} {C : SegState → Prop} (s : SegState)
    (manifestId : String) (report : FsckReport) (id : ChunkId) :
    Safe (segMachine faulty)
      (fun r t => t = s ∧ Finds report (Intact env s id) r) C
      (checkChunk env manifestId report id) s := by
  unfold checkChunk SegmentStore.hasChunk
  rw [safe_bind, safe_bind, Proc.safe_load]
  show Safe _ _ _ (if _ then _ else _) _
  by_cases there : ((s.mem.index .own).contains id) = true
  · rw [if_neg (by simp [there])]
    rw [safe_bind, safe_result]
    apply (safe_getChunk_stored s id).mono _ fun _ h => h
    intro r t found
    obtain ⟨same, stored, -⟩ := found
    subst same
    rw [thenSafe_ok]
    cases r with
    | error e =>
      refine ⟨rfl, ?_⟩
      rintro _ ⟨⟩ clean
      exact absurd clean FsckReport.clean_corrupted
    | ok d =>
      show Safe _ _ _ (if _ then _ else _) _
      by_cases same : ChunkId.fromData env d = id
      · rw [if_neg (by simp [same])]
        refine ⟨rfl, ?_⟩
        rintro _ ⟨⟩ clean
        exact ⟨clean, d, stored d rfl, same⟩
      · rw [if_pos same]
        refine ⟨rfl, ?_⟩
        rintro _ ⟨⟩ clean
        exact absurd clean FsckReport.clean_corrupted
  · rw [if_pos (by simpa using there)]
    refine ⟨rfl, ?_⟩
    rintro _ ⟨⟩ clean
    exact absurd clean FsckReport.clean_missing

/-- The manifest is there, and every chunk of it is intact. -/
def Complete (env : Env) (s : StorageEngine) (manifestId : String) : Prop :=
  ∃ manifest, s.metadataStore.getManifest env manifestId = .ok (some manifest) ∧
    ∀ id ∈ manifest.chunks, Intact env s.segmentStore id

theorem safe_checkManifest (s : StorageEngine) (report : FsckReport) (manifestId : String) :
    Safe (engineMachine f) (fun r t => t = s ∧ Finds report (Complete env s manifestId) r) C
      (checkManifest env report manifestId) s := by
  unfold checkManifest
  simp only
  rw [safe_bind]
  apply StorageEngine.safe_query
  · cases found : s.metadataStore.getManifest env manifestId with
    | error e => exact ⟨rfl, nofun⟩
    | ok manifest =>
      rw [thenSafe_ok]
      cases manifest with
      | none =>
        refine ⟨rfl, ?_⟩
        rintro _ ⟨⟩ clean
        exact absurd clean FsckReport.clean_error
      | some manifest =>
        have chunk : ∀ report id, Safe (engineMachine f) (fun r t => t = s ∧
            Finds report (Intact env s.segmentStore id) r) C
            (StorageEngine.segments (checkChunk env manifestId report id)) s := by
          intro report id
          apply StorageEngine.safe_segments
          apply (safe_checkChunk s.segmentStore manifestId report id).mono
          · rintro r _ ⟨rfl, finds⟩
            exact ⟨rfl, finds⟩
          · intro _ h
            exact h
        have checked := safe_checks chunk
          { report with manifestsChecked := report.manifestsChecked + 1 } manifest.chunks
        apply checked.mono _ fun _ h => h
        rintro r _ ⟨rfl, finds⟩
        refine ⟨rfl, fun after ok clean => ?_⟩
        obtain ⟨before, all⟩ := finds after ok clean
        exact ⟨⟨before.corrupted, before.missing, before.errors⟩, manifest, found, all⟩
  · intro _
    exact ⟨rfl, nofun⟩

theorem safe_checkReference (s : StorageEngine) (report : FsckReport) (manifestId message : String) :
    Safe (engineMachine f) (fun r t => t = s ∧ Finds report
      (∃ manifest, s.metadataStore.getManifest env manifestId = .ok (some manifest)) r) C
      (checkReference env report manifestId message) s := by
  unfold checkReference
  rw [safe_bind]
  apply StorageEngine.safe_query
  · cases found : s.metadataStore.getManifest env manifestId with
    | error e => exact ⟨rfl, nofun⟩
    | ok manifest =>
      rw [thenSafe_ok]
      cases manifest with
      | none =>
        refine ⟨rfl, ?_⟩
        rintro _ ⟨⟩ clean
        exact absurd clean FsckReport.clean_error
      | some manifest =>
        refine ⟨rfl, ?_⟩
        rintro _ ⟨⟩ clean
        exact ⟨clean, manifest, rfl⟩
  · intro _
    exact ⟨rfl, nofun⟩

/-- The value is a record, and the manifests of its versions are there. -/
def Listed (env : Env) (s : StorageEngine) (value : Bytes) : Prop :=
  ∃ record, ObjectRecord.fromBytes value = .ok record ∧
    ∀ v ∈ record.versions,
      ∃ manifest, s.metadataStore.getManifest env v.manifestId = .ok (some manifest)

theorem safe_checkObject (s : StorageEngine) (report : FsckReport) (value : Bytes) :
    Safe (engineMachine f) (fun r t => t = s ∧ Finds report (Listed env s value) r) C
      (checkObject env report value) s := by
  unfold checkObject
  rw [safe_bind, safe_ofExcept]
  cases decoded : ObjectRecord.fromBytes value with
  | error e => exact ⟨rfl, nofun⟩
  | ok record =>
    rw [thenSafe_ok]
    apply (safe_checks (fun report v => safe_checkReference s report _ _)
      { report with objectsChecked := report.objectsChecked + 1 } record.versions).mono
        _ fun _ h => h
    rintro r _ ⟨rfl, finds⟩
    refine ⟨rfl, fun after ok clean => ?_⟩
    obtain ⟨before, all⟩ := finds after ok clean
    exact ⟨⟨before.corrupted, before.missing, before.errors⟩, record, decoded, all⟩

theorem safe_checkSnapshot (s : StorageEngine) (report : FsckReport) (snapshot : Snapshot) :
    Safe (engineMachine f) (fun r t => t = s ∧ Finds report (∀ entry ∈ snapshot.entries,
      ∃ manifest, s.metadataStore.getManifest env entry.manifestId = .ok (some manifest)) r) C
      (checkSnapshot env report snapshot) s :=
  safe_checks (fun report _ => safe_checkReference s report _ _) report snapshot.entries

end FsckRunner

namespace StorageEngine

open FsckRunner

variable {f : Faults} {C : StorageEngine → Prop}

/-- What a healthy report says. -/
structure Checked (env : Env) (s : StorageEngine) : Prop where
  manifests : ∀ id ∈ s.metadataStore.listAllManifestIds, FsckRunner.Complete env s id
  objects : ∀ value ∈ s.metadataStore.objects.toList.map Prod.snd, FsckRunner.Listed env s value
  snapshots : ∃ snapshots, s.metadataStore.listSnapshots env = .ok snapshots ∧
    ∀ snapshot ∈ snapshots, ∀ entry ∈ snapshot.entries,
      ∃ manifest, s.metadataStore.getManifest env entry.manifestId = .ok (some manifest)

theorem safe_fsck (s : StorageEngine) :
    Safe (engineMachine f)
      (fun r t => t = s ∧ ∀ report, r = .ok report → report.isHealthy = true → Checked env s) C
      (fsck env) s := by
  unfold fsck
  apply Safe.bind (P := fun _ t => t = s)
  · exact safe_segments ((safe_checkSegments s.segmentStore {}).mono (fun _ _ same => by rw [same]; rfl)
      fun _ h => h)
  · intro report₁ t same
    rw [same, safe_bind]
    apply safe_query _ fun _ => ⟨rfl, nofun⟩
    rw [thenSafe_ok]
    apply Safe.bind (safe_checks (safe_checkManifest s) report₁ _)
    · intro report₂ t ⟨same, manifests⟩
      rw [same, safe_bind]
      apply safe_tables _ fun _ => ⟨rfl, nofun⟩
      rw [thenSafe_ok]
      apply Safe.bind (safe_checks (safe_checkObject s) report₂ _)
      · intro report₃ t ⟨same, objects⟩
        rw [same, safe_bind]
        apply safe_query _ fun _ => ⟨rfl, nofun⟩
        cases listed : s.metadataStore.listSnapshots env with
        | error e => exact ⟨rfl, nofun⟩
        | ok snapshots =>
          rw [thenSafe_ok]
          apply Safe.bind (safe_checks (safe_checkSnapshot s) report₃ snapshots)
          · intro report₄ t ⟨same, entries⟩
            refine ⟨same, ?_⟩
            rintro _ ⟨⟩ healthy
            -- a report that is clean at the end was clean all the way
            obtain ⟨clean₃, entries⟩ := entries report₄ rfl (report₄.isHealthy_finish.1 healthy)
            obtain ⟨clean₂, objects⟩ := objects report₃ rfl clean₃
            obtain ⟨-, manifests⟩ := manifests report₂ rfl clean₂
            exact ⟨manifests, objects, snapshots, listed, entries⟩
          · intro e t stopped
            exact ⟨stopped.1, nofun⟩
      · intro e t stopped
        exact ⟨stopped.1, nofun⟩
    · intro e t stopped
      exact ⟨stopped.1, nofun⟩
  · intro e t same
    exact ⟨same, nofun⟩

/-! ## What extraction needs -/

/-- What is extracted of a manifest. -/
def extracted (env : Env) (s : StorageEngine) (manifest : Manifest) : Result Bytes := do
  let content ← contents env s.segmentStore manifest.chunks
  if env.blake3 content ≠ manifest.contentHash then
    throw (.internal ("Reconstructed file BLAKE3 mismatch: expected " ++ manifest.contentId ++
      ", got " ++ ChunkId.toHex (env.blake3 content)))
  else return content

theorem safe_extractManifestToFile (s : StorageEngine) (manifest : Manifest) :
    Safe (engineMachine .none) (fun r t => t = s ∧ r = extracted env s manifest) C
      (extractManifestToFile env manifest) s := by
  have written : Safe (engineMachine .none)
      (fun r t => t = s ∧ r = contents env s.segmentStore manifest.chunks) C
      (Prog.forEach (fun written id => do
        let data ← segments (SegmentStore.getChunk env id)
        return written ++ data) [] manifest.chunks) s := by
    unfold contents
    generalize ([] : Bytes) = written
    induction manifest.chunks generalizing written with
    | nil => exact ⟨rfl, rfl⟩
    | cons id rest ih =>
      rw [List.foldlM_cons]
      show Safe _ _ _ (_ >>= _) _
      rw [safe_bind, safe_bind]
      apply safe_segments
      apply (safe_getChunk_stored s.segmentStore id).mono _ fun _ h => h
      intro r t ⟨same, found⟩
      rw [same, found.2 fun _ fault => fault]
      cases storedChunk env s.segmentStore id with
      | error e => exact ⟨rfl, rfl⟩
      | ok data => exact ih (written ++ data)
  unfold extractManifestToFile extracted
  apply Safe.bind written
  · intro content t ⟨same, found⟩
    rw [same, ← found]
    show Safe _ _ _ (if _ then _ else _) _
    by_cases differs : env.blake3 content ≠ manifest.contentHash
    · rw [if_pos differs]
      exact ⟨rfl, (if_pos differs).symm⟩
    · rw [if_neg differs]
      exact ⟨rfl, (if_neg differs).symm⟩
  · intro e t ⟨same, found⟩
    rw [← found]
    exact ⟨same, rfl⟩

/-- `get_file_version` without faults. -/
theorem safe_getFileVersion (s : StorageEngine) (target : String) (version : Option UInt32) :
    Safe (engineMachine .none)
      (fun r t => t = s ∧ r = (do extracted env s (← manifestFor env s.metadataStore target version)))
      C (getFileVersion env target version) s := by
  unfold getFileVersion
  rw [safe_bind]
  apply safe_query _ nofun
  cases manifestFor env s.metadataStore target version with
  | error e => exact ⟨rfl, rfl⟩
  | ok manifest =>
    rw [thenSafe_ok]
    exact safe_extractManifestToFile s manifest

/-- Without faults, it ends with an answer. -/
def Succeeds (s : StorageEngine) (p : EngineProg Bytes) : Prop :=
  Ends (engineMachine .none) p s fun r _ => ∃ content, r = .ok content

theorem succeeds_iff {s : StorageEngine} {p : EngineProg Bytes} {r : Result Bytes}
    (runs : Safe (engineMachine .none) (fun r' t => t = s ∧ r' = r) (fun _ => True) p s) :
    Succeeds s p ↔ ∃ content, r = .ok content := by
  have ends := runs.ends (total_engineMachine .none)
  constructor
  · intro succeeds
    obtain ⟨r', t, run⟩ := ends.some
    rw [← (ends.all r' t run).2]
    exact succeeds.all r' t run
  · intro found
    apply ends.mono
    rintro r' _ ⟨-, rfl⟩
    exact found

theorem extracted_iff {s : StorageEngine} {manifest : Manifest} :
    (∃ content, extracted env s manifest = .ok content) ↔
      ∃ content, contents env s.segmentStore manifest.chunks = .ok content ∧
        env.blake3 content = manifest.contentHash := by
  unfold extracted
  constructor
  · rintro ⟨content, ok⟩
    obtain ⟨content', found, ok⟩ := Result.bind_eq_ok.1 ok
    refine ⟨content', found, ?_⟩
    by_contra differs
    rw [if_pos differs] at ok
    cases ok
  · rintro ⟨content, found, same⟩
    refine ⟨content, Result.bind_eq_ok.2 ⟨content, found, ?_⟩⟩
    rw [if_neg (not_not_intro same)]
    rfl

theorem succeeds_getFileVersion_iff {s : StorageEngine} {target : String}
    {version : Option UInt32} :
    Succeeds s (getFileVersion env target version) ↔
      ∃ manifest, manifestFor env s.metadataStore target version = .ok manifest ∧
        ∃ content, contents env s.segmentStore manifest.chunks = .ok content ∧
          env.blake3 content = manifest.contentHash := by
  rw [succeeds_iff (safe_getFileVersion s target version)]
  constructor
  · rintro ⟨content, ok⟩
    obtain ⟨manifest, found, ok⟩ := Result.bind_eq_ok.1 ok
    exact ⟨manifest, found, extracted_iff.1 ⟨content, ok⟩⟩
  · rintro ⟨manifest, found, rehashes⟩
    obtain ⟨content, ok⟩ := extracted_iff.2 rehashes
    exact ⟨content, Result.bind_eq_ok.2 ⟨manifest, found, ok⟩⟩

/-! ## Trust -/

/-- The store can be read: every name, every listed version and every entry of a snapshot. -/
structure Trustworthy (env : Env) (s : StorageEngine) : Prop where
  names : ∀ name ∈ s.metadataStore.names, Succeeds s (getFileVersion env name none)
  versions : ∀ id record, s.metadataStore.getObject id = .ok (some record) →
    ∀ v ∈ record.versions, Succeeds s (getFileVersion env id.toHex (some v.version))
  snapshots : ∃ snapshots, s.metadataStore.listSnapshots env = .ok snapshots ∧
    ∀ snapshot ∈ snapshots, ∀ entry ∈ snapshot.entries, ∃ manifest,
      s.metadataStore.getManifest env entry.manifestId = .ok (some manifest) ∧
        Succeeds s (extractManifestToFile env manifest)

/-- The manifest of the last version, if there is a record. -/
def latestOf (m : MetadataStore) (id : Option ObjectId) : Option String :=
  id.bind fun id => match m.getObject id with
    | .ok (some record) => some record.latestManifestId
    | _ => none

/-- The manifests a target may stand for, in the order in which they are tried. -/
def candidates (m : MetadataStore) (target : String) : List String :=
  (latestOf m (m.resolveName target)).toList ++ (latestOf m (ObjectId.parse target)).toList ++
    [target]

/-- The object has a record that lists a version. -/
def Versioned (m : MetadataStore) (id : Option ObjectId) : Prop :=
  ∃ object record, id = some object ∧ m.getObject object = .ok (some record) ∧ record.versions ≠ []

/-- The target stands for an object with a version, or for a key of the table of manifests. -/
def Leads (m : MetadataStore) (target : String) : Prop :=
  Versioned m (m.resolveName target) ∨ Versioned m (ObjectId.parse target) ∨
    ∃ id ∈ candidates m target, m.manifests.contains id = true

/-- A manifest belongs to a content in pieces: it lists their identifiers and has the digest of
all of them together. -/
def Describes (env : Env) (D : Set Bytes) (manifest : Manifest) : Prop :=
  ∃ pieces : List Bytes, (∀ d ∈ pieces, d ∈ D) ∧
    manifest.chunks = pieces.map (ChunkId.fromData env) ∧
    manifest.contentHash = env.blake3 pieces.flatten

/-- If there is a manifest under this key, it belongs to a content. -/
def Sound (env : Env) (D : Set Bytes) (m : MetadataStore) (id : String) : Prop :=
  ∀ manifest, m.getManifest env id = .ok (some manifest) → Describes env D manifest

/-- What the tables have to be like beyond what is checked. No segment file is looked at. -/
structure Consistent (env : Env) (D : Set Bytes) (m : MetadataStore) : Prop where
  /-- Every name leads somewhere, and its first candidate that is a key belongs to a content. -/
  names : ∀ name ∈ m.names, Leads m (Text.trim name) ∧
    ∀ id, (candidates m (Text.trim name)).find? (m.manifests.contains ·) = some id → Sound env D m id
  /-- The object that the id of an object leads to, a name that looks like it going first, lists
  the version, and the first such version belongs to a content. -/
  versions : ∀ id record, m.getObject id = .ok (some record) → ∀ v ∈ record.versions,
    ∃ listed entry, m.getObject ((m.resolveName id.toHex).getD id) = .ok (some listed) ∧
      listed.versions.find? (fun entry => entry.version = v.version) = some entry ∧
      Sound env D m entry.manifestId
  snapshots : ∀ snapshots, m.listSnapshots env = .ok snapshots → ∀ snapshot ∈ snapshots,
    ∀ entry ∈ snapshot.entries, Sound env D m entry.manifestId

/-- Every manifest that is in the table can be read. -/
theorem Checked.getManifest_eq {s : StorageEngine} (checked : Checked env s) (id : String) :
    (∃ manifest, s.metadataStore.getManifest env id = .ok (some manifest)) ∧
        s.metadataStore.manifests.contains id = true ∨
      s.metadataStore.getManifest env id = .ok none ∧
        s.metadataStore.manifests.contains id = false := by
  by_cases there : id ∈ s.metadataStore.manifests
  · left
    obtain ⟨manifest, found, -⟩ := checked.manifests id
      (MetadataStore.mem_listAllManifestIds.2 (Std.ExtTreeMap.mem_iff_isSome_getElem?.1 there))
    exact ⟨⟨manifest, found⟩, there⟩
  · right
    refine ⟨?_, Bool.eq_false_iff.2 there⟩
    unfold MetadataStore.getManifest
    rw [Std.ExtTreeMap.getElem?_eq_none there]

/-- Every record of the table can be read. -/
theorem Checked.getObject_ok {s : StorageEngine} (checked : Checked env s) (id : ObjectId) :
    ∃ record, s.metadataStore.getObject id = .ok record := by
  unfold MetadataStore.getObject
  cases found : s.metadataStore.objects[id]? with
  | none => exact ⟨none, rfl⟩
  | some value =>
    obtain ⟨record, decoded, -⟩ := checked.objects value
      (List.mem_map.2 ⟨(id, value), Std.ExtTreeMap.mem_toList_iff_getElem?_eq_some.2 found, rfl⟩)
    exact ⟨some record, Result.bind_eq_ok.2 ⟨record, decoded, rfl⟩⟩

/-- Under the checks, the first candidate that is in the table is taken. -/
theorem resolveManifest_eq_ok_iff {s : StorageEngine} (checked : Checked env s) {target : String}
    {manifest : Manifest} :
    resolveManifest env s.metadataStore target = .ok manifest ↔ ∃ id,
      (candidates s.metadataStore (Text.trim target)).find? (s.metadataStore.manifests.contains ·) =
        some id ∧ s.metadataStore.getManifest env id = .ok (some manifest) := by
  have read : ∀ id, ∃ found : Option Manifest, s.metadataStore.getManifest env id = .ok found ∧
      s.metadataStore.manifests.contains id = found.isSome := by
    intro id
    rcases checked.getManifest_eq id with ⟨⟨manifest, found⟩, there⟩ | ⟨found, absent⟩
    · exact ⟨some manifest, found, there⟩
    · exact ⟨none, found, absent⟩
  choose lookup found there using read
  choose record known using checked.getObject_ok
  have latest : ∀ id, latestOf s.metadataStore id =
      (id.bind record).map ObjectRecord.latestManifestId := by
    intro id
    cases id with
    | none => rfl
    | some id =>
      rw [latestOf, Option.bind_some, Option.bind_some, known]
      cases record id <;> rfl
  have closed : resolveManifest env s.metadataStore target =
      (((latestOf s.metadataStore (s.metadataStore.resolveName (Text.trim target))).bind
        lookup).or (((latestOf s.metadataStore (ObjectId.parse (Text.trim target))).bind lookup).or
          (lookup (Text.trim target)))).elim
        (.error (.objectNotFound ("Target '" ++ Text.trim target ++
          "' could not be resolved to any valid file name, ObjectId, or ManifestId"))) .ok := by
    unfold resolveManifest
    simp only [known, found, latest, bind, Except.bind, pure, Except.pure, throw, throwThe,
      MonadExceptOf.throw]
    -- the answers of the three look-ups, one after the other
    generalize lookup (Text.trim target) = last
    rcases s.metadataStore.resolveName (Text.trim target) with _ | a <;>
      rcases ObjectId.parse (Text.trim target) with _ | b <;>
      simp only [Option.bind_some, Option.bind_none]
    · cases last <;> rfl
    · rcases record b with _ | r
      · cases last <;> rfl
      · simp only [Option.map_some, Option.bind_some]
        cases lookup r.latestManifestId <;> cases last <;> rfl
    · rcases record a with _ | r
      · cases last <;> rfl
      · simp only [Option.map_some, Option.bind_some]
        cases lookup r.latestManifestId <;> cases last <;> rfl
    · rcases record a with _ | r <;> rcases record b with _ | r' <;>
        simp only [Option.map_some, Option.map_none, Option.bind_some, Option.bind_none]
      · cases last <;> rfl
      · cases lookup r'.latestManifestId <;> cases last <;> rfl
      · cases lookup r.latestManifestId <;> cases last <;> rfl
      · cases lookup r.latestManifestId <;> cases lookup r'.latestManifestId <;> cases last <;> rfl
  have chosen : ∀ ids : List String, ids.findSome? lookup = some manifest ↔
      ∃ id, ids.find? (s.metadataStore.manifests.contains ·) = some id ∧
        s.metadataStore.getManifest env id = .ok (some manifest) := by
    intro ids
    induction ids with
    | nil => simp
    | cons id ids ih =>
      rw [List.findSome?_cons, List.find?_cons]
      simp only [there, found] at ih ⊢
      cases answer : lookup id with
      | none => simpa [answer] using ih
      | some m => simp [answer]
  have single : ∀ id : Option String, id.toList.findSome? lookup = id.bind lookup := by
    intro id
    cases id <;> simp
  have last : [Text.trim target].findSome? lookup = lookup (Text.trim target) := by simp
  rw [closed, ← chosen, candidates, List.append_assoc, List.findSome?_append, List.findSome?_append,
    single, single, last]
  cases Option.or _ _ <;> simp

/-- A version of an object that is given by its id. -/
theorem versionManifest_eq_ok_iff {m : MetadataStore} {id : ObjectId} {v : UInt32}
    {manifest : Manifest} :
    versionManifest env m id.toHex v = .ok manifest ↔ ∃ listed entry,
      m.getObject ((m.resolveName id.toHex).getD id) = .ok (some listed) ∧
      listed.versions.find? (fun entry => entry.version = v) = some entry ∧
      m.getManifest env entry.manifestId = .ok (some manifest) := by
  have target : ∀ e, targetObject m id.toHex e = .ok ((m.resolveName id.toHex).getD id) := by
    intro e
    unfold targetObject
    cases m.resolveName id.toHex with
    | none => rw [ObjectId.parse_toHex]; rfl
    | some named => rfl
  unfold versionManifest
  rw [target]
  constructor
  · intro ok
    obtain ⟨_, ⟨⟩, ok⟩ := Result.bind_eq_ok.1 ok
    obtain ⟨found, read, ok⟩ := Result.bind_eq_ok.1 ok
    obtain ⟨listed, there, ok⟩ := Result.bind_eq_ok.1 ok
    obtain ⟨entry, first, ok⟩ := Result.bind_eq_ok.1 ok
    obtain ⟨last, manifest_read, ok⟩ := Result.bind_eq_ok.1 ok
    rw [Option.orError_eq_ok] at there first ok
    rw [there] at read
    rw [ok] at manifest_read
    exact ⟨listed, entry, read, first, manifest_read⟩
  · rintro ⟨listed, entry, read, first, found⟩
    refine Result.bind_eq_ok.2 ⟨_, rfl, Result.bind_eq_ok.2 ⟨_, read, Result.bind_eq_ok.2
      ⟨listed, rfl, Result.bind_eq_ok.2 ⟨entry, Option.orError_eq_ok.2 first, Result.bind_eq_ok.2
        ⟨_, found, rfl⟩⟩⟩⟩⟩

/-- A manifest that is there is one that was checked. -/
theorem Checked.complete {s : StorageEngine} (checked : Checked env s) {id : String}
    {manifest : Manifest} (found : s.metadataStore.getManifest env id = .ok (some manifest)) :
    ∀ c ∈ manifest.chunks, Intact env s.segmentStore c := by
  rcases checked.getManifest_eq id with ⟨-, there⟩ | ⟨absent, -⟩
  · obtain ⟨manifest', found', intact⟩ := checked.manifests id
      (MetadataStore.mem_listAllManifestIds.2 (Std.ExtTreeMap.mem_iff_isSome_getElem?.1 there))
    cases found.symm.trans found'
    exact intact
  · cases absent.symm.trans found

/-- The manifest of a listed version is there. -/
theorem Checked.version {s : StorageEngine} (checked : Checked env s) {id : ObjectId}
    {record : ObjectRecord} (listed : s.metadataStore.getObject id = .ok (some record))
    {v : ObjectVersion} (hv : v ∈ record.versions) :
    ∃ manifest, s.metadataStore.getManifest env v.manifestId = .ok (some manifest) := by
  unfold MetadataStore.getObject at listed
  cases stored : s.metadataStore.objects[id]? with
  | none =>
    rw [stored] at listed
    cases listed
  | some value =>
    obtain ⟨record', decoded, manifests⟩ := checked.objects value
      (List.mem_map.2 ⟨(id, value), Std.ExtTreeMap.mem_toList_iff_getElem?_eq_some.2 stored, rfl⟩)
    rw [stored] at listed
    obtain ⟨record'', decoded', same⟩ := Result.bind_eq_ok.1 listed
    cases decoded.symm.trans decoded'
    cases same
    exact manifests v hv

/-- Under the checks, an object with a version is as good as a key. -/
theorem Checked.leads_iff {s : StorageEngine} (checked : Checked env s) (target : String) :
    Leads s.metadataStore target ↔ ∃ id,
      (candidates s.metadataStore target).find? (s.metadataStore.manifests.contains ·) = some id := by
  have found : (∃ id, (candidates s.metadataStore target).find?
      (s.metadataStore.manifests.contains ·) = some id) ↔
        ∃ id ∈ candidates s.metadataStore target, s.metadataStore.manifests.contains id = true := by
    rw [← Option.isSome_iff_exists, List.find?_isSome]
  have latest {id : Option ObjectId} (versioned : Versioned s.metadataStore id) :
      ∃ key ∈ (latestOf s.metadataStore id).toList, s.metadataStore.manifests.contains key = true := by
    obtain ⟨object, record, rfl, listed, some_version⟩ := versioned
    have last := List.getLast?_eq_getLast_of_ne_nil some_version
    obtain ⟨manifest, read⟩ := checked.version listed (List.getLast_mem some_version)
    have key : latestOf s.metadataStore (some object) =
        some (record.versions.getLast some_version).manifestId := by
      simp only [latestOf, Option.bind_some, listed, ObjectRecord.latestManifestId,
        ObjectRecord.latest, last, Option.map_some, Option.getD_some]
    rcases checked.getManifest_eq (record.versions.getLast some_version).manifestId with
      ⟨-, there⟩ | ⟨absent, -⟩
    · exact ⟨_, Option.mem_toList.2 key, there⟩
    · cases absent.symm.trans read
  rw [found]
  constructor
  · rintro (named | parsed | there)
    · obtain ⟨key, first, there⟩ := latest named
      exact ⟨key, List.mem_append_left _ (List.mem_append_left _ first), there⟩
    · obtain ⟨key, second, there⟩ := latest parsed
      exact ⟨key, List.mem_append_left _ (List.mem_append_right _ second), there⟩
    · exact there
  · exact fun there => .inr (.inr there)

/-- Data with the same identifiers are the same. -/
theorem eq_of_map_eq {α β : Type} {g : α → β} {D : Set α} (distinct : Set.InjOn g D)
    {xs ys : List α} (hx : ∀ x ∈ xs, x ∈ D) (hy : ∀ y ∈ ys, y ∈ D) (same : xs.map g = ys.map g) :
    xs = ys := by
  induction xs generalizing ys with
  | nil => exact (List.map_eq_nil_iff.1 same.symm).symm
  | cons x xs ih =>
    obtain ⟨y, ys, rfl, first, rest⟩ := List.map_eq_cons_iff.1 same.symm
    obtain ⟨hx₀, hx⟩ := List.forall_mem_cons.1 hx
    obtain ⟨hy₀, hy⟩ := List.forall_mem_cons.1 hy
    rw [distinct hx₀ hy₀ first.symm, ih hx hy rest.symm]

section Trust

variable {D : Set Bytes} {s : StorageEngine}

/-- Under the checks, what is stored for a manifest is the content it belongs to. -/
theorem Checked.describes_iff (checked : Checked env s) (distinct : NoCollision env D)
    (within : ∀ id d, storedChunk env s.segmentStore id = .ok d → d ∈ D) {id : String}
    {manifest : Manifest} (found : s.metadataStore.getManifest env id = .ok (some manifest)) :
    (∃ content, contents env s.segmentStore manifest.chunks = .ok content ∧
      env.blake3 content = manifest.contentHash) ↔ Describes env D manifest := by
  obtain ⟨pieces, stored, ids, read⟩ := contents_of_intact (checked.complete found)
  have known : ∀ d ∈ pieces, d ∈ D := by
    intro d hd
    obtain ⟨id, there⟩ := stored d hd
    exact within id d there
  constructor
  · rintro ⟨content, read', hash⟩
    cases read.symm.trans read'
    exact ⟨pieces, known, ids, hash.symm⟩
  · rintro ⟨pieces', known', ids', hash⟩
    have same : pieces = pieces' := eq_of_map_eq distinct known known' (ids.symm.trans ids')
    exact ⟨_, read, by rw [same, hash]⟩

/-- So a manifest that is there can be extracted exactly if its key is sound. -/
theorem Checked.sound_iff (checked : Checked env s) (distinct : NoCollision env D)
    (within : ∀ id d, storedChunk env s.segmentStore id = .ok d → d ∈ D) {id : String}
    {manifest : Manifest} (found : s.metadataStore.getManifest env id = .ok (some manifest)) :
    (∃ content, contents env s.segmentStore manifest.chunks = .ok content ∧
      env.blake3 content = manifest.contentHash) ↔ Sound env D s.metadataStore id := by
  rw [checked.describes_iff distinct within found]
  constructor
  · intro describes manifest' found'
    cases found.symm.trans found'
    exact describes
  · exact fun sound => sound manifest found

/-- A healthy report is to be trusted exactly if the tables are consistent. -/
theorem healthy_trustworthy_iff {f : Faults} {t : StorageEngine} {report : FsckReport}
    (distinct : NoCollision env D)
    (within : ∀ id d, storedChunk env s.segmentStore id = .ok d → d ∈ D)
    (run : Returns (engineMachine f) (fsck env) s (.ok report) t)
    (healthy : report.isHealthy = true) : Trustworthy env t ↔ Consistent env D s.metadataStore := by
  obtain ⟨same, checked⟩ := (safe_fsck (C := fun _ => True) s).returns run
  have checked := checked report rfl healthy
  rw [same]
  have present (id : String) (there : s.metadataStore.manifests.contains id = true) :
      ∃ manifest, s.metadataStore.getManifest env id = .ok (some manifest) := by
    rcases checked.getManifest_eq id with ⟨found, -⟩ | ⟨-, absent⟩
    · exact found
    · cases absent.symm.trans there
  constructor
  · intro trustworthy
    constructor
    · intro name bound
      obtain ⟨manifest, resolved, extracts⟩ :=
        succeeds_getFileVersion_iff.1 (trustworthy.names name bound)
      obtain ⟨id, first, found⟩ := (resolveManifest_eq_ok_iff checked).1 resolved
      refine ⟨(checked.leads_iff _).2 ⟨id, first⟩, fun id' first' => ?_⟩
      cases first.symm.trans first'
      exact (checked.sound_iff distinct within found).1 extracts
    · intro id record there v hv
      obtain ⟨manifest, found, extracts⟩ :=
        succeeds_getFileVersion_iff.1 (trustworthy.versions id record there v hv)
      obtain ⟨listed, entry, object, first, found⟩ := versionManifest_eq_ok_iff.1 found
      exact ⟨listed, entry, object, first, (checked.sound_iff distinct within found).1 extracts⟩
    · intro snapshots listed snapshot hs entry he
      obtain ⟨snapshots', listed', entries⟩ := trustworthy.snapshots
      cases listed.symm.trans listed'
      obtain ⟨manifest, found, extracts⟩ := entries snapshot hs entry he
      exact (checked.sound_iff distinct within found).1
        (extracted_iff.1 ((succeeds_iff (safe_extractManifestToFile s manifest)).1 extracts))
  · intro consistent
    constructor
    · intro name bound
      obtain ⟨leads, sound⟩ := consistent.names name bound
      obtain ⟨id, first⟩ := (checked.leads_iff _).1 leads
      obtain ⟨manifest, found⟩ := present id (List.find?_some first)
      exact succeeds_getFileVersion_iff.2
        ⟨manifest, (resolveManifest_eq_ok_iff checked).2 ⟨id, first, found⟩,
          (checked.sound_iff distinct within found).2 (sound id first)⟩
    · intro id record there v hv
      obtain ⟨listed, entry, object, first, sound⟩ := consistent.versions id record there v hv
      -- that the manifest of a listed version is there is what was checked
      obtain ⟨manifest, found⟩ := checked.version object (List.mem_of_find?_eq_some first)
      exact succeeds_getFileVersion_iff.2 ⟨manifest, versionManifest_eq_ok_iff.2
        ⟨listed, entry, object, first, found⟩, (checked.sound_iff distinct within found).2 sound⟩
    · obtain ⟨snapshots, listed, references⟩ := checked.snapshots
      refine ⟨snapshots, listed, fun snapshot hs entry he => ?_⟩
      obtain ⟨manifest, found⟩ := references snapshot hs entry he
      have sound := consistent.snapshots snapshots listed snapshot hs entry he
      exact ⟨manifest, found, (succeeds_iff (safe_extractManifestToFile s manifest)).2
        (extracted_iff.2 ((checked.sound_iff distinct within found).2 sound))⟩

end Trust

namespace FsckSample

/-- The file with its two versions, and a snapshot of them. -/
def captured : StorageEngine := EngineSample.after EngineSample.reported (.createSnapshot "v1")

/-- The contents of the versions. -/
def versions : List Bytes := [[7, 8], [9]]

def objectId : ObjectId := FixedBytes.ofBytes 16 [1]

/-- An engine whose only name is bound to an object that is not there. -/
def dangling : StorageEngine :=
  EngineSample.unopened.withTables (MetadataStore.empty.bindName "a" objectId)

/-- A check that is computed. -/
theorem returns_fsck {s : StorageEngine}
    (healthy : (exec false EngineSample.answers (fsck EngineSample.env) [] s).1.map
      FsckReport.isHealthy = .ok true) : ∃ report,
    Returns (engineMachine .none) (fsck EngineSample.env) s (.ok report) s ∧
      report.isHealthy = true := by
  have run := returns_exec false EngineSample.answers (fsck EngineSample.env) [] s
  rw [Faults.all_false] at run
  have same := ((safe_fsck (C := fun _ => True) s).returns run).1
  cases found : (exec false EngineSample.answers (fsck EngineSample.env) [] s).1 with
  | error e =>
    rw [found] at healthy
    cases healthy
  | ok report =>
    rw [found] at healthy
    rw [found, same] at run
    exact ⟨report, run, Except.ok.inj healthy⟩

/-- What the index, the manifests and the tables hold. -/
theorem held_captured :
    (∀ entry ∈ (captured.segmentStore.mem.index .own).toList,
      ∀ d ∈ (storedChunk EngineSample.env captured.segmentStore entry.1).toOption, d ∈ versions) ∧
    (∀ id ∈ captured.metadataStore.listAllManifestIds,
      ∀ read ∈ (captured.metadataStore.getManifest EngineSample.env id).toOption, ∀ manifest ∈ read,
      ∃ content ∈ versions, manifest.chunks = [content].map (ChunkId.fromData EngineSample.env) ∧
        manifest.contentHash = EngineSample.env.blake3 [content].flatten) ∧
    captured.metadataStore.names.keys = ["report"] ∧
    captured.metadataStore.resolveName "report" = some objectId ∧
    captured.metadataStore.resolveName objectId.toHex = none ∧
    captured.metadataStore.objects.keys = [objectId] ∧
    (captured.metadataStore.getObject objectId).map (Option.map fun record =>
      (record.versions.map ObjectVersion.version)) = .ok (some [1, 2]) := by
  decide +kernel

/-- What is stored are the two contents. -/
theorem stored_captured (id : ChunkId) (d : Bytes)
    (stored : storedChunk EngineSample.env captured.segmentStore id = .ok d) : d ∈ versions := by
  obtain ⟨location, found, -⟩ := Result.bind_eq_ok.1 stored
  have there : (id, location) ∈ (captured.segmentStore.mem.index .own).toList := by
    apply Std.ExtTreeMap.mem_toList_iff_getElem?_eq_some.2
    unfold SegmentStore.locationOf at found
    split at found
    · rename_i known
      cases found
      exact known
    · cases found
  obtain ⟨known, -⟩ := held_captured
  apply known _ there
  rw [stored]
  rfl

/-- Every manifest is that of one of them. -/
theorem sound_captured (id : String) :
    Sound EngineSample.env {d | d ∈ versions} captured.metadataStore id := by
  intro manifest found
  have there : id ∈ captured.metadataStore.listAllManifestIds := by
    rw [MetadataStore.mem_listAllManifestIds]
    unfold MetadataStore.getManifest at found
    cases stored : captured.metadataStore.manifests[id]? with
    | none =>
      rw [stored] at found
      cases found
    | some value => rfl
  obtain ⟨-, known, -⟩ := held_captured
  obtain ⟨content, own, ids, hash⟩ := known id there (some manifest) (by rw [found]; rfl) manifest rfl
  exact ⟨[content], List.forall_mem_singleton.2 own, ids, hash⟩

theorem consistent_captured :
    Consistent EngineSample.env {d | d ∈ versions} captured.metadataStore := by
  obtain ⟨-, -, names, resolved, unnamed, objects, versions⟩ := held_captured
  obtain ⟨record, listed, numbers⟩ : ∃ record,
      captured.metadataStore.getObject objectId = .ok (some record) ∧
        record.versions.map ObjectVersion.version = [1, 2] := by
    cases found : captured.metadataStore.getObject objectId with
    | error e =>
      rw [found] at versions
      cases versions
    | ok found' =>
      rw [found] at versions
      cases found' with
      | none => cases versions
      | some record => exact ⟨record, rfl, Option.some.inj (Except.ok.inj versions)⟩
  constructor
  · intro name bound
    have only : name = "report" := by
      rw [← Std.ExtTreeMap.mem_keys, names] at bound
      exact List.mem_singleton.1 bound
    rw [only]
    refine ⟨.inl ⟨objectId, record, resolved, listed, ?_⟩, fun id _ => sound_captured id⟩
    intro none
    rw [none] at numbers
    cases numbers
  · intro id record' there v hv
    have only : id = objectId := by
      rw [← List.mem_singleton, ← objects, Std.ExtTreeMap.mem_keys,
        Std.ExtTreeMap.mem_iff_isSome_getElem?]
      unfold MetadataStore.getObject at there
      cases stored : captured.metadataStore.objects[id]? with
      | none =>
        rw [stored] at there
        cases there
      | some value => rfl
    rw [only] at there ⊢
    obtain ⟨entry, first⟩ : ∃ entry,
        record'.versions.find? (fun entry => entry.version = v.version) = some entry := by
      rw [← Option.isSome_iff_exists, List.find?_isSome]
      exact ⟨v, hv, by simp⟩
    rw [unnamed]
    exact ⟨record', entry, there, first, sound_captured _⟩
  · exact fun _ _ _ _ entry _ => sound_captured entry.manifestId

end FsckSample

/-- A file with two versions and a snapshot of them is found healthy, and can be trusted. -/
theorem healthy_trustworthy_captured : (∃ report,
      Returns (engineMachine .none) (fsck EngineSample.env) FsckSample.captured (.ok report)
        FsckSample.captured ∧ report.isHealthy = true) ∧
    Trustworthy EngineSample.env FsckSample.captured := by
  have healthy : (exec false EngineSample.answers (fsck EngineSample.env) [] FsckSample.captured).1.map
      FsckReport.isHealthy = .ok true := by
    decide +kernel
  have distinct : NoCollision EngineSample.env {d | d ∈ FsckSample.versions} := by
    have apart : ∀ d ∈ FsckSample.versions, ∀ d' ∈ FsckSample.versions,
        ChunkId.fromData EngineSample.env d = ChunkId.fromData EngineSample.env d' → d = d' := by
      decide +kernel
    exact fun d there d' there' => apart d there d' there'
  obtain ⟨report, run, fine⟩ := FsckSample.returns_fsck healthy
  exact ⟨⟨report, run, fine⟩, (healthy_trustworthy_iff distinct FsckSample.stored_captured run
    fine).2 FsckSample.consistent_captured⟩

/-- A name that is bound to an object without a record is not missed. -/
theorem healthy_with_dangling_name :
    ¬ ∀ (env : Env) (s t : StorageEngine) (report : FsckReport),
      Returns (engineMachine Faults.none) (fsck env) s (.ok report) t → report.isHealthy = true →
      Trustworthy env t := by
  intro all
  have computed : (exec false EngineSample.answers (fsck EngineSample.env) [] FsckSample.dangling).1.map
        FsckReport.isHealthy = .ok true ∧
      resolveManifest EngineSample.env FsckSample.dangling.metadataStore "a" =
        .error (.objectNotFound
          "Target 'a' could not be resolved to any valid file name, ObjectId, or ManifestId") := by
    decide +kernel
  obtain ⟨healthy, absent⟩ := computed
  obtain ⟨report, run, fine⟩ := FsckSample.returns_fsck healthy
  have succeeds := (all _ _ _ report run fine).names "a" Std.ExtTreeMap.mem_insert_self
  obtain ⟨manifest, resolved, -⟩ := succeeds_getFileVersion_iff.1 succeeds
  cases absent.symm.trans resolved

end StorageEngine

end OosLite
