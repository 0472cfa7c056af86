import OosLite.Engine.Proofs.Reads

/-!
# The three lookups

`get_versions` and `get_file_version` without a version trim their target, `get_file_version` with a
version does not trim it for names. They agree on a target exactly when that makes no difference.
-/

namespace OosLite

open Files Effect Relation StorageEngine

/-- The record of the object that a target names. -/
def MetadataStore.targetRecord (m : MetadataStore) (target : String) : Option ObjectRecord :=
  match m.resolveName target with
  | some id => (m.getObject id).toOption.join
  | none => (ObjectId.parse target).bind fun id => (m.getObject id).toOption.join

/-- The first version of a record with a number. -/
def ObjectRecord.entry (r : ObjectRecord) (v : UInt32) : Option ObjectVersion :=
  r.versions.find? fun entry => entry.version = v

/-- What a program of a faultless engine returns. -/
def StorageEngine.Gives {α : Type} (s : StorageEngine) (p : EngineProg α) (r : Result α) : Prop :=
  Ends (engineMachine .none) p s fun r' _ => r' = r

/-- The target is not found. -/
def StorageEngine.NotFound {α : Type} (s : StorageEngine) (p : EngineProg α) : Prop :=
  ∃ text, s.Gives p (.error (.objectNotFound text))

/-- The lookups agree on a target. -/
def LookupsAgree (env : Env) (s : StorageEngine) (t : String) : Prop :=
  (∀ vs, s.Gives (getVersions t) (.ok vs) →
    (∀ v, (∃ data, s.Gives (getFileVersion env t (some v)) (.ok data)) ↔ ∃ e ∈ vs, e.version = v) ∧
    ∃ last data, vs.getLast? = some last ∧ s.Gives (getFileVersion env t none) (.ok data) ∧
      s.Gives (getFileVersion env t (some last.version)) (.ok data)) ∧
  (s.NotFound (getVersions t) → ∀ v, s.NotFound (getFileVersion env t (some v)))

/-- The target as it is leads to the versions of the trimmed target: to their numbers, and under the
number of the last one to its manifest. -/
def LeadsToSame (m : MetadataStore) (t : String) : Prop :=
  match m.targetRecord (Text.trim t) with
  | some r => ∃ last r' e, r.latest = some last ∧ m.targetRecord t = some r' ∧
      (∀ v, (r'.entry v).isSome ↔ (r.entry v).isSome) ∧ r'.entry last.version = some e ∧
      e.manifestId = last.manifestId
  | none => ∀ r', m.targetRecord t = some r' → r'.versions = []

section Tables

variable {env : Env} {files : Set Bytes} {m : MetadataStore} {t : String} {r : ObjectRecord}

theorem MetadataStore.Legible.getObject (h : m.Legible) (id : ObjectId) :
    m.getObject id = .ok (m.getObject id).toOption.join := by
  unfold MetadataStore.getObject
  cases stored : m.objects[id]? with
  | none => rfl
  | some value =>
    obtain ⟨r, decoded⟩ := h id value stored
    simp only [decoded]
    rfl

theorem targetObject_of_some (legible : m.Legible) (found : m.targetRecord t = some r)
    (e : OosLiteError) : ∃ id, targetObject m t e = .ok id ∧ m.getObject id = .ok (some r) := by
  unfold MetadataStore.targetRecord at found
  unfold targetObject
  cases named : m.resolveName t with
  | some id =>
    rw [named] at found
    exact ⟨id, rfl, by rw [legible.getObject id]; exact congrArg _ found⟩
  | none =>
    rw [named] at found
    obtain ⟨id, parsed, found⟩ := Option.bind_eq_some_iff.1 found
    refine ⟨id, ?_, by rw [legible.getObject id, found]⟩
    simp only [parsed]
    rfl

theorem targetObject_of_none (legible : m.Legible) (absent : m.targetRecord t = none)
    (e : OosLiteError) : targetObject m t e = .error e ∨
      ∃ id, targetObject m t e = .ok id ∧ m.getObject id = .ok none := by
  unfold MetadataStore.targetRecord at absent
  unfold targetObject
  cases named : m.resolveName t with
  | some id =>
    rw [named] at absent
    exact .inr ⟨id, rfl, by rw [legible.getObject id]; exact congrArg _ absent⟩
  | none =>
    rw [named] at absent
    cases parsed : ObjectId.parse t with
    | none => exact .inl rfl
    | some id =>
      rw [parsed] at absent
      exact .inr ⟨id, rfl, by rw [legible.getObject id]; exact congrArg _ absent⟩

/-- Of an object without a record there is no version. -/
theorem versionManifest_of_none (legible : m.Legible) (absent : m.targetRecord t = none) (v : UInt32) :
    ∃ text, versionManifest env m t v = .error (.objectNotFound text) := by
  unfold versionManifest
  rcases targetObject_of_none legible absent _ with missing | ⟨id, there, missing⟩
  · rw [missing]
    exact ⟨_, rfl⟩
  · rw [there]
    simp only [bind, Except.bind, missing]
    exact ⟨_, rfl⟩

theorem versionManifest_of_entry_none (legible : m.Legible) (found : m.targetRecord t = some r)
    {v : UInt32} (absent : r.entry v = none) :
    ∃ text, versionManifest env m t v = .error (.objectNotFound text) := by
  unfold versionManifest
  obtain ⟨id, there, present⟩ := targetObject_of_some legible found
    (.objectNotFound ("File '" ++ t ++ "' not found for version query"))
  rw [there]
  simp only [bind, Except.bind, present]
  unfold ObjectRecord.entry at absent
  simp only [Option.orError, absent]
  exact ⟨_, rfl⟩

theorem versionManifest_of_entry (legible : m.Legible) (found : m.targetRecord t = some r)
    {v : UInt32} {e : ObjectVersion} (listed : r.entry v = some e) {manifest : Manifest}
    (there : m.getManifest env e.manifestId = .ok (some manifest)) :
    versionManifest env m t v = .ok manifest := by
  unfold versionManifest
  obtain ⟨id, known, present⟩ := targetObject_of_some legible found
    (.objectNotFound ("File '" ++ t ++ "' not found for version query"))
  rw [known]
  unfold ObjectRecord.entry at listed
  simp only [bind, Except.bind, present, Option.orError, listed, there]

/-- The last version of the trimmed target is found without a number. -/
theorem resolveManifest_of_latest (legible : m.Legible)
    (found : m.targetRecord (Text.trim t) = some r) {last : ObjectVersion}
    (latest : r.latest = some last) {manifest : Manifest}
    (there : m.getManifest env last.manifestId = .ok (some manifest)) :
    resolveManifest env m t = .ok manifest := by
  have id' : r.latestManifestId = last.manifestId := by
    unfold ObjectRecord.latestManifestId
    rw [latest]
    rfl
  unfold MetadataStore.targetRecord at found
  unfold resolveManifest
  cases named : m.resolveName (Text.trim t) with
  | some id =>
    rw [named] at found
    have present : m.getObject id = .ok (some r) := by
      rw [legible.getObject id]
      exact congrArg _ found
    simp only [named, present, bind, Except.bind, id', there]
    rfl
  | none =>
    rw [named] at found
    obtain ⟨id, parsed, found⟩ := Option.bind_eq_some_iff.1 found
    have present : m.getObject id = .ok (some r) := by rw [legible.getObject id, found]
    simp only [named, parsed, present, bind, Except.bind, id', there]
    rfl

end Tables

/-! ## What the engine gives -/

section Gives

variable {env : Env} {files : Set Bytes} {H K : Set ChunkId} {s : StorageEngine} {α : Type}
  {p : EngineProg α} {r r' : Result α}

theorem StorageEngine.Gives.unique (h : s.Gives p r) (h' : s.Gives p r') : r = r' := by
  obtain ⟨⟨result, t, returned⟩, all⟩ := h
  rw [← all _ _ returned, h'.all _ _ returned]

theorem onlyMetadata_none : Faults.none.OnlyMetadata := ⟨fun _ h => h, fun _ h => h⟩

theorem gives_query (q : MetadataStore → Result α) : s.Gives (query q) (q s.metadataStore) := by
  apply Safe.ends (C := fun _ => True) (total_engineMachine _)
  apply safe_query
  · rfl
  · exact fun failed => failed.elim

theorem gives_getFileVersion_error {t : String} {version : Option UInt32} {e : OosLiteError}
    (failed : manifestFor env s.metadataStore t version = .error e) :
    s.Gives (getFileVersion env t version) (.error e) := by
  apply Safe.ends (C := fun _ => True) (total_engineMachine _)
  unfold getFileVersion
  rw [safe_bind]
  apply safe_query
  · rw [failed]
    rfl
  · exact fun failed => failed.elim

/-- A version that is listed is read. -/
theorem Upheld.gives_getFileVersion (h : Upheld env files .empty H K s)
    (distinct : NoCollision env (dataOf env files)) {id : String}
    (there : (s.metadataStore.manifests[id]?).isSome) :
    ∃ content, ContentOf env files id content ∧ ∀ t version, (∀ manifest,
      s.metadataStore.getManifest env id = .ok (some manifest) →
        manifestFor env s.metadataStore t version = .ok manifest) →
      s.Gives (getFileVersion env t version) (.ok content) := by
  obtain ⟨manifest, content, found, own, extracts⟩ :=
    h.extract_manifest onlyMetadata_none distinct there
  refine ⟨content, own, fun t version resolves => ?_⟩
  apply Safe.ends (C := fun _ => True) (total_engineMachine _)
  unfold getFileVersion
  rw [safe_bind]
  apply safe_query
  · rw [resolves manifest found, thenSafe_ok]
    exact (extracts _).mono (fun _ _ h => h.2) fun _ h => h
  · exact fun failed => failed.elim

/-- What each lookup gives, by the records of the tables. -/
theorem gives_getVersions (legible : s.metadataStore.Legible) (t : String) :
    match s.metadataStore.targetRecord (Text.trim t) with
    | some r => s.Gives (getVersions t) (.ok r.versions)
    | none => s.NotFound (getVersions t) := by
  have given : s.Gives (getVersions t) _ := gives_query _
  simp only [bind, Except.bind] at given
  cases found : s.metadataStore.targetRecord (Text.trim t) with
  | some r =>
    obtain ⟨id, known, present⟩ := targetObject_of_some legible found
      (.objectNotFound ("Object not found for versions query: " ++ Text.trim t))
    simp only [known, present, Option.orError] at given
    exact given
  | none =>
    rcases targetObject_of_none legible found
        (.objectNotFound ("Object not found for versions query: " ++ Text.trim t)) with
      missing | ⟨id, known, missing⟩
    · simp only [missing] at given
      exact ⟨_, given⟩
    · simp only [known, missing, Option.orError] at given
      exact ⟨_, given⟩

/-- A version that is listed is in the table of manifests. -/
theorem MetadataStore.Rooted.entry {m : MetadataStore} (h : m.Rooted) {t : String}
    {r : ObjectRecord} (legible : m.Legible) (found : m.targetRecord t = some r)
    {e : ObjectVersion} (listed : e ∈ r.versions) : (m.manifests[e.manifestId]?).isSome := by
  obtain ⟨id, -, present⟩ := targetObject_of_some legible found (.objectNotFound "")
  exact h _ (objectRoot_of_mem present listed)

/-- With a number, the version of the target as it is is read, if there is one. -/
theorem Upheld.gives_version (h : Upheld env files .empty H K s)
    (distinct : NoCollision env (dataOf env files)) (t : String) (v : UInt32) :
    match (s.metadataStore.targetRecord t).bind fun r => r.entry v with
    | some e => ∃ content, ContentOf env files e.manifestId content ∧
        s.Gives (getFileVersion env t (some v)) (.ok content)
    | none => s.NotFound (getFileVersion env t (some v)) := by
  have legible := MetadataStore.legible_of_lawful h.changes
  have rooted := MetadataStore.rooted_of_lawful h.changes
  cases found : s.metadataStore.targetRecord t with
  | none =>
    obtain ⟨text, failed⟩ := @versionManifest_of_none env _ _ legible found v
    exact ⟨text, gives_getFileVersion_error failed⟩
  | some r =>
    rw [Option.bind_some]
    cases listed : r.entry v with
    | none =>
      obtain ⟨text, failed⟩ := @versionManifest_of_entry_none env _ _ _ legible found _ listed
      exact ⟨text, gives_getFileVersion_error failed⟩
    | some e =>
      have there := rooted.entry legible found (List.mem_of_find?_eq_some listed)
      obtain ⟨content, own, reads⟩ := h.gives_getFileVersion distinct there
      refine ⟨content, own, reads t (some v) fun manifest known => ?_⟩
      exact versionManifest_of_entry legible found listed known

/-- Without a number, the last version of the trimmed target is. -/
theorem Upheld.gives_latest (h : Upheld env files .empty H K s)
    (distinct : NoCollision env (dataOf env files)) {t : String} {r : ObjectRecord}
    (found : s.metadataStore.targetRecord (Text.trim t) = some r) {last : ObjectVersion}
    (latest : r.latest = some last) : ∃ content, ContentOf env files last.manifestId content ∧
      s.Gives (getFileVersion env t none) (.ok content) := by
  have legible := MetadataStore.legible_of_lawful h.changes
  have rooted := MetadataStore.rooted_of_lawful h.changes
  have there := rooted.entry legible found (List.mem_of_getLast? latest)
  obtain ⟨content, own, reads⟩ := h.gives_getFileVersion distinct there
  exact ⟨content, own, reads t none fun manifest known =>
    resolveManifest_of_latest legible found latest known⟩

/-- A version is read exactly if the target as it is lists it. -/
theorem Upheld.reads_version_iff (h : Upheld env files .empty H K s)
    (distinct : NoCollision env (dataOf env files)) (t : String) (v : UInt32) :
    (∃ data, s.Gives (getFileVersion env t (some v)) (.ok data)) ↔
      ((s.metadataStore.targetRecord t).bind fun r => r.entry v).isSome := by
  have version := h.gives_version distinct t v
  cases found : (s.metadataStore.targetRecord t).bind fun r => r.entry v with
  | none =>
    rw [found] at version
    obtain ⟨text, missing⟩ := version
    constructor
    · intro ⟨data, reads⟩
      cases missing.unique reads
    · intro no
      cases no
  | some e =>
    rw [found] at version
    obtain ⟨content, -, reads⟩ := version
    exact ⟨fun _ => rfl, fun _ => ⟨content, reads⟩⟩

theorem ObjectRecord.isSome_entry {r : ObjectRecord} {v : UInt32} :
    (r.entry v).isSome ↔ ∃ e ∈ r.versions, e.version = v := by
  unfold ObjectRecord.entry
  rw [List.find?_isSome]
  simp

/-- A target whose versions are found is agreed on exactly if it leads to the same. -/
theorem Upheld.agree_of_some (h : Upheld env files .empty H K s)
    (distinct : NoCollision env (dataOf env files)) {t : String} {r : ObjectRecord}
    (found : s.metadataStore.targetRecord (Text.trim t) = some r) :
    LookupsAgree env s t ↔ LeadsToSame s.metadataStore t := by
  have versions := gives_getVersions (MetadataStore.legible_of_lawful h.changes) t
  rw [found] at versions
  have version := h.gives_version distinct t
  have reads := h.reads_version_iff distinct t
  unfold LeadsToSame
  rw [found]
  constructor
  · intro ⟨agree, _⟩
    obtain ⟨each, last, data, latest, without, withLast⟩ := agree _ versions
    obtain ⟨content, own, given⟩ := h.gives_latest distinct found latest
    obtain rfl := Except.ok.inj (given.unique without)
    have listed := (reads last.version).1 ⟨content, withLast⟩
    obtain ⟨e, listed⟩ := Option.isSome_iff_exists.1 listed
    obtain ⟨r', known, listed⟩ := Option.bind_eq_some_iff.1 listed
    have atLast := version last.version
    simp only [known, Option.bind_some, listed] at atLast reads
    obtain ⟨content', own', given'⟩ := atLast
    obtain rfl := Except.ok.inj (given'.unique withLast)
    refine ⟨last, r', e, latest, known, fun v => ?_, listed, own'.2.symm.trans own.2⟩
    rw [← reads v, r.isSome_entry]
    exact each v
  · intro ⟨last, r', e, latest, known, numbers, listed, same⟩
    obtain ⟨content, own, without⟩ := h.gives_latest distinct found latest
    have atLast := version last.version
    simp only [known, Option.bind_some, listed] at atLast reads
    obtain ⟨content', own', withLast⟩ := atLast
    have digests : env.blake3 content' = env.blake3 content :=
      FixedBytes.ext (Text.hex_injective (own'.2.trans (same.trans own.2.symm)))
    have equal : content' = content := distinct (.inl own'.1) (.inl own.1) digests
    constructor
    · intro vs given
      obtain rfl := Except.ok.inj (versions.unique given)
      refine ⟨fun v => ?_, last, content, latest, without, equal ▸ withLast⟩
      rw [reads v, ← r.isSome_entry]
      exact numbers v
    · intro ⟨text, missing⟩
      cases versions.unique missing

/-- A target whose versions are not found, likewise. -/
theorem Upheld.agree_of_none (h : Upheld env files .empty H K s)
    (distinct : NoCollision env (dataOf env files)) {t : String}
    (found : s.metadataStore.targetRecord (Text.trim t) = none) :
    LookupsAgree env s t ↔ LeadsToSame s.metadataStore t := by
  have versions := gives_getVersions (MetadataStore.legible_of_lawful h.changes) t
  rw [found] at versions
  have version := h.gives_version distinct t
  unfold LeadsToSame
  rw [found]
  constructor
  · intro ⟨_, agree⟩ r known
    rw [List.eq_nil_iff_forall_not_mem]
    intro e there
    have listed := (r.isSome_entry (v := e.version)).2 ⟨e, there, rfl⟩
    have reads := (h.reads_version_iff distinct t e.version).2 (by rw [known]; exact listed)
    obtain ⟨data, reads⟩ := reads
    obtain ⟨text, missing⟩ := agree versions e.version
    cases missing.unique reads
  · intro empty
    constructor
    · intro vs given
      obtain ⟨text, missing⟩ := versions
      cases missing.unique given
    · intro _ v
      have here := version v
      have absent : ((s.metadataStore.targetRecord t).bind fun r => r.entry v) = none := by
        cases known : s.metadataStore.targetRecord t with
        | none => rfl
        | some r =>
          rw [Option.bind_some, ObjectRecord.entry, empty r known]
          rfl
      rw [absent] at here
      exact here

end Gives

/-- In every run in which nothing fails but transactions, with any crashes: the lookups agree on a
target exactly when, with and without its surrounding white space, it leads to the same versions, of
which there is at least one. -/
theorem lookups_agree_iff {env : Env} {allowed : EngineRun → EngineAct → Prop}
    (only : ∀ run act, allowed run act → act.faults.OnlyMetadata) {run : EngineRun}
    (reachable : EngineReachable env allowed run) {s : StorageEngine}
    (running : run.phase = .running s) (distinct : NoCollision env (dataOf env run.history.files))
    (t : String) : LookupsAgree env s t ↔ LeadsToSame s.metadataStore t := by
  have endures := reachable.endures only
  unfold Endures at endures
  rw [running] at endures
  obtain ⟨⟨H, K, kept⟩, -⟩ := endures
  cases found : s.metadataStore.targetRecord (Text.trim t) with
  | some r => exact kept.agree_of_some distinct found
  | none => exact kept.agree_of_none distinct found

/-! ## A name with white space around it -/

namespace EngineSample

/-- The record of the file. -/
def report : ObjectRecord where
  objectId := FixedBytes.ofBytes 16 [1]
  latestVersion := 2
  versions := [{ version := 1
                 manifestId := (manifestOf env [7, 8] 0).contentId
                 createdAt := 0
                 sizeBytes := 2 },
               { version := 2
                 manifestId := (manifestOf env [9] 0).contentId
                 createdAt := 0
                 sizeBytes := 1 }]

end EngineSample

theorem lookups_agree_report : LookupsAgree EngineSample.env EngineSample.reported "report" := by
  obtain ⟨g, reachable, within⟩ := EngineSample.reached_reported
  have distinct := EngineSample.noCollision [[7, 8], [9]] within (by decide +kernel)
  apply (lookups_agree_iff (fun _ _ only => only) reachable rfl distinct "report").2
  have trimmed : Text.trim "report" = "report" := by decide
  have found : EngineSample.reported.metadataStore.targetRecord "report" =
      some EngineSample.report := by decide +kernel
  unfold LeadsToSame
  rw [trimmed, found]
  exact ⟨_, _, _, rfl, rfl, fun _ => Iff.rfl, rfl, rfl⟩

/-- The versions of ` report` are listed, and none of them is found. -/
theorem padded_version_is_not_found :
    ¬ ∀ (env : Env) (run : EngineRun) (s : StorageEngine),
      EngineReachable env OnlyTransactionsFail run → run.phase = .running s →
      NoCollision env (dataOf env run.history.files) →
      ∀ t, (s.metadataStore.resolveName (Text.trim t)).isSome → LookupsAgree env s t := by
  intro all
  obtain ⟨g, reachable, within⟩ := EngineSample.reached_reported
  have distinct := EngineSample.noCollision [[7, 8], [9]] within (by decide +kernel)
  have bound : (EngineSample.reported.metadataStore.resolveName (Text.trim " report")).isSome := by
    decide +kernel
  have agree := all _ _ _ reachable rfl distinct " report" bound
  have trimmed : Text.trim " report" = "report" := by decide
  have found : EngineSample.reported.metadataStore.targetRecord (Text.trim " report") =
      some EngineSample.report := by
    rw [trimmed]
    decide +kernel
  have endures := reachable.endures fun _ _ only => only
  obtain ⟨⟨H, K, kept⟩, -⟩ := endures
  have leads := (kept.agree_of_some distinct found).1 agree
  unfold LeadsToSame at leads
  rw [found] at leads
  obtain ⟨_, r, _, _, known, _⟩ := leads
  have absent : EngineSample.reported.metadataStore.targetRecord " report" = none := by
    decide +kernel
  rw [absent] at known
  cases known

end OosLite
