import OosLite.Engine.Put
import OosLite.Metadata.Proofs.Bindings

/-!
# What storing a file leaves in place

`put_file_named` binds one name, the trimmed one, and no other name is bound or unbound by it.
-/

namespace OosLite

open Files (IoError)

namespace MetadataStore

section Names

variable {m m' : MetadataStore} {env : Env} {put : WalPutPayload}

@[simp] theorem objectIdOf_bytes (id : ObjectId) : objectIdOf id.bytes = some id := by
  unfold objectIdOf
  rw [if_pos id.length_eq, FixedBytes.ofBytes_bytes]

theorem resolveName_bindName (m : MetadataStore) (name : String) (id : ObjectId) (name' : String) :
    (m.bindName name id).resolveName name' =
      if name = name' then some id else m.resolveName name' := by
  unfold resolveName bindName
  simp only [Std.ExtTreeMap.getElem?_insert, compare_eq_iff]
  by_cases same : name = name'
  · simp [same]
  · simp [same]

theorem putVersion_cases (h : m.putVersion put = .ok m') :
    m' = m ∨ ∃ record, m' = m.putObject record := by
  unfold putVersion at h
  rw [Result.bind_eq_ok] at h
  obtain ⟨found, _, h⟩ := h
  simp only at h
  split at h
  · cases h
    exact .inl rfl
  · cases h
    exact .inr ⟨_, rfl⟩

theorem putVersion_names (h : m.putVersion put = .ok m') : m'.names = m.names := by
  rcases putVersion_cases h with rfl | ⟨record, rfl⟩
  · rfl
  · rfl

theorem putVersion_watcherFiles (h : m.putVersion put = .ok m') :
    m'.watcherFiles = m.watcherFiles := by
  rcases putVersion_cases h with rfl | ⟨record, rfl⟩
  · rfl
  · rfl

/-- The transactions of a put bind its name, if they come to it, and no other. -/
theorem applyPut_names (m : MetadataStore) (put : WalPutPayload) (fault : Option PutStage) :
    (m.applyPut env put fault).2.names = m.names ∨
      (m.applyPut env put fault).2.names = m.names.insert put.name put.objectId.bytes := by
  unfold applyPut
  split
  · exact .inl rfl
  · simp only
    split
    · exact .inl rfl
    · cases version : (m.saveManifest env put.manifest).2.putVersion put with
      | error e => exact .inl rfl
      | ok m' =>
        have names := putVersion_names version
        simp only
        split
        · exact .inl names
        · split
          · exact .inr (congrArg (·.insert put.name put.objectId.bytes) names)
          · exact .inr (congrArg (·.insert put.name put.objectId.bytes) names)

theorem applyPut_watcherFiles (m : MetadataStore) (put : WalPutPayload) (fault : Option PutStage) :
    (m.applyPut env put fault).2.watcherFiles = m.watcherFiles := by
  unfold applyPut
  split
  · rfl
  · simp only
    split
    · rfl
    · cases version : (m.saveManifest env put.manifest).2.putVersion put with
      | error e => rfl
      | ok m' =>
        have files := putVersion_watcherFiles version
        simp only
        split
        · exact files
        · split
          · exact files
          · exact files

theorem listWatcherFiles_congr (files : m'.watcherFiles = m.watcherFiles) (key : String) :
    m'.listWatcherFiles key = m.listWatcherFiles key := by
  unfold listWatcherFiles
  rw [files]

theorem mem_markWatcherFile (m : MetadataStore) (key name name' : String) :
    name' ∈ (m.markWatcherFile key name).listWatcherFiles key ↔
      name' = name ∨ name' ∈ m.listWatcherFiles key := by
  rw [mem_listWatcherFiles, mem_listWatcherFiles]
  unfold markWatcherFile
  rw [Std.ExtTreeMap.contains_insert, Bool.or_eq_true, beq_iff_eq, compare_eq_iff,
    watcherFileKey_inj, eq_comm]

end Names

/-- Every name that is bound keeps its object, and every tracked file stays tracked. -/
structure Grows (key : String) (m m' : MetadataStore) : Prop where
  bound : ∀ name id, m.resolveName name = some id → m'.resolveName name = some id
  tracked : ∀ name ∈ m.listWatcherFiles key, name ∈ m'.listWatcherFiles key

namespace Grows

variable {key : String} {m m' m'' : MetadataStore}

theorem refl (m : MetadataStore) : Grows key m m := ⟨fun _ _ h => h, fun _ h => h⟩

theorem trans (h : Grows key m m') (h' : Grows key m' m'') : Grows key m m'' where
  bound := fun name id there => h'.bound name id (h.bound name id there)
  tracked := fun name there => h'.tracked name (h.tracked name there)

theorem markWatcherFile (m : MetadataStore) (name : String) :
    Grows key m (m.markWatcherFile key name) where
  bound := fun _ _ h => h
  tracked := fun _ h => (mem_markWatcherFile m key _ _).2 (.inr h)

end Grows

end MetadataStore

namespace Engine

variable {env : Env}

/-- The object of a put is the one that its name is bound to. -/
theorem putTarget_bound {m : MetadataStore} {name : String} {generated id objectId : ObjectId}
    {version : UInt32} (h : m.putTarget name generated = .ok (objectId, version))
    (bound : m.resolveName name = some id) : objectId = id := by
  unfold MetadataStore.putTarget at h
  rw [bound] at h
  simp only [Result.bind_eq_ok] at h
  obtain ⟨found, _, h⟩ := h
  cases found with
  | none => cases h
  | some existing =>
    cases h
    rfl

/-- What a put does to the tables: nothing, or the transactions of a record that it makes. -/
theorem putFileNamed_store (engine : Engine) (name : String) (file : Except IoError Bytes)
    (createdAt : UInt64) (fault : Option PutStage) :
    (engine.putFileNamed env name file createdAt fault).2.store = engine.store ∨
      ∃ put : WalPutPayload, put.name = Text.trim name ∧
        (∀ id, engine.store.resolveName put.name = some id → put.objectId = id) ∧
        (engine.putFileNamed env name file createdAt fault).2.store =
          (engine.store.applyPut env put fault).2 := by
  unfold putFileNamed
  simp only
  split
  · exact .inl rfl
  · exact .inl rfl
  · rename_i content _
    split
    · exact .inl rfl
    · split
      · exact .inl rfl
      · rename_i objectId version target
        split
        · apply Or.inl
          split
          · rfl
          · rfl
        · refine .inr ⟨⟨Text.trim name, objectId, version, manifestOf env content createdAt, []⟩,
            rfl, ?_, ?_⟩
          · intro id bound
            exact putTarget_bound target bound
          · split
            · rfl
            · rfl

theorem putFileNamed_grows (key : String) (engine : Engine) (name : String)
    (file : Except IoError Bytes) (createdAt : UInt64) (fault : Option PutStage) :
    engine.store.Grows key (engine.putFileNamed env name file createdAt fault).2.store := by
  rcases putFileNamed_store engine name file createdAt fault with same | ⟨put, _, bound, same⟩
  · rw [same]
    exact .refl _
  · rw [same]
    constructor
    · intro name' id there
      rcases MetadataStore.applyPut_names engine.store put fault with names | names
      · unfold MetadataStore.resolveName
        rw [names]
        exact there
      · have after := MetadataStore.resolveName_bindName engine.store put.name put.objectId name'
        unfold MetadataStore.resolveName at after ⊢
        rw [names]
        refine after.trans ?_
        by_cases here : put.name = name'
        · subst here
          rw [if_pos rfl, bound id there]
        · rw [if_neg here]
          exact there
    · intro name' there
      rw [MetadataStore.listWatcherFiles_congr (MetadataStore.applyPut_watcherFiles ..)]
      exact there

end Engine

end OosLite
