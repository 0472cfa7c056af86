import OosLite.Engine.Proofs.Orderly
import OosLite.Lib.VersionedStore

/-!
# What the tables show

The tables as a store of versioned files, with the identifiers of manifests for contents, and what
every edit of the tables is there.
-/

namespace OosLite

open Files Effect Relation StorageEngine

/-- The versions of a record, each with its manifest. -/
def ObjectRecord.numbered (r : ObjectRecord) : List (Nat × String) :=
  r.versions.map fun v => (v.version.toNat, v.manifestId)

/-- The names and the versions of the tables. -/
def MetadataStore.shown (m : MetadataStore) : VersionedStore String ObjectId String where
  names := m.resolveName
  files id := (m.getObject id).toOption.join.map ObjectRecord.numbered

/-- Every name has an object identifier for its value. -/
def MetadataStore.NamesWhole (m : MetadataStore) : Prop :=
  ∀ (name : String) (value : Bytes), m.names[name]? = some value →
    (MetadataStore.objectIdOf value).isSome

namespace MetadataStore

variable {env : Env} {G : Set ObjectId} {L : Set (ObjectId × UInt32 × String)} {m m' : MetadataStore}
  {r : ObjectRecord} {id : ObjectId} {name : String} {put : WalPutPayload}

/-! ## The values of names -/

theorem names_takeBindings (root : String) (m : MetadataStore) (changes : List Change) :
    ∀ e ∈ (takeBindings root m changes).2, ∃ name : String, m.names[name]? = some e.2 := by
  induction changes generalizing m with
  | nil =>
    intro e he
    cases he
  | cons change rest ih =>
    intro e he
    rw [takeBindings] at he
    rcases List.mem_append.1 he with first | later
    · rw [Option.mem_toList] at first
      obtain ⟨id, there, rfl⟩ := Option.map_eq_some_iff.1 first
      exact ⟨change.1, there⟩
    · obtain ⟨name, there⟩ := ih _ e later
      simp only [Std.ExtTreeMap.getElem?_erase] at there
      split at there
      · cases there
      · exact ⟨name, there⟩

theorem lastTo_mem {moved : List (Option String × Bytes)} {value : Bytes}
    (last : lastTo name moved = some value) : ∃ e ∈ moved, e.2 = value := by
  induction moved with
  | nil => cases last
  | cons e rest ih =>
    rw [lastTo] at last
    rcases Option.or_eq_some_iff.1 last with later | ⟨-, first⟩
    · obtain ⟨e, he, same⟩ := ih later
      exact ⟨e, List.mem_cons_of_mem _ he, same⟩
    · split at first
      · exact ⟨e, List.mem_cons_self, Option.some.inj first⟩
      · cases first

/-- A value of a name after a transaction was one before, or is an identifier. -/
theorem Transaction.nameValue (step : Transaction env m m') {value : Bytes}
    (there : m'.names[name]? = some value) :
    (∃ name' : String, m.names[name']? = some value) ∨ ∃ id : ObjectId, value = id.bytes := by
  have congr (same : m'.names = m.names) : (∃ name' : String, m.names[name']? = some value) ∨
      ∃ id : ObjectId, value = id.bytes := .inl ⟨name, same ▸ there⟩
  have erased {name' : String} (same : m'.names = m.names.erase name') :
      (∃ name' : String, m.names[name']? = some value) ∨ ∃ id : ObjectId, value = id.bytes := by
    rw [same, Std.ExtTreeMap.getElem?_erase] at there
    split at there
    · cases there
    · exact .inl ⟨name, there⟩
  have deleted (name' : String) :
      (m.deleteNamedObject name').2.names = m.names.erase name' := by
    unfold deleteNamedObject
    cases m.resolveName name' with
    | none => rfl
    | some id => rfl
  cases step with
  | saveManifest manifest same => exact congr (same ▸ rfl)
  | deleteManifest id same => exact congr (same ▸ rfl)
  | addVersion put added => exact congr (putVersion_names added)
  | bindName name' id same =>
    rw [same, show (m.bindName name' id).names = m.names.insert name' id.bytes from rfl,
      Std.ExtTreeMap.getElem?_insert] at there
    split at there
    · exact .inr ⟨id, (Option.some.inj there).symm⟩
    · exact .inl ⟨name, there⟩
  | edit call only edit =>
    cases call with
    | put | gc => exact only.elim
    | get | restoreSnapshot => exact edit.elim
    | createSnapshot label =>
      obtain ⟨named, createdAt, -, -, -, rfl⟩ := edit
      exact congr rfl
    | deleteSnapshot label =>
      obtain rfl := edit
      exact congr rfl
    | delete name' =>
      obtain rfl := edit
      exact erased (deleted _)
    | deletePrefix start =>
      obtain ⟨name', rfl⟩ := edit
      exact erased (deleted _)
    | unbind name' =>
      obtain rfl := edit
      exact erased rfl
    | rename oldName newName =>
      obtain rfl := edit
      unfold renameNameBinding at there
      split at there
      · rename_i bytes bound
        simp only [Std.ExtTreeMap.getElem?_insert, Std.ExtTreeMap.getElem?_erase] at there
        split at there
        · exact .inl ⟨_, bound.trans there⟩
        · split at there
          · cases there
          · exact .inl ⟨name, there⟩
      · exact .inl ⟨name, there⟩
    | updateWatchedPrefix watchRoot source target included =>
      obtain ⟨changes, moved⟩ := edit
      obtain ⟨-, -, -, -, rfl⟩ := updateWatchedPrefix_ok moved
      rw [updateWatcherBindings, setBindings_names] at there
      rcases Option.or_eq_some_iff.1 there with moved | ⟨-, stayed⟩
      · obtain ⟨e, he, rfl⟩ := lastTo_mem moved
        exact .inl (names_takeBindings _ _ _ e he)
      · rw [takeBindings_names] at stayed
        split at stayed
        · cases stayed
        · exact .inl ⟨name, stayed⟩
    | markWatcherFile watchRoot logicalName =>
      obtain rfl := edit
      exact congr rfl
    | prune name' keepLastN =>
      obtain ⟨id, record, -, -, -, rfl⟩ := edit
      exact congr rfl
    | pruneAll keepLastN =>
      obtain ⟨name', id, record, -, -, -, rfl⟩ := edit
      exact congr rfl
    | rollback name' v writes =>
      obtain ⟨id, record, entry, manifest, createdAt, -, -, -, -, -, rfl⟩ := edit
      exact congr rfl

theorem namesWhole_of_lawful {files : Set Bytes}
    (changes : ReflTransGen (Lawful env files) .empty m) : m.NamesWhole := by
  induction changes with
  | refl =>
    intro name value there
    simp [MetadataStore.empty] at there
  | tail _ step ih =>
    intro name value there
    rcases step.transaction.nameValue there with ⟨name', before⟩ | ⟨id, rfl⟩
    · exact ih name' value before
    · rw [objectIdOf_bytes]
      rfl

/-! ## Records -/

theorem shown_files (found : m.getObject id = .ok (some r)) :
    m.shown.files id = some r.numbered := by
  show (m.getObject id).toOption.join.map _ = _
  rw [found]
  rfl

theorem shown_files_none (absent : m.getObject id = .ok none) : m.shown.files id = none := by
  show (m.getObject id).toOption.join.map _ = _
  rw [absent]
  rfl

theorem shown_congr (names : m'.names = m.names) (objects : m'.objects = m.objects) :
    m'.shown = m.shown := by
  unfold shown
  congr 1
  · funext name
    exact resolveName_congr names name
  · funext id
    rw [getObject_congr objects]

/-- A record is put. -/
theorem shown_putObject (order : r.InOrder) (fits : r.IdsFit) :
    (m.putObject r).shown = m.shown.setFile r.objectId (some r.numbered) := by
  unfold shown VersionedStore.setFile
  congr 1
  funext id
  rw [getObject_putObject_inOrder order fits, Function.update_apply]
  by_cases own : id = r.objectId
  · rw [if_pos own, if_pos own.symm]
    rfl
  · rw [if_neg own, if_neg (Ne.symm own)]

theorem nextNumber_numbered (order : r.InOrder) :
    VersionedStore.nextNumber r.numbered = r.latestVersion.toNat + 1 := by
  obtain ⟨last, newest, number⟩ := order.last
  unfold ObjectRecord.latest at newest
  unfold VersionedStore.nextNumber ObjectRecord.numbered
  rw [List.getLast?_map, newest, ← number]
  rfl

/-- A version is appended to a record. -/
theorem numbered_append {v : ObjectVersion} {latest : UInt32}
    (number : v.version.toNat = VersionedStore.nextNumber r.numbered) :
    ObjectRecord.numbered { r with latestVersion := latest, versions := r.versions ++ [v] } =
      VersionedStore.appended r.numbered v.manifestId := by
  unfold VersionedStore.appended
  rw [← number]
  exact List.map_append

theorem shown_append {v : ObjectVersion}
    (ascending : r.versions.Pairwise fun a b => a.version < b.version)
    (positive : ∀ u ∈ r.versions, 0 < u.version) (above : ∀ u ∈ r.versions, u.version < v.version)
    (pos : 0 < v.version) (fits : r.IdsFit) (fits' : (Text.utf8 v.manifestId).length < 2 ^ 16)
    (number : v.version.toNat = VersionedStore.nextNumber r.numbered) :
    (m.putObject { r with latestVersion := v.version, versions := r.versions ++ [v] }).shown =
      m.shown.setFile r.objectId (some (VersionedStore.appended r.numbered v.manifestId)) := by
  rw [← numbered_append number]
  apply shown_putObject (ObjectRecord.inOrder_append ascending positive above pos)
  intro u hu
  rcases List.mem_append.1 hu with hu | last
  · exact fits u hu
  · rw [List.mem_singleton.1 last]
    exact fits'

theorem toNat_succ {n : UInt32} (room : n < n + 1) : (n + 1).toNat = n.toNat + 1 := by
  rw [UInt32.lt_iff_toNat_lt, UInt32.toNat_add] at room
  rw [UInt32.toNat_add]
  have one : (1 : UInt32).toNat = 1 := rfl
  have size := n.toNat_lt
  omega

theorem Orderly.ascends_shown (h : m.Orderly G L) : m.shown.Ascends := by
  intro id versions there
  change (m.getObject id).toOption.join.map _ = _ at there
  obtain ⟨r, found, rfl⟩ := Option.map_eq_some_iff.1 there
  have legible := h.legible.getObject id
  rw [found] at legible
  unfold ObjectRecord.numbered
  rw [List.pairwise_map]
  exact (h.records id r legible).1.ascending.imp UInt32.lt_iff_toNat_lt.1

/-! ## Edits -/

theorem shown_setName (names : ∀ name', m'.resolveName name' =
    if name' = name then none else m.resolveName name') (objects : m'.objects = m.objects) :
    m'.shown = m.shown.setName name none := by
  unfold shown VersionedStore.setName
  congr 1
  · funext name'
    rw [names, Function.update_apply]
  · funext id
    rw [getObject_congr objects]

theorem resolveName_erase (names : m'.names = m.names.erase name) (name' : String) :
    m'.resolveName name' = if name' = name then none else m.resolveName name' := by
  unfold resolveName
  rw [names, Std.ExtTreeMap.getElem?_erase]
  by_cases same : name = name'
  · simp [same]
  · simp [same, Ne.symm same]

theorem shown_unbindName (name : String) :
    (m.unbindName name).2.shown = m.shown.setName name none :=
  shown_setName (resolveName_erase rfl) rfl

theorem shown_deleteNamedObject (name : String) :
    (m.deleteNamedObject name).2.shown = m.shown.delete name := by
  have names : (m.deleteNamedObject name).2.names = m.names.erase name := by
    unfold deleteNamedObject
    cases m.resolveName name with
    | none => rfl
    | some id => rfl
  unfold VersionedStore.delete
  rw [show m.shown.names name = m.resolveName name from rfl]
  cases bound : m.resolveName name with
  | none =>
    have objects : (m.deleteNamedObject name).2.objects = m.objects := by
      unfold deleteNamedObject
      rw [bound]
    unfold shown
    congr 1
    · funext name'
      rw [resolveName_erase names]
      split
      · rename_i same
        rw [same, bound]
      · rfl
    · funext id
      rw [getObject_congr objects]
  | some id =>
    have objects : (m.deleteNamedObject name).2.objects = m.objects.erase id := by
      unfold deleteNamedObject
      rw [bound]
    show _ = (m.shown.setFile id none).setName name none
    apply VersionedStore.ext
    · funext name'
      rw [VersionedStore.names_setName]
      exact resolveName_erase names name'
    · funext id'
      refine Eq.trans ?_ (VersionedStore.files_setFile id' none).symm
      show ((m.deleteNamedObject name).2.getObject id').toOption.join.map _ = _
      rw [getObject_erase objects]
      by_cases own : id' = id
      · rw [if_pos own, if_pos own.symm]
        rfl
      · rw [if_neg own, if_neg (Ne.symm own)]
        rfl

theorem shown_renameNameBinding (whole : m.NamesWhole) (oldName newName : String) :
    (m.renameNameBinding oldName newName).2.shown = m.shown.rename oldName newName := by
  unfold VersionedStore.rename
  rw [show m.shown.names oldName = m.names[oldName]?.bind objectIdOf from rfl]
  cases value : m.names[oldName]? with
  | none =>
    have same : (m.renameNameBinding oldName newName).2 = m := by
      unfold renameNameBinding
      rw [value]
    rw [same]
    rfl
  | some bytes =>
    obtain ⟨id, known⟩ := Option.isSome_iff_exists.1 (whole oldName bytes value)
    have names : (m.renameNameBinding oldName newName).2.names =
        (m.names.erase oldName).insert newName bytes := by
      unfold renameNameBinding
      rw [value]
    have objects : (m.renameNameBinding oldName newName).2.objects = m.objects := by
      unfold renameNameBinding
      rw [value]
    rw [Option.bind_some, known]
    show _ = (m.shown.setName oldName none).setName newName (some id)
    apply VersionedStore.ext
    · funext name
      rw [VersionedStore.names_setName, VersionedStore.names_setName]
      show (m.renameNameBinding oldName newName).2.resolveName name =
        if name = newName then some id else if name = oldName then none else m.resolveName name
      unfold resolveName
      rw [names, Std.ExtTreeMap.getElem?_insert, Std.ExtTreeMap.getElem?_erase]
      simp only [Std.LawfulEqCmp.compare_eq_iff_eq]
      by_cases new : name = newName
      · rw [if_pos new, if_pos new.symm]
        exact known
      · rw [if_neg new, if_neg (Ne.symm new)]
        by_cases old : name = oldName
        · rw [if_pos old, if_pos old.symm]
          rfl
        · rw [if_neg old, if_neg (Ne.symm old)]
    · funext id
      show ((m.renameNameBinding oldName newName).2.getObject id).toOption.join.map _ = _
      rw [getObject_congr objects]
      rfl

/-- The watcher moves names to other places below its root, or takes them away. -/
theorem shown_updateWatchedPrefix {watchRoot source : String} {target : Option String}
    {included : String → Bool} {changes : List Change}
    (moved : m.updateWatchedPrefix watchRoot source target included = .ok (changes, m')) :
    ∃ origin : String → Option String,
      (∀ name' name, origin name' = some name → name' = name ∨ (suffixOf source name).isSome) ∧
      m'.shown = m.shown.perform (.move origin) := by
  have names := updateWatchedPrefix_resolveName moved
  have origins (name' : String) : ∃ origin : Option String,
      (∀ name, origin = some name → name' = name ∨ (suffixOf source name).isSome) ∧
      m'.resolveName name' = origin.bind m.resolveName := by
    cases now : m'.resolveName name' with
    | none =>
      exact ⟨none, fun name none => (by cases none), rfl⟩
    | some id =>
      obtain ⟨name, was, ends⟩ := (names name' id).1 now
      refine ⟨some name, ?_, was.symm⟩
      rintro name ⟨⟩
      rcases ends with ⟨same, -, -⟩ | ⟨⟨-, change⟩, -⟩
      · exact .inl same.symm
      · right
        unfold changeOf at change
        cases suffix : suffixOf source name with
        | none =>
          rw [suffix] at change
          cases change
        | some rest => rfl
  choose origin within same using origins
  refine ⟨origin, within, ?_⟩
  obtain ⟨-, -, -, -, rfl⟩ := updateWatchedPrefix_ok moved
  unfold shown VersionedStore.perform
  congr 1
  · funext name'
    exact same name'
  · funext id
    rw [getObject_congr (updateWatcherBindings_objects _ _ _)]

theorem Orderly.shown_prunes (h : m.Orderly G L) {keepLastN : Nat} (some : keepLastN ≠ 0)
    (prunes : m.Prunes name keepLastN m') : m'.shown = m.shown.prune name keepLastN := by
  obtain ⟨id, r, bound, found, more, rfl⟩ := prunes
  have own := h.owned id r found
  obtain ⟨order, -⟩ := h.records id r found
  rw [shown_putObject (order.drop _ (by omega))
    fun u hu => idsFit_of_getObject found u (List.mem_of_mem_drop hu)]
  unfold VersionedStore.prune
  rw [show m.shown.names name = m.resolveName name from rfl, bound]
  simp only
  rw [shown_files found]
  show m.shown.setFile r.objectId _ = _
  rw [own]
  congr 2
  unfold ObjectRecord.numbered VersionedStore.lastOf
  rw [List.map_drop, List.length_map]

theorem Orderly.shown_rollsBack (h : m.Orderly G L) {target : UInt32}
    (room : ∀ id r, m.getObject id = .ok (some r) → r.latestVersion < r.latestVersion + 1)
    (rolls : m.RollsBack env name target m') :
    m'.shown = m.shown.rollback name target.toNat := by
  obtain ⟨id, r, entry, manifest, createdAt, bound, found, there, number, -, rfl⟩ := rolls
  have own := h.owned id r found
  obtain ⟨order, -⟩ := h.records id r found
  have less := room id r found
  have listed : (target.toNat, entry.manifestId) ∈ r.numbered :=
    List.mem_map.2 ⟨entry, there, by rw [number]⟩
  have content := VersionedStore.contentAt_of_mem
    (h.ascends_shown id r.numbered (shown_files found)) listed
  unfold VersionedStore.rollback
  rw [show m.shown.names name = m.resolveName name from rfl, bound]
  simp only
  rw [shown_files found, Option.bind_some, content, ← own, order.nextVersion]
  apply shown_append (v := { entry with version := r.latestVersion + 1, createdAt }) order.ascending
    order.positive
  · exact fun u hu => UInt32.lt_of_le_of_lt (order.le_latest hu) less
  · exact UInt32.lt_trans order.latest_pos less
  · exact idsFit_of_getObject found
  · exact idsFit_of_getObject found entry there
  · rw [nextNumber_numbered order, toNat_succ less]

/-! ## Puts -/

/-- The version of a put is appended to those of its object. -/
theorem Orderly.shown_putVersion (h : m.Orderly G L) (choice : m.Chooses G put)
    (added : m.putVersion put = .ok m') : m'.shown = m.shown.setFile put.objectId
      (some (VersionedStore.appended ((m.shown.files put.objectId).getD []) put.manifest.contentId)) := by
  obtain ⟨v, hv⟩ : ∃ v : ObjectVersion, v = ⟨put.version, put.manifest.contentId,
    put.manifest.createdAt, put.manifest.totalSize⟩ := ⟨_, rfl⟩
  have fits' : (Text.utf8 v.manifestId).length < 2 ^ 16 := by
    rw [hv]
    simp
  unfold MetadataStore.putVersion at added
  obtain ⟨found, known, added⟩ := Result.bind_eq_ok.1 added
  cases choice with
  | next r bound there number less =>
    obtain rfl := Except.ok.inj (known.symm.trans there)
    have own := h.owned _ _ there
    obtain ⟨order, -⟩ := h.records _ _ there
    have above (u : ObjectVersion) (hu : u ∈ r.versions) : u.version < put.version :=
      UInt32.lt_of_le_of_lt (order.le_latest hu) less
    have unlisted : ¬ (r.versions.any fun u => u.version = put.version) = true := by
      intro any
      obtain ⟨u, hu, same⟩ := List.any_eq_true.1 any
      have below := above u hu
      rw [of_decide_eq_true same] at below
      exact absurd below (UInt32.lt_irrefl _)
    simp only [Option.getD_some] at added
    rw [if_neg unlisted, ← hv] at added
    cases added
    rw [shown_files there, ← own, Option.getD_some]
    have same : v.manifestId = put.manifest.contentId := by rw [hv]
    have version : v.version = put.version := by rw [hv]
    rw [← same, ← version]
    rw [← version] at above less number
    apply shown_append order.ascending order.positive above (UInt32.lt_trans order.latest_pos less)
      (idsFit_of_getObject there) fits'
    rw [nextNumber_numbered order, number]
    rw [number] at less
    exact toNat_succ less
  | new free unused first =>
    have none : m.getObject put.objectId = .ok none := by
      have legible := h.legible.getObject put.objectId
      cases found : (m.getObject put.objectId).toOption.join with
      | none => rw [legible, found]
      | some r =>
        rw [found] at legible
        exact absurd (h.records _ _ legible).2 unused
    obtain rfl := Except.ok.inj (known.symm.trans none)
    simp only [Option.getD_none, List.any_nil, Bool.false_eq_true, if_false, ← hv] at added
    cases added
    rw [shown_files_none none, Option.getD_none]
    have same : v.manifestId = put.manifest.contentId := by rw [hv]
    have version : v.version = put.version := by rw [hv]
    rw [← same, ← version]
    rw [← version] at first
    apply shown_append (r := ⟨put.objectId, v.version, []⟩) .nil
    · exact fun u hu => absurd hu List.not_mem_nil
    · exact fun u hu => absurd hu List.not_mem_nil
    · rw [first]
      decide
    · exact fun u hu => absurd hu List.not_mem_nil
    · exact fits'
    · rw [first]
      rfl

theorem shown_bindName (name : String) (id : ObjectId) :
    (m.bindName name id).shown = m.shown.setName name (some id) := by
  apply VersionedStore.ext
  · funext name'
    rw [VersionedStore.names_setName]
    show (m.bindName name id).resolveName name' = _
    rw [resolveName_bindName]
    by_cases same : name' = name
    · rw [if_pos same, if_pos same.symm]
    · rw [if_neg same, if_neg (Ne.symm same)]
      rfl
  · rfl

/-- All transactions of a put together. -/
theorem Orderly.shown_put (h : m.Orderly G L) (choice : m.Chooses G put) (done : Underway env put m 3 m') :
    m'.shown = m.shown.put put.name put.objectId put.manifest.contentId := by
  cases done with
  | bound added =>
    have saved : (m.saveManifest env put.manifest).2.Orderly G L := h.congr rfl rfl
    have id : (m.shown.names put.name).getD put.objectId = put.objectId := by
      rw [show m.shown.names put.name = m.resolveName put.name from rfl]
      cases choice with
      | next r bound found number less => rw [bound, Option.getD_some]
      | new free unused first => rw [free, Option.getD_none]
    rw [shown_bindName, saved.shown_putVersion (saveManifest_chooses choice) added,
      show (m.saveManifest env put.manifest).2.shown = m.shown from shown_congr rfl rfl]
    unfold VersionedStore.put
    simp only [id]

end MetadataStore

end OosLite
