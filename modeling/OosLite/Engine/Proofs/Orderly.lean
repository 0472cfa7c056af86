import OosLite.Engine.Proofs.Lookups
import OosLite.Engine.Proofs.Recovery
import OosLite.Engine.Proofs.Storing
import Mathlib.Order.Interval.Finset.Nat

/-!
# Names, records and version numbers

What the tables keep to while no version number is exhausted: every bound name has an object of its
own, the versions of every record ascend to its latest one, and no version number of an object ever
stands for two manifests.
-/

namespace OosLite

open Files Effect Relation StorageEngine

/-- The versions of a record ascend from a positive number to the latest one. -/
structure ObjectRecord.InOrder (r : ObjectRecord) : Prop where
  ascending : r.versions.Pairwise fun a b => a.version < b.version
  positive : ∀ v ∈ r.versions, 0 < v.version
  last : ∃ v, r.latest = some v ∧ v.version = r.latestVersion

/-- Tables in order, with the identifiers that were generated and the versions that were listed. -/
structure MetadataStore.Orderly (generated : Set ObjectId) (listed : Set (ObjectId × UInt32 × String))
    (m : MetadataStore) : Prop where
  legible : m.Legible
  owned : m.Owned
  alone : ∀ name name' id, m.resolveName name = some id → m.resolveName name' = some id → name = name'
  bound : ∀ name id, m.resolveName name = some id → ∃ r, m.getObject id = .ok (some r)
  records : ∀ id r, m.getObject id = .ok (some r) → r.InOrder ∧ id ∈ generated
  lists : m.listed ⊆ listed
  once : ∀ id v i i', (id, v, i) ∈ listed → (id, v, i') ∈ listed → i = i'
  below : ∀ id v i r, (id, v, i) ∈ listed → m.getObject id = .ok (some r) → v ≤ r.latestVersion
  source : ∀ id v i, (id, v, i) ∈ listed → id ∈ generated

/-! ## Records -/

instance maxEqOr_uInt32 : Std.MaxEqOr UInt32 where
  max_eq_or a b := by
    show (if a ≤ b then b else a) = a ∨ (if a ≤ b then b else a) = b
    split
    · exact .inr rfl
    · exact .inl rfl

namespace ObjectRecord

variable {r : ObjectRecord} {v : ObjectVersion}

namespace InOrder

/-- No version is above the latest one. -/
theorem le_latest (h : r.InOrder) (there : v ∈ r.versions) : v.version ≤ r.latestVersion := by
  obtain ⟨last, newest, number⟩ := h.last
  unfold latest at newest
  obtain ⟨front, split⟩ := List.getLast?_eq_some_iff.1 newest
  have ascending := h.ascending
  rw [split] at there ascending
  rw [← number]
  rcases List.mem_append.1 there with there | same
  · exact UInt32.le_of_lt ((List.pairwise_append.1 ascending).2.2 v there last (List.mem_singleton_self _))
  · rw [List.mem_singleton.1 same]
    exact UInt32.le_refl _

theorem latest_pos (h : r.InOrder) : 0 < r.latestVersion := by
  obtain ⟨last, newest, number⟩ := h.last
  rw [← number]
  exact h.positive last (List.mem_of_getLast? newest)

/-- There are no more versions than the latest number tells. -/
theorem length_le (h : r.InOrder) : r.versions.length ≤ r.latestVersion.toNat := by
  have numbers : (r.versions.map fun v => v.version.toNat).Nodup := by
    apply List.Pairwise.imp (R := fun a b => a < b) Nat.ne_of_lt
    rw [List.pairwise_map]
    exact h.ascending.imp UInt32.lt_iff_toNat_lt.1
  have within : (r.versions.map fun v => v.version.toNat).toFinset ⊆ Finset.Ioc 0 r.latestVersion.toNat := by
    intro n hn
    rw [List.mem_toFinset, List.mem_map] at hn
    obtain ⟨v, there, rfl⟩ := hn
    exact Finset.mem_Ioc.2 ⟨UInt32.lt_iff_toNat_lt.1 (h.positive v there),
      UInt32.le_iff_toNat_le.1 (h.le_latest there)⟩
  have few := Finset.card_le_card within
  rw [List.toFinset_card_of_nodup numbers, List.length_map, Nat.card_Ioc, Nat.sub_zero] at few
  exact few

theorem length_lt (h : r.InOrder) : r.versions.length < 2 ^ 32 :=
  Nat.lt_of_le_of_lt h.length_le r.latestVersion.toNat_lt

/-- The next version is the one behind the latest. -/
theorem nextVersion (h : r.InOrder) : r.nextVersion = r.latestVersion + 1 := by
  obtain ⟨last, newest, number⟩ := h.last
  have there := List.mem_of_getLast? newest
  obtain ⟨top, most⟩ : ∃ top, (r.versions.map ObjectVersion.version).max? = some top := by
    cases none : (r.versions.map ObjectVersion.version).max? with
    | none =>
      rw [List.max?_eq_none_iff, List.map_eq_nil_iff] at none
      rw [none] at there
      cases there
    | some top => exact ⟨top, rfl⟩
  have le : top ≤ r.latestVersion := by
    obtain ⟨v, listed, rfl⟩ := List.mem_map.1 (List.max?_mem most)
    exact h.le_latest listed
  unfold ObjectRecord.nextVersion
  rw [most, Option.getD_some]
  show (if r.latestVersion ≤ top then top else r.latestVersion) + 1 = _
  split
  · rename_i ge
    rw [UInt32.le_antisymm le ge]
  · rfl

/-- The last so many versions. -/
theorem drop (h : r.InOrder) (count : Nat) (some : count < r.versions.length) :
    InOrder { r with versions := r.versions.drop count } where
  ascending := h.ascending.drop
  positive v there := h.positive v (List.mem_of_mem_drop there)
  last := by
    obtain ⟨last, newest, number⟩ := h.last
    refine ⟨last, ?_, number⟩
    unfold latest at newest ⊢
    rw [List.getLast?_drop, if_neg (by omega), newest]

end InOrder

/-- A version above all others, behind them. -/
theorem inOrder_append (ascending : r.versions.Pairwise fun a b => a.version < b.version)
    (positive : ∀ u ∈ r.versions, 0 < u.version) (above : ∀ u ∈ r.versions, u.version < v.version)
    (pos : 0 < v.version) :
    InOrder { r with latestVersion := v.version, versions := r.versions ++ [v] } where
  ascending := by
    rw [List.pairwise_append]
    refine ⟨ascending, List.pairwise_singleton _ _, fun u hu w hw => ?_⟩
    rw [List.mem_singleton.1 hw]
    exact above u hu
  positive u hu := by
    rcases List.mem_append.1 hu with hu | last
    · exact positive u hu
    · rw [List.mem_singleton.1 last]
      exact pos
  last := ⟨v, by simp [latest], rfl⟩

end ObjectRecord

/-! ## Tables -/

/-- A put is for the next version of the object that its name is bound to, or for a new object. -/
inductive MetadataStore.Chooses (generated : Set ObjectId) (m : MetadataStore) (put : WalPutPayload) :
    Prop where
  | next (r : ObjectRecord) : m.resolveName put.name = some put.objectId →
      m.getObject put.objectId = .ok (some r) → put.version = r.latestVersion + 1 →
      r.latestVersion < put.version → Chooses generated m put
  | new : m.resolveName put.name = none → put.objectId ∉ generated → put.version = 1 →
      Chooses generated m put

/-- The version that a put lists. -/
def WalPutPayload.lists (put : WalPutPayload) : ObjectId × UInt32 × String :=
  (put.objectId, put.version, put.manifest.contentId)

namespace MetadataStore

variable {env : Env} {G G' : Set ObjectId} {L L' : Set (ObjectId × UInt32 × String)}
  {m m' : MetadataStore} {r : ObjectRecord} {id : ObjectId}

theorem getObject_congr (objects : m'.objects = m.objects) (id : ObjectId) :
    m'.getObject id = m.getObject id := by
  unfold getObject
  rw [objects]

theorem resolveName_congr (names : m'.names = m.names) (name : String) :
    m'.resolveName name = m.resolveName name := by
  unfold resolveName
  rw [names]

theorem listed_congr (objects : m'.objects = m.objects) : m'.listed = m.listed := by
  unfold listed
  simp only [getObject_congr objects]

/-- A record in order is read back as it was put. -/
theorem getObject_putObject_inOrder (order : r.InOrder) (fits : r.IdsFit) (id : ObjectId) :
    (m.putObject r).getObject id = if r.objectId = id then .ok (some r) else m.getObject id := by
  rw [getObject_putObject fits, Nat.mod_eq_of_lt order.length_lt, List.take_length]

theorem getObject_erase (objects : m'.objects = m.objects.erase id) (id' : ObjectId) :
    m'.getObject id' = if id = id' then .ok none else m.getObject id' := by
  unfold getObject
  rw [objects, Std.ExtTreeMap.getElem?_erase]
  by_cases same : id = id'
  · simp [same]
  · simp [same]

/-- A name ends in one place. -/
theorem EndsAs.unique {root source : String} {target : Option String} {included : String → Bool}
    {name a b : String} (h : m.EndsAs root source target included name a)
    (h' : m.EndsAs root source target included name b) : a = b := by
  rcases h with ⟨rfl, stays, -⟩ | ⟨moves, -⟩
  · rcases h' with ⟨same, -, -⟩ | ⟨moves', -⟩
    · exact same
    · exact absurd moves' (stays _)
  · rcases h' with ⟨rfl, stays', -⟩ | ⟨moves', -⟩
    · exact absurd moves (stays' _)
    · have same := moves.2.symm.trans moves'.2
      simpa using same

namespace Orderly

theorem empty : MetadataStore.empty.Orderly ∅ ∅ where
  legible id value there := by simp [MetadataStore.empty] at there
  owned id r found := by simp [getObject, MetadataStore.empty] at found
  alone name name' id there := by simp [resolveName, MetadataStore.empty] at there
  bound name id there := by simp [resolveName, MetadataStore.empty] at there
  records id r found := by simp [getObject, MetadataStore.empty] at found
  lists := by
    rintro e ⟨r, found, -⟩
    simp [getObject, MetadataStore.empty] at found
  once _ _ _ _ there := there.elim
  below _ _ _ _ there := there.elim
  source _ _ _ there := there.elim

/-- More identifiers, and fewer of the versions that are not listed any more. -/
theorem mono (h : m.Orderly G L) (grown : G ⊆ G') (sub : L' ⊆ L) (lists : m.listed ⊆ L') :
    m.Orderly G' L' where
  legible := h.legible
  owned := h.owned
  alone := h.alone
  bound := h.bound
  records id r found := ⟨(h.records id r found).1, grown (h.records id r found).2⟩
  lists := lists
  once id v i i' there there' := h.once id v i i' (sub there) (sub there')
  below id v i r there := h.below id v i r (sub there)
  source id v i there := grown (h.source id v i (sub there))

/-- What is remembered after a step that left the tables in order. -/
theorem remembered (h : m.Orderly G L) (grown : G ⊆ G') : m.Orderly G' (L ∪ m.listed) :=
  h.mono grown (Set.union_subset subset_rfl h.lists) Set.subset_union_right

/-- Names go from one place to another, or away. -/
theorem renamed (h : m.Orderly G L) (objects : m'.objects = m.objects) (Goes : String → String → Prop)
    (one : ∀ name a b, Goes name a → Goes name b → a = b)
    (came : ∀ name' id, m'.resolveName name' = some id →
      ∃ name, m.resolveName name = some id ∧ Goes name name') : m'.Orderly G L where
  legible id value there := h.legible id value (objects ▸ there)
  owned id r found := h.owned id r (getObject_congr objects id ▸ found)
  alone a b id there there' := by
    obtain ⟨name, was, goes⟩ := came a id there
    obtain ⟨name', was', goes'⟩ := came b id there'
    rw [h.alone name name' id was was'] at goes
    exact one name' a b goes goes'
  bound a id there := by
    obtain ⟨name, was, -⟩ := came a id there
    rw [getObject_congr objects]
    exact h.bound name id was
  records id r found := h.records id r (getObject_congr objects id ▸ found)
  lists := listed_congr objects ▸ h.lists
  once := h.once
  below id v i r there found := h.below id v i r there (getObject_congr objects id ▸ found)
  source := h.source

theorem congr (h : m.Orderly G L) (names : m'.names = m.names) (objects : m'.objects = m.objects) :
    m'.Orderly G L := by
  apply h.renamed objects Eq
  · exact fun name a b same same' => same.symm.trans same'
  · exact fun name id there => ⟨name, resolveName_congr names name ▸ there, rfl⟩

/-- An object goes, with the name that it had. -/
theorem deleteNamedObject (env : Env) (h : m.Orderly G L) (name : String) :
    (m.deleteNamedObject name).2.Orderly G L := by
  have names : (m.deleteNamedObject name).2.names = m.names.erase name := by
    unfold MetadataStore.deleteNamedObject
    cases m.resolveName name with
    | none => rfl
    | some id => rfl
  have resolve (name' : String) : (m.deleteNamedObject name).2.resolveName name' =
      if name = name' then none else m.resolveName name' := by
    unfold resolveName
    rw [names, Std.ExtTreeMap.getElem?_erase]
    by_cases same : name = name'
    · simp [same]
    · simp [same]
  cases bound : m.resolveName name with
  | none =>
    have objects : (m.deleteNamedObject name).2.objects = m.objects := by
      unfold MetadataStore.deleteNamedObject
      rw [bound]
    apply h.renamed objects Eq
    · exact fun name a b same same' => same.symm.trans same'
    · intro name' id there
      rw [resolve] at there
      split at there
      · cases there
      · exact ⟨name', there, rfl⟩
  | some id =>
    have objects : (m.deleteNamedObject name).2.objects = m.objects.erase id := by
      unfold MetadataStore.deleteNamedObject
      rw [bound]
    have step : Transaction env m (m.deleteNamedObject name).2 :=
      .edit (.deletePrefix "") trivial ⟨name, rfl⟩
    have found := getObject_erase objects
    have kept {name' : String} {id' : ObjectId}
        (there : (m.deleteNamedObject name).2.resolveName name' = some id') :
        m.resolveName name' = some id' ∧ id ≠ id' := by
      rw [resolve] at there
      split at there
      · cases there
      · rename_i other
        refine ⟨there, fun same => other ?_⟩
        exact h.alone name name' id bound (same ▸ there)
    constructor
    · exact h.legible.transaction step
    · exact h.owned.transaction step
    · exact fun a b id' there there' => h.alone a b id' (kept there).1 (kept there').1
    · intro a id' there
      rw [found, if_neg (kept there).2]
      exact h.bound a id' (kept there).1
    · intro id' r there
      rw [found] at there
      split at there
      · cases there
      · exact h.records id' r there
    · rintro ⟨id', v, i⟩ ⟨r, there, listed⟩
      rw [found] at there
      split at there
      · cases there
      · exact h.lists ⟨r, there, listed⟩
    · exact h.once
    · intro id' v i r there at'
      rw [found] at at'
      split at at'
      · cases at'
      · exact h.below id' v i r there at'
    · exact h.source

/-- A record is replaced, or there is a new one. -/
theorem putObject (h : m.Orderly G L) (step : Transaction env m (m.putObject r)) (order : r.InOrder)
    (fits : r.IdsFit) (grown : G ⊆ G') (here : r.objectId ∈ G')
    (lists : m.listed ⊆ L') (own : ∀ v ∈ r.versions, (r.objectId, v.version, v.manifestId) ∈ L')
    (once : ∀ id v i i', (id, v, i) ∈ L' → (id, v, i') ∈ L' → i = i')
    (below : ∀ id v i, (id, v, i) ∈ L' →
      if r.objectId = id then v ≤ r.latestVersion else (id, v, i) ∈ L)
    (source : ∀ id v i, (id, v, i) ∈ L' → id ∈ G') : (m.putObject r).Orderly G' L' := by
  have found := getObject_putObject_inOrder (m := m) order fits
  constructor
  · exact h.legible.transaction step
  · exact h.owned.transaction step
  · exact fun a b id there there' => h.alone a b id there there'
  · intro name id there
    rw [found]
    split
    · exact ⟨r, rfl⟩
    · exact h.bound name id there
  · intro id r' there
    rw [found] at there
    split at there
    · rename_i same
      cases there
      exact ⟨order, same ▸ here⟩
    · exact ⟨(h.records id r' there).1, grown (h.records id r' there).2⟩
  · rintro ⟨id, v, i⟩ ⟨r', there, u, hu, rfl, rfl⟩
    simp only at there
    rw [found] at there
    split at there
    · rename_i same
      cases there
      exact same ▸ own u hu
    · exact lists ⟨r', there, u, hu, rfl, rfl⟩
  · exact once
  · intro id v i r' there at'
    have le := below id v i there
    rw [found] at at'
    split at at'
    · rename_i same
      cases at'
      rw [if_pos same] at le
      exact le
    · rename_i other
      rw [if_neg other] at le
      exact h.below id v i r' le at'
  · exact source

/-- A version is added to a record, or to none. -/
theorem append (h : m.Orderly G L) {v : ObjectVersion}
    (step : Transaction env m (m.putObject
      { r with latestVersion := v.version, versions := r.versions ++ [v] }))
    (ascending : r.versions.Pairwise fun a b => a.version < b.version)
    (positive : ∀ u ∈ r.versions, 0 < u.version) (above : ∀ u ∈ r.versions, u.version < v.version)
    (pos : 0 < v.version) (fits : r.IdsFit) (fits' : (Text.utf8 v.manifestId).length < 2 ^ 16)
    (own : ∀ u ∈ r.versions, (r.objectId, u.version, u.manifestId) ∈ L)
    (higher : ∀ u i, (r.objectId, u, i) ∈ L → u < v.version) :
    (m.putObject { r with latestVersion := v.version, versions := r.versions ++ [v] }).Orderly
      (insert r.objectId G) (insert (r.objectId, v.version, v.manifestId) L) := by
  apply h.putObject step (ObjectRecord.inOrder_append ascending positive above pos)
  · intro u hu
    rcases List.mem_append.1 hu with hu | last
    · exact fits u hu
    · rw [List.mem_singleton.1 last]
      exact fits'
  · exact Set.subset_insert _ _
  · exact Set.mem_insert _ _
  · exact h.lists.trans (Set.subset_insert _ _)
  · intro u hu
    rcases List.mem_append.1 hu with hu | last
    · exact .inr (own u hu)
    · rw [List.mem_singleton.1 last]
      exact .inl rfl
  · intro id u i i' there there'
    rcases there with same | there
    · cases same
      rcases there' with same' | there'
      · cases same'
        rfl
      · exact absurd (higher _ _ there') (UInt32.lt_irrefl _)
    · rcases there' with same' | there'
      · cases same'
        exact absurd (higher _ _ there) (UInt32.lt_irrefl _)
      · exact h.once id u i i' there there'
  · intro id u i there
    rcases there with same | there
    · cases same
      rw [if_pos rfl]
      exact UInt32.le_refl _
    · split
      · rename_i same
        exact UInt32.le_of_lt (higher u i (same ▸ there))
      · exact there
  · intro id u i there
    rcases there with same | there
    · cases same
      exact Set.mem_insert _ _
    · exact .inr (h.source id u i there)

/-- What a record lists was listed. -/
theorem listed_of_found (h : m.Orderly G L) (found : m.getObject id = .ok (some r))
    (u : ObjectVersion) (hu : u ∈ r.versions) : (r.objectId, u.version, u.manifestId) ∈ L := by
  rw [h.owned id r found]
  exact h.lists ⟨r, found, u, hu, rfl, rfl⟩

/-- Some versions of a named object go, but not all. -/
theorem prunes (h : m.Orderly G L) {name : String} {keepLastN : Nat} (some : keepLastN ≠ 0)
    (step : Transaction env m m') (prunes : m.Prunes name keepLastN m') : m'.Orderly G L := by
  obtain ⟨id, r, -, found, more, rfl⟩ := prunes
  have own := h.owned id r found
  obtain ⟨order, known⟩ := h.records id r found
  have order' := order.drop (r.versions.length - keepLastN) (by omega)
  apply h.putObject step order'
  · exact fun u hu => idsFit_of_getObject found u (List.mem_of_mem_drop hu)
  · exact subset_rfl
  · exact own ▸ known
  · exact h.lists
  · exact fun u hu => h.listed_of_found found u (List.mem_of_mem_drop hu)
  · exact h.once
  · intro id' v i there
    split
    · rename_i same
      have same : r.objectId = id' := same
      exact h.below id v i r (own ▸ same ▸ there) found
    · exact there
  · exact h.source

/-- A named object gets a new version with an earlier manifest. -/
theorem rollsBack (h : m.Orderly G L) {name : String} {target : UInt32}
    (room : ∀ id r, m.getObject id = .ok (some r) → r.latestVersion < r.latestVersion + 1)
    (step : Transaction env m m') (rolls : m.RollsBack env name target m') :
    m'.Orderly G (L ∪ m'.listed) := by
  obtain ⟨id, r, entry, manifest, createdAt, -, found, there, -, -, rfl⟩ := rolls
  have own := h.owned id r found
  obtain ⟨order, known⟩ := h.records id r found
  have less := room id r found
  rw [order.nextVersion] at step ⊢
  have appended := h.append (v := { entry with version := r.latestVersion + 1, createdAt }) step
    order.ascending order.positive (fun u hu => UInt32.lt_of_le_of_lt (order.le_latest hu) less)
    (UInt32.lt_trans order.latest_pos less) (idsFit_of_getObject found)
    (idsFit_of_getObject found entry there) (h.listed_of_found found)
    (fun u i listed => UInt32.lt_of_le_of_lt (h.below id u i r (own ▸ listed) found) less)
  refine (appended.mono ?_ ?_ ?_)
  · exact Set.insert_subset (own ▸ known) subset_rfl
  · exact Set.union_subset (Set.subset_insert _ _) appended.lists
  · exact Set.subset_union_right

/-- A name goes. -/
theorem unbindName (h : m.Orderly G L) (name : String) : (m.unbindName name).2.Orderly G L := by
  have objects : (m.unbindName name).2.objects = m.objects := rfl
  apply h.renamed objects Eq
  · exact fun name a b same same' => same.symm.trans same'
  · intro name' id there
    refine ⟨name', ?_, rfl⟩
    unfold MetadataStore.unbindName resolveName at there
    rw [Std.ExtTreeMap.getElem?_erase] at there
    split at there
    · cases there
    · exact there

/-- A name takes the place of another one. -/
theorem renameNameBinding (h : m.Orderly G L) (oldName newName : String) :
    (m.renameNameBinding oldName newName).2.Orderly G L := by
  cases value : m.names[oldName]? with
  | none =>
    have same : (m.renameNameBinding oldName newName).2 = m := by
      unfold MetadataStore.renameNameBinding
      rw [value]
    rw [same]
    exact h
  | some bytes =>
    have objects : (m.renameNameBinding oldName newName).2.objects = m.objects := by
      unfold MetadataStore.renameNameBinding
      rw [value]
    have names : (m.renameNameBinding oldName newName).2.names =
        (m.names.erase oldName).insert newName bytes := by
      unfold MetadataStore.renameNameBinding
      rw [value]
    apply h.renamed objects fun a b => a = oldName ∧ b = newName ∨ a ≠ oldName ∧ a = b
    · rintro name a b (⟨old, rfl⟩ | ⟨other, rfl⟩) (⟨old', same⟩ | ⟨other', same⟩)
      · exact same.symm
      · exact absurd old other'
      · exact absurd old' other
      · exact same
    · intro name' id there
      unfold resolveName at there
      simp only [names, Std.ExtTreeMap.getElem?_insert, Std.ExtTreeMap.getElem?_erase,
        Std.LawfulEqCmp.compare_eq_iff_eq] at there
      by_cases new : newName = name'
      · rw [if_pos new] at there
        refine ⟨oldName, ?_, .inl ⟨rfl, new.symm⟩⟩
        unfold resolveName
        rw [value]
        exact there
      · rw [if_neg new] at there
        by_cases old : oldName = name'
        · rw [if_pos old] at there
          cases there
        · rw [if_neg old] at there
          exact ⟨name', there, .inr ⟨Ne.symm old, rfl⟩⟩

/-- A call that only edits the tables, and empties no record of a bound name, keeps them in order. -/
theorem edit (h : m.Orderly G L) {call : EngineCall} (edit : call.Edits env m m')
    (only : call.OnlyEdits)
    (prune : ∀ name keepLastN, call = .prune name keepLastN → keepLastN ≠ 0)
    (pruneAll : ∀ keepLastN, call = .pruneAll keepLastN → keepLastN ≠ 0)
    (rollback : ∀ name target writes, call ≠ .rollback name target writes) : m'.Orderly G L := by
  have step : Transaction env m m' := .edit call only edit
  cases call with
  | put | gc => exact only.elim
  | get | restoreSnapshot => exact edit.elim
  | createSnapshot label =>
    obtain ⟨named, createdAt, -, -, -, rfl⟩ := edit
    exact h.congr rfl rfl
  | deleteSnapshot label =>
    obtain rfl := edit
    exact h.congr rfl rfl
  | delete name =>
    obtain rfl := edit
    exact h.deleteNamedObject env _
  | deletePrefix start =>
    obtain ⟨name, rfl⟩ := edit
    exact h.deleteNamedObject env _
  | unbind name =>
    obtain rfl := edit
    exact h.unbindName _
  | rename oldName newName =>
    obtain rfl := edit
    exact h.renameNameBinding _ _
  | updateWatchedPrefix watchRoot source target included =>
    obtain ⟨changes, moved⟩ := edit
    obtain ⟨-, -, -, -, same⟩ := updateWatchedPrefix_ok moved
    have objects : m'.objects = m.objects := by
      rw [same]
      exact updateWatcherBindings_objects _ _ _
    apply h.renamed objects (m.EndsAs watchRoot source target included)
    · exact fun name a b => EndsAs.unique
    · exact fun name' id there => (updateWatchedPrefix_resolveName moved name' id).1 there
  | markWatcherFile watchRoot logicalName =>
    obtain rfl := edit
    exact h.congr rfl rfl
  | prune name keepLastN => exact h.prunes (prune _ _ rfl) step edit
  | pruneAll keepLastN =>
    obtain ⟨name, edit⟩ := edit
    exact h.prunes (pruneAll _ rfl) step edit
  | rollback name target writes => exact absurd rfl (rollback name target writes)

/-! ### Puts -/

section Puts

variable {put : WalPutPayload}

/-- What a put writes to, while the latest version has a successor. -/
theorem chooses (h : m.Orderly G L) {unused : ObjectId} (fresh : unused ∉ G)
    (room : ∀ id r, m.getObject id = .ok (some r) → r.latestVersion < r.latestVersion + 1)
    (target : m.putTarget put.name unused = .ok (put.objectId, put.version)) :
    m.Chooses G put ∧ insert put.objectId G ⊆ insert unused G := by
  unfold putTarget at target
  cases bound : m.resolveName put.name with
  | none =>
    rw [bound] at target
    obtain ⟨same, number⟩ := Prod.mk.inj (Except.ok.inj target)
    rw [← same]
    exact ⟨.new bound (same ▸ fresh) number.symm, subset_rfl⟩
  | some id =>
    rw [bound] at target
    obtain ⟨r, found⟩ := h.bound _ _ bound
    simp only [found] at target
    obtain ⟨same, number⟩ := Prod.mk.inj (Except.ok.inj target)
    rw [(h.records _ _ found).1.nextVersion] at number
    subst same
    refine ⟨.next r bound found number.symm (by rw [← number]; exact room _ _ found), ?_⟩
    exact Set.insert_subset (.inr (h.records _ _ found).2) (Set.subset_insert _ _)

/-- The version is added, and is there then. -/
theorem putVersion (env : Env) (h : m.Orderly G L) (choice : m.Chooses G put) :
    ∃ n, m.putVersion put = .ok n ∧ n.putVersion put = .ok n ∧ n.names = m.names ∧
      (∃ r, n.getObject put.objectId = .ok (some r)) ∧
      n.Orderly (insert put.objectId G) (insert put.lists L) := by
  obtain ⟨r, found, own, ascending, positive, above, pos, fits, listed, higher⟩ :
      ∃ r : ObjectRecord, (m.getObject put.objectId = .ok (some r) ∨
          m.getObject put.objectId = .ok none ∧ r = ⟨put.objectId, put.version, []⟩) ∧
        r.objectId = put.objectId ∧ r.versions.Pairwise (fun a b => a.version < b.version) ∧
        (∀ u ∈ r.versions, 0 < u.version) ∧ (∀ u ∈ r.versions, u.version < put.version) ∧
        0 < put.version ∧ r.IdsFit ∧
        (∀ u ∈ r.versions, (r.objectId, u.version, u.manifestId) ∈ L) ∧
        ∀ u i, (r.objectId, u, i) ∈ L → u < put.version := by
    cases choice with
    | next r bound found number less =>
      obtain ⟨order, known⟩ := h.records _ _ found
      have own := h.owned _ _ found
      exact ⟨r, .inl found, own, order.ascending, order.positive,
        fun u hu => UInt32.lt_of_le_of_lt (order.le_latest hu) less,
        UInt32.lt_trans order.latest_pos less, idsFit_of_getObject found, h.listed_of_found found,
        fun u i there => UInt32.lt_of_le_of_lt (h.below _ u i r (own ▸ there) found) less⟩
    | new free unused first =>
      have none : m.getObject put.objectId = .ok none := by
        have legible := h.legible.getObject put.objectId
        cases found : (m.getObject put.objectId).toOption.join with
        | none => rw [legible, found]
        | some r =>
          rw [found] at legible
          exact absurd (h.records _ _ legible).2 unused
      refine ⟨⟨put.objectId, put.version, []⟩, .inr ⟨none, rfl⟩, rfl, .nil, ?_, ?_, ?_, ?_, ?_, ?_⟩
      · exact fun u hu => absurd hu List.not_mem_nil
      · exact fun u hu => absurd hu List.not_mem_nil
      · rw [first]
        decide
      · exact fun u hu => absurd hu List.not_mem_nil
      · exact fun u hu => absurd hu List.not_mem_nil
      · exact fun u i there => absurd (h.source _ u i there) unused
  obtain ⟨v, hv⟩ : ∃ v : ObjectVersion, v = ⟨put.version, put.manifest.contentId,
    put.manifest.createdAt, put.manifest.totalSize⟩ := ⟨_, rfl⟩
  have number : v.version = put.version := by rw [hv]
  have unlisted : ¬ (r.versions.any fun u => u.version = put.version) = true := by
    intro any
    obtain ⟨u, hu, same⟩ := List.any_eq_true.1 any
    have less := above u hu
    rw [of_decide_eq_true same] at less
    exact absurd less (UInt32.lt_irrefl _)
  have added : m.putVersion put = .ok (m.putObject
      { r with latestVersion := v.version, versions := r.versions ++ [v] }) := by
    unfold MetadataStore.putVersion
    rw [Result.bind_eq_ok]
    rcases found with found | ⟨found, rfl⟩
    · refine ⟨some r, found, ?_⟩
      simp only [Option.getD_some]
      rw [if_neg unlisted, hv]
      rfl
    · refine ⟨none, found, ?_⟩
      simp only [Option.getD_none]
      rw [if_neg unlisted, hv]
      rfl
  have fits' : (Text.utf8 v.manifestId).length < 2 ^ 16 := by
    rw [hv]
    simp
  rw [← number] at above pos higher
  have step : Transaction env m (m.putObject
      { r with latestVersion := v.version, versions := r.versions ++ [v] }) := .addVersion put added
  have appended := h.append step ascending positive above pos fits fits' listed higher
  have order := ObjectRecord.inOrder_append ascending positive above pos
  have there : (m.putObject { r with latestVersion := v.version, versions := r.versions ++ [v] }).getObject
      put.objectId = .ok (some { r with latestVersion := v.version, versions := r.versions ++ [v] }) := by
    rw [getObject_putObject_inOrder order, if_pos own]
    intro u hu
    rcases List.mem_append.1 hu with hu | last
    · exact fits u hu
    · rw [List.mem_singleton.1 last]
      exact fits'
  refine ⟨_, added, ?_, rfl, ⟨_, there⟩, ?_⟩
  · unfold MetadataStore.putVersion
    rw [Result.bind_eq_ok]
    refine ⟨_, there, ?_⟩
    simp only [Option.getD_some]
    rw [if_pos]
    · rfl
    · rw [List.any_append, List.any_cons, decide_eq_true number]
      simp
  · have lists : (r.objectId, v.version, v.manifestId) = put.lists := by
      rw [own, hv]
      rfl
    rw [← own, ← lists]
    exact appended

/-- A name is bound to an object that has no other name. -/
theorem bindName (h : m.Orderly G L) {name : String} (found : m.getObject id = .ok (some r))
    (free : ∀ name', m.resolveName name' = some id → name' = name) :
    (m.bindName name id).Orderly G L where
  legible := h.legible
  owned := h.owned
  alone a b id' there there' := by
    rw [resolveName_bindName] at there there'
    split at there
    · rename_i here
      cases there
      split at there'
      · rename_i here'
        rw [← here, ← here']
      · rw [free b there', here]
    · split at there'
      · rename_i here'
        cases there'
        rw [free a there, here']
      · exact h.alone a b id' there there'
  bound a id' there := by
    rw [resolveName_bindName] at there
    split at there
    · cases there
      exact ⟨r, found⟩
    · exact h.bound a id' there
  records := h.records
  lists := h.lists
  once := h.once
  below := h.below
  source := h.source

theorem saveManifest_chooses (choice : m.Chooses G put) :
    (m.saveManifest env put.manifest).2.Chooses G put := by
  cases choice with
  | next r bound found number less => exact .next r bound found number less
  | new free unused first => exact .new free unused first

/-- The tables are in order once the version of a put was added. -/
theorem underway_added (h : m.Orderly G L) (choice : m.Chooses G put) {k : Nat} {n : MetadataStore}
    (stage : Underway env put m k n) (added : 2 ≤ k) :
    n.Orderly (insert put.objectId G) (insert put.lists L) := by
  have saved : (m.saveManifest env put.manifest).2.Orderly G L := h.congr rfl rfl
  obtain ⟨n', done, -, names, ⟨r, found⟩, order⟩ := saved.putVersion env (saveManifest_chooses choice)
  cases stage with
  | start | saved => omega
  | added done' =>
    obtain rfl := Except.ok.inj (done.symm.trans done')
    exact order
  | bound done' =>
    obtain rfl := Except.ok.inj (done.symm.trans done')
    apply order.bindName found
    intro name' there
    rw [resolveName_congr names] at there
    cases choice with
    | next r bound found number less => exact h.alone name' put.name put.objectId there bound
    | new free unused first =>
      obtain ⟨r', found'⟩ := h.bound name' put.objectId there
      exact absurd (h.records _ _ found').2 unused

theorem underway_unadded (h : m.Orderly G L) {k : Nat} {n : MetadataStore}
    (stage : Underway env put m k n) (unadded : k < 2) : n.Orderly G L := by
  cases stage with
  | start => exact h
  | saved => exact h.congr rfl rfl
  | added | bound => omega

/-- The tables are in order after each transaction of a put. -/
theorem underway (h : m.Orderly G L) (choice : m.Chooses G put) {k : Nat} {n : MetadataStore}
    (stage : Underway env put m k n) :
    n.Orderly (insert put.objectId G) (L ∪ n.listed) ∧ n.listed ⊆ insert put.lists L := by
  by_cases added : 2 ≤ k
  · have order := h.underway_added choice stage added
    exact ⟨order.mono subset_rfl (Set.union_subset (Set.subset_insert _ _) order.lists)
      Set.subset_union_right, order.lists⟩
  · have order := h.underway_unadded stage (Nat.lt_of_not_le added)
    exact ⟨order.remembered (Set.subset_insert _ _), order.lists.trans (Set.subset_insert _ _)⟩

/-- Such a put can be made, and made again. -/
theorem takes (h : m.Orderly G L) (choice : m.Chooses G put) : m.Takes env put := by
  have saved : (m.saveManifest env put.manifest).2.Orderly G L := h.congr rfl rfl
  obtain ⟨n, added, again, -⟩ := saved.putVersion env (saveManifest_chooses choice)
  exact ⟨n, added, again⟩

end Puts

end Orderly

end MetadataStore

end OosLite
