import OosLite.Engine.Names

/-!
# What moving names does to the tables

The names and tracked files after `update_watcher_bindings`, entry by entry, and the names that
`list_named_objects` lists.
-/

namespace OosLite

theorem compare_eq_iff {s t : String} : compare s t = .eq ↔ s = t :=
  Std.LawfulEqOrd.compare_eq_iff_eq

namespace MetadataStore

/-! ## Tracked files -/

theorem watcherFileKey_inj {root a b : String} :
    watcherFileKey root a = watcherFileKey root b ↔ a = b := by
  simp [watcherFileKey]

theorem mem_listWatcherFiles (m : MetadataStore) (root name : String) :
    name ∈ m.listWatcherFiles root ↔ m.watcherFiles.contains (watcherFileKey root name) = true := by
  unfold listWatcherFiles
  rw [List.mem_filterMap, ← Std.ExtTreeMap.isSome_getElem?_eq_contains, Option.isSome_iff_exists]
  constructor
  · intro h
    obtain ⟨⟨key, value⟩, there, same⟩ := h
    rw [Text.stripPrefix_eq_some] at same
    rw [Std.ExtTreeMap.mem_toList_iff_getElem?_eq_some] at there
    simp only at same
    rw [same] at there
    exact ⟨value, there⟩
  · intro h
    obtain ⟨value, there⟩ := h
    refine ⟨(watcherFileKey root name, value), ?_, ?_⟩
    · exact Std.ExtTreeMap.mem_toList_iff_getElem?_eq_some.2 there
    · exact Text.stripPrefix_eq_some.2 rfl

/-! ## The two loops -/

section Loops

variable (root : String)

/-- The object that the last of these bindings gives a name. -/
def lastTo (name : String) : List (Option String × Bytes) → Option Bytes
  | [] => none
  | (new, id) :: rest => (lastTo name rest).or (if new = some name then some id else none)

theorem takeBindings_cons (m : MetadataStore) (change : Change) (rest : List Change) :
    takeBindings root m (change :: rest) =
      let taken := takeBindings root
        { m with names := m.names.erase change.1
                 watcherFiles := m.watcherFiles.erase (watcherFileKey root change.1) } rest
      (taken.1, (m.names[change.1]?.map fun id => (change.2, id)).toList ++ taken.2) := rfl

theorem setBindings_none (m : MetadataStore) (id : Bytes) (rest : List (Option String × Bytes)) :
    setBindings root m ((none, id) :: rest) = setBindings root m rest := rfl

theorem setBindings_some (m : MetadataStore) (new : String) (id : Bytes)
    (rest : List (Option String × Bytes)) :
    setBindings root m ((some new, id) :: rest) =
      setBindings root
        { m with names := m.names.insert new id
                 watcherFiles := m.watcherFiles.insert (watcherFileKey root new) [] } rest := rfl

theorem takeBindings_tables (m : MetadataStore) (changes : List Change) :
    (takeBindings root m changes).1.objects = m.objects ∧
      (takeBindings root m changes).1.manifests = m.manifests ∧
      (takeBindings root m changes).1.snapshots = m.snapshots := by
  induction changes generalizing m with
  | nil => exact ⟨rfl, rfl, rfl⟩
  | cons change rest ih =>
    rw [takeBindings_cons]
    exact ih _

theorem takeBindings_names (m : MetadataStore) (changes : List Change) (name : String) :
    (takeBindings root m changes).1.names[name]? =
      if name ∈ changes.map Prod.fst then none else m.names[name]? := by
  induction changes generalizing m with
  | nil => rfl
  | cons change rest ih =>
    rw [takeBindings_cons, ih, List.map_cons]
    simp only [Std.ExtTreeMap.getElem?_erase, compare_eq_iff]
    by_cases later : name ∈ rest.map Prod.fst
    · rw [if_pos later, if_pos (List.mem_cons_of_mem _ later)]
    · rw [if_neg later]
      by_cases here : change.1 = name
      · rw [if_pos here, if_pos (here ▸ List.mem_cons_self)]
      · rw [if_neg here, if_neg]
        exact List.not_mem_cons_of_ne_of_not_mem (Ne.symm here) later

theorem takeBindings_watcherFiles (m : MetadataStore) (changes : List Change) (key : String) :
    (takeBindings root m changes).1.watcherFiles[key]? =
      if key ∈ changes.map (fun c => watcherFileKey root c.1) then none
      else m.watcherFiles[key]? := by
  induction changes generalizing m with
  | nil => rfl
  | cons change rest ih =>
    rw [takeBindings_cons, ih, List.map_cons]
    simp only [Std.ExtTreeMap.getElem?_erase, compare_eq_iff]
    by_cases later : key ∈ rest.map fun c => watcherFileKey root c.1
    · rw [if_pos later, if_pos (List.mem_cons_of_mem _ later)]
    · rw [if_neg later]
      by_cases here : watcherFileKey root change.1 = key
      · rw [if_pos here, if_pos (here ▸ List.mem_cons_self)]
      · rw [if_neg here, if_neg]
        exact List.not_mem_cons_of_ne_of_not_mem (Ne.symm here) later

/-- What is taken out, when no name is changed twice. -/
theorem takeBindings_moved (m : MetadataStore) {changes : List Change}
    (nodup : (changes.map Prod.fst).Nodup) :
    (takeBindings root m changes).2 =
      changes.flatMap fun c => (m.names[c.1]?.map fun id => (c.2, id)).toList := by
  induction changes generalizing m with
  | nil => rfl
  | cons change rest ih =>
    rw [List.map_cons, List.nodup_cons] at nodup
    rw [takeBindings_cons]
    simp only
    rw [List.flatMap_cons, ih _ nodup.2]
    congr 1
    have same : ∀ c ∈ rest, (m.names.erase change.1)[c.1]? = m.names[c.1]? := by
      intro c hc
      have other : change.1 ≠ c.1 := by
        intro same
        exact nodup.1 (same ▸ List.mem_map_of_mem hc)
      simp [Std.ExtTreeMap.getElem?_erase, other]
    apply List.flatMap_congr
    intro c hc
    rw [same c hc]

theorem setBindings_tables (m : MetadataStore) (moved : List (Option String × Bytes)) :
    (setBindings root m moved).objects = m.objects ∧
      (setBindings root m moved).manifests = m.manifests ∧
      (setBindings root m moved).snapshots = m.snapshots := by
  induction moved generalizing m with
  | nil => exact ⟨rfl, rfl, rfl⟩
  | cons binding rest ih =>
    obtain ⟨new, id⟩ := binding
    cases new with
    | none => exact ih m
    | some new => exact ih _

theorem setBindings_names (m : MetadataStore) (moved : List (Option String × Bytes))
    (name : String) :
    (setBindings root m moved).names[name]? = (lastTo name moved).or m.names[name]? := by
  induction moved generalizing m with
  | nil => rfl
  | cons binding rest ih =>
    obtain ⟨new, id⟩ := binding
    cases new with
    | none =>
      rw [setBindings_none, ih, lastTo, if_neg nofun, Option.or_none]
    | some new =>
      rw [setBindings_some, ih, lastTo]
      simp only [Std.ExtTreeMap.getElem?_insert, compare_eq_iff, Option.some.injEq]
      by_cases here : new = name
      · cases lastTo name rest <;> simp [here]
      · cases lastTo name rest <;> simp [here]

theorem setBindings_watcherFiles (m : MetadataStore) (moved : List (Option String × Bytes))
    (key : String) :
    (setBindings root m moved).watcherFiles.contains key = true ↔
      (∃ new id, (some new, id) ∈ moved ∧ key = watcherFileKey root new) ∨
        m.watcherFiles.contains key = true := by
  induction moved generalizing m with
  | nil =>
    constructor
    · exact .inr
    · rintro (⟨_, _, there, _⟩ | there)
      · cases there
      · exact there
  | cons binding rest ih =>
    obtain ⟨new, id⟩ := binding
    cases new with
    | none =>
      rw [setBindings_none, ih]
      constructor
      · rintro (⟨new', id', there, same⟩ | there)
        · exact .inl ⟨new', id', List.mem_cons_of_mem _ there, same⟩
        · exact .inr there
      · rintro (⟨new', id', there, same⟩ | there)
        · rcases List.mem_cons.1 there with same' | there
          · cases same'
          · exact .inl ⟨new', id', there, same⟩
        · exact .inr there
    | some new =>
      rw [setBindings_some, ih]
      simp only [Std.ExtTreeMap.contains_insert, Bool.or_eq_true, beq_iff_eq, compare_eq_iff]
      constructor
      · intro h
        rcases h with ⟨new', id', there, same⟩ | rfl | there
        · exact .inl ⟨new', id', List.mem_cons_of_mem _ there, same⟩
        · exact .inl ⟨new, id, List.mem_cons_self, rfl⟩
        · exact .inr there
      · intro h
        rcases h with ⟨new', id', there, same⟩ | there
        · rcases List.mem_cons.1 there with same' | there
          · cases same'
            exact .inr (.inl same.symm)
          · exact .inl ⟨new', id', there, same⟩
        · exact .inr (.inr there)

end Loops

/-! ## Both loops -/

section Update

variable (root : String) (m : MetadataStore) (changes : List Change)

theorem updateWatcherBindings_tables :
    (m.updateWatcherBindings root changes).objects = m.objects ∧
      (m.updateWatcherBindings root changes).manifests = m.manifests ∧
      (m.updateWatcherBindings root changes).snapshots = m.snapshots := by
  obtain ⟨objects, manifests, snapshots⟩ := takeBindings_tables root m changes
  obtain ⟨objects', manifests', snapshots'⟩ :=
    setBindings_tables root (takeBindings root m changes).1 (takeBindings root m changes).2
  exact ⟨objects'.trans objects, manifests'.trans manifests, snapshots'.trans snapshots⟩

theorem updateWatcherBindings_objects :
    (m.updateWatcherBindings root changes).objects = m.objects :=
  (updateWatcherBindings_tables root m changes).1

theorem updateWatcherBindings_manifests :
    (m.updateWatcherBindings root changes).manifests = m.manifests :=
  (updateWatcherBindings_tables root m changes).2.1

theorem updateWatcherBindings_snapshots :
    (m.updateWatcherBindings root changes).snapshots = m.snapshots :=
  (updateWatcherBindings_tables root m changes).2.2

end Update

/-! ## The names that are listed -/

theorem mem_boundNames (m : MetadataStore) (name : String) (id : ObjectId) :
    (name, id) ∈ m.boundNames ↔ m.resolveName name = some id := by
  unfold boundNames resolveName
  rw [List.mem_filterMap, Option.bind_eq_some_iff]
  constructor
  · intro h
    obtain ⟨⟨key, value⟩, there, same⟩ := h
    rw [Std.ExtTreeMap.mem_toList_iff_getElem?_eq_some] at there
    obtain ⟨id', found, same'⟩ := Option.map_eq_some_iff.1 same
    cases same'
    exact ⟨value, there, found⟩
  · intro h
    obtain ⟨value, there, found⟩ := h
    refine ⟨(name, value), Std.ExtTreeMap.mem_toList_iff_getElem?_eq_some.2 there, ?_⟩
    rw [found]
    rfl

/-- Names in the order of the table. -/
abbrev InOrder (names : List String) : Prop := names.Pairwise fun a b => compare a b = .lt

theorem inOrder_boundNames (m : MetadataStore) : InOrder (m.boundNames.map Prod.fst) := by
  unfold boundNames InOrder
  rw [List.map_filterMap, List.pairwise_filterMap]
  apply Std.ExtTreeMap.ordered_keys_toList.imp
  intro a b before x hx y hy
  have left : a.1 = x := by
    cases h : objectIdOf a.2 <;> simp_all
  have right : b.1 = y := by
    cases h : objectIdOf b.2 <;> simp_all
  rw [← left, ← right]
  exact before

/-- A name that is bound to an object with a record. -/
def Listed (m : MetadataStore) (name : String) : Prop :=
  ∃ id record, m.resolveName name = some id ∧ m.getObject id = .ok (some record)

/-- The record of every bound object can be read, if there is one. -/
def Readable (m : MetadataStore) : Prop :=
  ∀ name id, m.resolveName name = some id → ∃ record, m.getObject id = .ok record

theorem withRecords_spec (m : MetadataStore) (entries : List (String × ObjectId)) :
    match m.withRecords entries with
    | .ok named => (∀ e ∈ entries, ∃ record, m.getObject e.2 = .ok record) ∧
        (∀ name id record, (name, id, record) ∈ named ↔
          (name, id) ∈ entries ∧ m.getObject id = .ok (some record)) ∧
        (named.map Prod.fst).Sublist (entries.map Prod.fst)
    | .error _ => ∃ e ∈ entries, ∃ error, m.getObject e.2 = .error error := by
  induction entries with
  | nil => simp [withRecords]
  | cons entry rest ih =>
    obtain ⟨name, id⟩ := entry
    rw [withRecords]
    cases hid : m.getObject id with
    | error error => exact ⟨(name, id), List.mem_cons_self, error, hid⟩
    | ok found =>
      cases hrest : m.withRecords rest with
      | error error =>
        rw [hrest] at ih
        obtain ⟨e, he, bad⟩ := ih
        cases found <;> exact ⟨e, List.mem_cons_of_mem _ he, bad⟩
      | ok named =>
        rw [hrest] at ih
        obtain ⟨readable, members, sub⟩ := ih
        have all : ∀ e ∈ (name, id) :: rest, ∃ record, m.getObject e.2 = .ok record := by
          intro e he
          rcases List.mem_cons.1 he with rfl | he
          · exact ⟨found, hid⟩
          · exact readable e he
        cases found with
        | none =>
          refine ⟨all, ?_, sub.cons _⟩
          intro name' id' record'
          rw [members, List.mem_cons]
          constructor
          · intro h
            exact ⟨.inr h.1, h.2⟩
          · intro h
            rcases h with ⟨same | there, record⟩
            · cases same
              rw [hid] at record
              cases record
            · exact ⟨there, record⟩
        | some record =>
          refine ⟨all, ?_, sub.cons_cons _⟩
          intro name' id' record'
          simp only [List.mem_cons, members]
          constructor
          · intro h
            rcases h with same | ⟨there, found⟩
            · cases same
              exact ⟨.inl rfl, hid⟩
            · exact ⟨.inr there, found⟩
          · intro h
            rcases h with ⟨same | there, found⟩
            · cases same
              rw [hid] at found
              cases found
              exact .inl rfl
            · exact .inr ⟨there, found⟩

theorem listNamedObjects_ok {m : MetadataStore} {named : List (String × ObjectId × ObjectRecord)}
    (h : m.listNamedObjects = .ok named) :
    m.Readable ∧ (∀ name, name ∈ named.map Prod.fst ↔ m.Listed name) ∧
      InOrder (named.map Prod.fst) := by
  have spec := m.withRecords_spec m.boundNames
  rw [listNamedObjects] at h
  rw [h] at spec
  obtain ⟨readable, members, sub⟩ := spec
  refine ⟨?_, ?_, m.inOrder_boundNames.sublist sub⟩
  · intro name id bound
    exact readable (name, id) ((m.mem_boundNames name id).2 bound)
  · intro name
    rw [List.mem_map]
    constructor
    · intro there
      obtain ⟨⟨name', id, record⟩, there, rfl⟩ := there
      obtain ⟨bound, found⟩ := (members _ _ _).1 there
      exact ⟨id, record, (m.mem_boundNames _ _).1 bound, found⟩
    · intro listed
      obtain ⟨id, record, bound, found⟩ := listed
      exact ⟨(name, id, record), (members _ _ _).2 ⟨(m.mem_boundNames _ _).2 bound, found⟩, rfl⟩

theorem listNamedObjects_isOk {m : MetadataStore} (h : m.Readable) :
    ∃ named, m.listNamedObjects = .ok named := by
  have spec := m.withRecords_spec m.boundNames
  cases result : m.listNamedObjects with
  | ok named => exact ⟨named, rfl⟩
  | error error =>
    rw [listNamedObjects] at result
    rw [result] at spec
    obtain ⟨e, there, error', bad⟩ := spec
    obtain ⟨record, good⟩ := h e.1 e.2 ((m.mem_boundNames _ _).1 there)
    rw [bad] at good
    cases good

end MetadataStore

/-! ## The changes -/

section Changes

variable {tracked : List String} {source : String} {target : Option String}
  {included : String → Bool}

theorem changeOf_fst {name : String} {change : Change}
    (h : changeOf tracked source target included name = some change) : change.1 = name := by
  unfold changeOf at h
  split at h
  · cases h
  · split at h
    · cases h
    · cases h
      rfl

/-- The changes are those of the names, in their order, if no new name is rejected. -/
theorem collectChanges_ok {names : List String} {changes : List Change} :
    collectChanges tracked source target included names = .ok changes ↔
      changes = names.filterMap (changeOf tracked source target included) ∧
        ∀ change ∈ changes, validateChange change = .ok () := by
  induction names generalizing changes with
  | nil =>
    constructor
    · intro h
      cases h
      simp
    · intro h
      rw [h.1]
      rfl
  | cons name rest ih =>
    unfold collectChanges
    cases h : changeOf tracked source target included name with
    | none => simp only [List.filterMap_cons, h, ih]
    | some change =>
      simp only [List.filterMap_cons, h, Result.bind_eq_ok, ih]
      constructor
      · intro result
        obtain ⟨_, valid, changes', ⟨rfl, all⟩, same⟩ := result
        cases same
        refine ⟨rfl, ?_⟩
        intro c hc
        rcases List.mem_cons.1 hc with rfl | hc
        · exact valid
        · exact all c hc
      · intro result
        obtain ⟨rfl, all⟩ := result
        exact ⟨(), all change List.mem_cons_self, _,
          ⟨rfl, fun c hc => all c (List.mem_cons_of_mem _ hc)⟩, rfl⟩

theorem inOrder_changes {names : List String} (h : MetadataStore.InOrder names) :
    (names.filterMap (changeOf tracked source target included)).Pairwise
      fun a b => compare a.1 b.1 = .lt := by
  rw [List.pairwise_filterMap]
  apply h.imp
  intro a b before x hx y hy
  rw [changeOf_fst hx, changeOf_fst hy]
  exact before

end Changes

end OosLite
