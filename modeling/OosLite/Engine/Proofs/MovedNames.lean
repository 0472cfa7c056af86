import OosLite.Metadata.Proofs.Bindings

/-!
# The names after a move

`update_watched_prefix` by what it leaves bound and tracked, and the names that it does not manage:
a move takes the names below its source with it whether they are tracked or not, and a name that is
filtered out or moved onto is lost.
-/

namespace OosLite

/-! ## Where a name goes -/

/-- Two parts of a name, with a slash between them if there is a first one. -/
def joined (first rest : String) : String := if first = "" then rest else first ++ "/" ++ rest

/-- The name is the source or lies below it; below the empty source all names lie. -/
def LiesBelow (source name : String) : Prop :=
  source = "" ∨ name = source ∨ ∃ rest, name = source ++ "/" ++ rest

/-- What lies below the source goes to the same place below the target. -/
inductive Follows (source target : String) : (name new : String) → Prop where
  | itself : Follows source target source target
  | slash : source ≠ "" → Follows source target (source ++ "/") target
  | below {rest : String} : rest ≠ "" → Follows source target (joined source rest) (joined target rest)

section Follows

variable {source target name new suffix : String}

theorem append_slash_ne (source rest : String) : source ++ "/" ++ rest ≠ source := by
  intro same
  have length := congrArg (fun s => s.toList.length) same
  simp at length

theorem suffixOf_eq_some :
    suffixOf source name = some suffix ↔ source = "" ∧ suffix = name ∨
      source ≠ "" ∧ (name = source ∧ suffix = "" ∨ name = source ++ "/" ++ suffix) := by
  unfold suffixOf
  by_cases root : source = ""
  · simp [root, eq_comm]
  · rw [if_neg root]
    by_cases whole : name = source
    · subst whole
      simp [root, (append_slash_ne name suffix).symm, eq_comm]
    · rw [if_neg whole]
      have split : (Text.stripPrefix source name).bind (Text.stripPrefix "/") = some suffix ↔
          name = source ++ "/" ++ suffix := by
        simp only [Option.bind_eq_some_iff, Text.stripPrefix_eq_some, String.append_assoc]
        exact ⟨fun ⟨rest, there, same⟩ => same ▸ there, fun there => ⟨_, there, rfl⟩⟩
      rw [split]
      simp [root, whole]

theorem suffixOf_isSome : (suffixOf source name).isSome ↔ LiesBelow source name := by
  simp only [Option.isSome_iff_exists, suffixOf_eq_some]
  constructor
  · rintro ⟨suffix, ⟨root, -⟩ | ⟨-, ⟨same, -⟩ | same⟩⟩
    · exact .inl root
    · exact .inr (.inl same)
    · exact .inr (.inr ⟨suffix, same⟩)
  · intro below
    by_cases root : source = ""
    · exact ⟨name, .inl ⟨root, rfl⟩⟩
    · rcases below with none | same | ⟨rest, same⟩
      · exact absurd none root
      · exact ⟨"", .inr ⟨root, .inl ⟨same, rfl⟩⟩⟩
      · exact ⟨rest, .inr ⟨root, .inr same⟩⟩

/-- The place is what `suffixOf` and `underPrefix` compute. -/
theorem follows_iff : Follows source target name new ↔
    ∃ suffix, suffixOf source name = some suffix ∧ underPrefix target suffix = new := by
  constructor
  · intro h
    cases h with
    | itself =>
      refine ⟨"", suffixOf_eq_some.2 ?_, if_pos rfl⟩
      by_cases root : source = ""
      · exact .inl ⟨root, root.symm⟩
      · exact .inr ⟨root, .inl ⟨rfl, rfl⟩⟩
    | slash proper => exact ⟨"", suffixOf_eq_some.2 (.inr ⟨proper, .inr (by simp)⟩), if_pos rfl⟩
    | @below rest proper =>
      refine ⟨rest, suffixOf_eq_some.2 ?_, if_neg proper⟩
      unfold joined
      by_cases root : source = ""
      · exact .inl ⟨root, (if_pos root).symm⟩
      · exact .inr ⟨root, .inr (if_neg root)⟩
  · rintro ⟨suffix, rest, rfl⟩
    unfold underPrefix
    by_cases whole : suffix = ""
    · rw [if_pos whole]
      subst whole
      rcases suffixOf_eq_some.1 rest with ⟨rfl, rfl⟩ | ⟨proper, ⟨rfl, -⟩ | same⟩
      · exact .itself
      · exact .itself
      · rw [same, String.append_empty]
        exact .slash proper
    · rw [if_neg whole]
      have at' : name = joined source suffix := by
        unfold joined
        rcases suffixOf_eq_some.1 rest with ⟨root, same⟩ | ⟨proper, ⟨-, none⟩ | same⟩
        · rw [if_pos root, same]
        · exact absurd none whole
        · rw [if_neg proper, same]
      rw [at']
      exact .below whole

end Follows

namespace MetadataStore

section Moves

variable (m : MetadataStore) (root source : String) (target : Option String)
  (included : String → Bool)

/-- A name is moved or, without a new name, unbound. -/
def Moves (name : String) (new : Option String) : Prop :=
  m.Listed name ∧
    changeOf (m.listWatcherFiles root) source target included name = some (name, new)

/-- The object of a name has this name afterwards: nothing moves the name and nothing is moved onto
it, or it is moved and no later name is moved to the same place. -/
def EndsAs (name name' : String) : Prop :=
  (name = name' ∧ (∀ new, ¬ m.Moves root source target included name new) ∧
    ∀ other, ¬ m.Moves root source target included other (some name)) ∨
  (m.Moves root source target included name (some name') ∧
    ∀ later, compare name later = .lt →
      ¬ m.Moves root source target included later (some name'))

/-- A listed name goes to a new name, which the filter accepts. -/
def Brings (name new : String) : Prop :=
  m.Listed name ∧ (∃ t, target = some t ∧ Follows source t name new) ∧ included new = true

/-- A listed name is taken away: it lies below the source and, if there is no target, is tracked. -/
def Leaves (name : String) : Prop :=
  m.Listed name ∧ LiesBelow source name ∧ (target = none → name ∈ m.listWatcherFiles root)

/-- Every new name passes its check. -/
def AllValid : Prop :=
  ∀ name new, m.Brings source target included name new → validateLogicalName new = .ok ()

/-- The tables after `update_watched_prefix`; a call that fails has changed nothing. -/
def afterMove : MetadataStore :=
  match m.updateWatchedPrefix root source target included with
  | .ok (_, m') => m'
  | .error _ => m

end Moves

section Spec

variable {m m' : MetadataStore} {root source : String} {target : Option String}
  {included : String → Bool} {changes : List Change}

theorem changeOf_eq_some {tracked : List String} {name : String} {new : Option String} :
    changeOf tracked source target included name = some (name, new) ↔
      ∃ suffix, suffixOf source name = some suffix ∧ (target = none → name ∈ tracked) ∧
        movedName target included suffix = new := by
  unfold changeOf
  cases suffixOf source name with
  | none => simp
  | some suffix =>
    by_cases held : target = none ∧ name ∉ tracked
    · simp [held.1, held.2]
    · have managed : target = none → name ∈ tracked := fun none => by_contra fun out => held ⟨none, out⟩
      have other : ¬ (target.isNone = true ∧ name ∉ tracked) := by simpa using held
      simp only [if_neg other, Option.some.injEq, Prod.mk.injEq, true_and, exists_eq_left']
      exact ⟨fun same => ⟨managed, same⟩, fun h => h.2⟩

/-- The moves with a new name. -/
theorem moves_some_iff {name new : String} :
    m.Moves root source target included name (some new) ↔ m.Brings source target included name new := by
  unfold Moves Brings
  rw [changeOf_eq_some]
  unfold movedName
  constructor
  · rintro ⟨listed, suffix, rest, -, moved⟩
    rw [Option.filter_eq_some_iff, Option.map_eq_some_iff] at moved
    obtain ⟨⟨t, there, place⟩, accepted⟩ := moved
    exact ⟨listed, ⟨t, there, follows_iff.2 ⟨suffix, rest, place⟩⟩, accepted⟩
  · rintro ⟨listed, ⟨t, rfl, follows⟩, accepted⟩
    obtain ⟨suffix, rest, place⟩ := follows_iff.1 follows
    refine ⟨listed, suffix, rest, nofun, ?_⟩
    rw [Option.filter_eq_some_iff, Option.map_eq_some_iff]
    exact ⟨⟨t, rfl, place⟩, accepted⟩

/-- All moves. -/
theorem exists_moves_iff {name : String} :
    (∃ new, m.Moves root source target included name new) ↔ m.Leaves root source target name := by
  unfold Moves Leaves
  simp only [changeOf_eq_some, ← suffixOf_isSome, Option.isSome_iff_exists]
  constructor
  · rintro ⟨new, listed, suffix, rest, managed, -⟩
    exact ⟨listed, ⟨suffix, rest⟩, managed⟩
  · rintro ⟨listed, ⟨suffix, rest⟩, managed⟩
    exact ⟨_, listed, suffix, rest, managed, rfl⟩

theorem Listed.bound {name : String} (h : m.Listed name) : ∃ value, m.names[name]? = some value := by
  obtain ⟨id, record, bound, found⟩ := h
  unfold resolveName at bound
  obtain ⟨value, there, same⟩ := Option.bind_eq_some_iff.1 bound
  exact ⟨value, there⟩

theorem updateWatchedPrefix_ok
    (h : m.updateWatchedPrefix root source target included = .ok (changes, m')) :
    m.Readable ∧ m.AllValid source target included ∧
      (∀ name new, (name, new) ∈ changes ↔ m.Moves root source target included name new) ∧
      changes.Pairwise (fun a b => compare a.1 b.1 = .lt) ∧
      m' = m.updateWatcherBindings root changes := by
  unfold updateWatchedPrefix at h
  rw [Result.bind_eq_ok] at h
  obtain ⟨named, listing, h⟩ := h
  rw [Result.bind_eq_ok] at h
  obtain ⟨found, collected, same⟩ := h
  cases same
  obtain ⟨readable, listed, ordered⟩ := listNamedObjects_ok listing
  obtain ⟨same, valid⟩ := collectChanges_ok.1 collected
  have members : ∀ name new, (name, new) ∈ changes ↔
      m.Moves root source target included name new := by
    intro name new
    rw [same, List.mem_filterMap]
    constructor
    · intro there
      obtain ⟨name', there, change⟩ := there
      cases changeOf_fst change
      exact ⟨(listed _).1 there, change⟩
    · intro moves
      exact ⟨name, (listed _).2 moves.1, moves.2⟩
  refine ⟨readable, ?_, members, ?_, rfl⟩
  · intro name new moves
    exact valid (name, some new) ((members _ _).2 (moves_some_iff.2 moves))
  · rw [same]
    exact inOrder_changes ordered

theorem updateWatchedPrefix_isOk (readable : m.Readable)
    (valid : m.AllValid source target included) :
    ∃ changes m', m.updateWatchedPrefix root source target included = .ok (changes, m') := by
  obtain ⟨named, listing⟩ := listNamedObjects_isOk readable
  obtain ⟨_, listed, _⟩ := listNamedObjects_ok listing
  have collected : ∃ changes, collectChanges (m.listWatcherFiles root) source target included
      (named.map Prod.fst) = .ok changes := by
    exists (named.map Prod.fst).filterMap
      (changeOf (m.listWatcherFiles root) source target included)
    apply collectChanges_ok.2
    constructor
    · rfl
    · intro change there
      obtain ⟨name, there, same⟩ := List.mem_filterMap.1 there
      unfold validateChange
      cases new : change.2 with
      | none => rfl
      | some new' =>
        apply valid name
        rw [← @moves_some_iff _ root]
        refine ⟨(listed name).1 there, ?_⟩
        rw [same, ← new, ← changeOf_fst same]
  obtain ⟨changes, collected⟩ := collected
  exists changes, m.updateWatcherBindings root changes
  unfold updateWatchedPrefix
  rw [Result.bind_eq_ok]
  refine ⟨named, listing, ?_⟩
  rw [Result.bind_eq_ok]
  exact ⟨changes, collected, rfl⟩

/-- No name is changed twice. -/
theorem nodup_of_ordered (ordered : changes.Pairwise fun a b => compare a.1 b.1 = .lt) :
    (changes.map Prod.fst).Nodup := by
  rw [List.nodup_iff_pairwise_ne, List.pairwise_map]
  apply ordered.imp
  intro a b before same
  rw [compare_eq_iff.2 same] at before
  cases before

/-- Nothing is brought to a name if no change is onto it. -/
theorem lastTo_changes_none (bound : ∀ c ∈ changes, ∃ value, m.names[c.1]? = some value)
    (name : String) :
    lastTo name (changes.flatMap fun c => (m.names[c.1]?.map fun id => (c.2, id)).toList) = none ↔
      ∀ c ∈ changes, c.2 ≠ some name := by
  induction changes with
  | nil => simp [lastTo]
  | cons c rest ih =>
    rw [List.forall_mem_cons] at bound ⊢
    obtain ⟨⟨held, there⟩, bound⟩ := bound
    rw [List.flatMap_cons, there]
    simp only [Option.map_some, Option.toList_some, List.singleton_append]
    unfold lastTo
    rw [Option.or_eq_none_iff, ih bound]
    simp [and_comm]

/-- The object that the last change onto a name brings, when the changes are in order. -/
theorem lastTo_changes (ordered : changes.Pairwise fun a b => compare a.1 b.1 = .lt)
    (bound : ∀ c ∈ changes, ∃ value, m.names[c.1]? = some value) (name : String) (value : Bytes) :
    lastTo name (changes.flatMap fun c => (m.names[c.1]?.map fun id => (c.2, id)).toList) =
        some value ↔
      ∃ c ∈ changes, c.2 = some name ∧ m.names[c.1]? = some value ∧
        ∀ d ∈ changes, compare c.1 d.1 = .lt → d.2 ≠ some name := by
  induction changes with
  | nil => simp [lastTo]
  | cons c rest ih =>
    rw [List.pairwise_cons] at ordered
    rw [List.forall_mem_cons] at bound
    obtain ⟨first, ordered⟩ := ordered
    obtain ⟨⟨held, there⟩, bound⟩ := bound
    have ih := ih ordered bound
    have nothing := lastTo_changes_none bound name
    rw [List.flatMap_cons, there]
    simp only [Option.map_some, Option.toList_some, List.singleton_append]
    unfold lastTo
    constructor
    · intro h
      cases later : lastTo name
          (rest.flatMap fun c => (m.names[c.1]?.map fun id => (c.2, id)).toList) with
      | none =>
        rw [later] at h
        have onto : c.2 = some name ∧ held = value := by simpa using h
        refine ⟨c, List.mem_cons_self, onto.1, onto.2 ▸ there, ?_⟩
        intro d hd before
        rcases List.mem_cons.1 hd with rfl | hd
        · rw [compare_eq_iff.2 rfl] at before
          cases before
        · exact nothing.1 later d hd
      | some found =>
        rw [later] at h
        rw [later] at ih
        obtain ⟨d, hd, onto, same, last⟩ := ih.1 (by simpa using h)
        refine ⟨d, List.mem_cons_of_mem _ hd, onto, same, ?_⟩
        intro e he before
        rcases List.mem_cons.1 he with rfl | he
        · have back := Std.OrientedCmp.gt_of_lt (first d hd)
          rw [before] at back
          cases back
        · exact last e he before
    · intro h
      obtain ⟨d, hd, onto, same, last⟩ := h
      rcases List.mem_cons.1 hd with rfl | hd
      · have alone := nothing.2 fun e he => last e (List.mem_cons_of_mem _ he) (first e he)
        rw [there] at same
        rw [alone, if_pos onto, ← same]
        rfl
      · rw [ih.2 ⟨d, hd, onto, same, fun e he => last e (List.mem_cons_of_mem _ he)⟩]
        rfl

/-- The names after a move. -/
theorem updateWatchedPrefix_resolveName
    (h : m.updateWatchedPrefix root source target included = .ok (changes, m'))
    (name' : String) (id : ObjectId) :
    m'.resolveName name' = some id ↔
      ∃ name, m.resolveName name = some id ∧
        m.EndsAs root source target included name name' := by
  obtain ⟨_, _, members, ordered, same⟩ := updateWatchedPrefix_ok h
  have bound : ∀ c ∈ changes, ∃ value, m.names[c.1]? = some value := by
    intro c hc
    exact ((members c.1 c.2).1 hc).1.bound
  have nodup := nodup_of_ordered ordered
  have after : m'.names[name']? =
      (lastTo name' (changes.flatMap fun c => (m.names[c.1]?.map fun id => (c.2, id)).toList)).or
        (if name' ∈ changes.map Prod.fst then none else m.names[name']?) := by
    rw [same]
    unfold updateWatcherBindings
    rw [setBindings_names, takeBindings_names, takeBindings_moved root m nodup]
  have onto := lastTo_changes ordered bound name'
  have nothing := lastTo_changes_none bound name'
  unfold resolveName
  rw [Option.bind_eq_some_iff]
  constructor
  · intro h
    obtain ⟨value, found, isId⟩ := h
    rw [after] at found
    cases brought : lastTo name'
        (changes.flatMap fun c => (m.names[c.1]?.map fun id => (c.2, id)).toList) with
    | some value' =>
      rw [brought] at found
      obtain ⟨c, hc, new, held, last⟩ := (onto value).1 (by rw [brought]; exact found)
      refine ⟨c.1, Option.bind_eq_some_iff.2 ⟨value, held, isId⟩, .inr ⟨?_, ?_⟩⟩
      · rw [← new]
        exact (members c.1 c.2).1 hc
      · intro later before moves
        exact last (later, some name') ((members _ _).2 moves) before rfl
    | none =>
      rw [brought, Option.none_or] at found
      split at found
      · cases found
      · rename_i stays
        refine ⟨name', Option.bind_eq_some_iff.2 ⟨value, found, isId⟩, .inl ⟨rfl, ?_, ?_⟩⟩
        · intro new moves
          exact stays (List.mem_map_of_mem ((members _ _).2 moves))
        · intro other moves
          exact nothing.1 brought (other, some name') ((members _ _).2 moves) rfl
  · intro h
    obtain ⟨name, held, ends⟩ := h
    obtain ⟨value, held, isId⟩ := Option.bind_eq_some_iff.1 held
    refine ⟨value, ?_, isId⟩
    rw [after]
    rcases ends with ⟨rfl, stays, clear⟩ | ⟨moves, last⟩
    · have brought := nothing.2 (by
        intro c hc new
        exact clear c.1 ((members _ _).1 (new ▸ hc)))
      rw [brought, Option.none_or, if_neg, held]
      intro there
      obtain ⟨c, hc, rfl⟩ := List.mem_map.1 there
      exact stays c.2 ((members _ _).1 hc)
    · rw [(onto value).2 ⟨(name, some name'), (members _ _).2 moves, rfl, held, ?_⟩, Option.some_or]
      intro d hd before new
      exact last d.1 before ((members _ _).1 (new ▸ hd))

/-- The tracked files after a move. -/
theorem updateWatchedPrefix_listWatcherFiles
    (h : m.updateWatchedPrefix root source target included = .ok (changes, m'))
    (name' : String) :
    name' ∈ m'.listWatcherFiles root ↔
      (∃ name, m.Moves root source target included name (some name')) ∨
        name' ∈ m.listWatcherFiles root ∧
          ∀ new, ¬ m.Moves root source target included name' new := by
  obtain ⟨_, _, members, ordered, same⟩ := updateWatchedPrefix_ok h
  rw [mem_listWatcherFiles, mem_listWatcherFiles, same]
  unfold updateWatcherBindings
  rw [setBindings_watcherFiles, takeBindings_moved root m (nodup_of_ordered ordered),
    ← Std.ExtTreeMap.isSome_getElem?_eq_contains, takeBindings_watcherFiles,
    ← Std.ExtTreeMap.isSome_getElem?_eq_contains]
  have brought : (∃ new id, (some new, id) ∈
      (changes.flatMap fun c => (m.names[c.1]?.map fun id => (c.2, id)).toList) ∧
        watcherFileKey root name' = watcherFileKey root new) ↔
      ∃ name, m.Moves root source target included name (some name') := by
    constructor
    · intro h
      obtain ⟨new, id, there, key⟩ := h
      rw [watcherFileKey_inj] at key
      subst key
      obtain ⟨c, hc, there⟩ := List.mem_flatMap.1 there
      have new : c.2 = some name' := by
        cases held : m.names[c.1]? <;> simp_all
      exact ⟨c.1, (members _ _).1 (new ▸ hc)⟩
    · intro h
      obtain ⟨name, moves⟩ := h
      obtain ⟨value, held⟩ := moves.1.bound
      refine ⟨name', value, List.mem_flatMap.2 ⟨(name, some name'), (members _ _).2 moves, ?_⟩, rfl⟩
      simp [held]
  have taken : watcherFileKey root name' ∈ changes.map (fun c => watcherFileKey root c.1) ↔
      ∃ new, m.Moves root source target included name' new := by
    rw [List.mem_map]
    constructor
    · intro h
      obtain ⟨c, hc, key⟩ := h
      rw [watcherFileKey_inj] at key
      exact ⟨c.2, (members _ _).1 (key ▸ hc)⟩
    · intro h
      obtain ⟨new, moves⟩ := h
      exact ⟨(name', new), (members _ _).2 moves, rfl⟩
  rw [brought]
  apply or_congr Iff.rfl
  by_cases moved : ∃ new, m.Moves root source target included name' new
  · rw [if_pos (taken.2 moved)]
    simpa using fun _ => moved
  · rw [if_neg (mt taken.1 moved)]
    simpa using fun _ => not_exists.1 moved

end Spec

/-! ## The names that are not tracked -/

section Unmanaged

variable (m : MetadataStore) (root source : String) (target : Option String)
  (included : String → Bool)

/-- An object that is bound under a name that is not tracked. -/
def Unmanaged (id : ObjectId) : Prop :=
  ∃ name, m.resolveName name = some id ∧ name ∉ m.listWatcherFiles root

/-- Every such object is still bound to some name after the move. -/
def KeepsUnmanaged : Prop :=
  ∀ id, m.Unmanaged root id →
    ∃ name, (m.afterMove root source target included).resolveName name = some id

/-- The call is rejected, before it changes anything. -/
def Rejected : Prop := ¬ m.Readable ∨ ¬ m.AllValid source target included

/-- The name keeps its object bound: nothing takes the name away or brings another object onto it, or
its object is brought to a new name and no later name to the same. -/
def KeepsObject (name : String) : Prop :=
  (¬ m.Leaves root source target name ∧ ∀ other, ¬ m.Brings source target included other name) ∨
  ∃ new, m.Brings source target included name new ∧
    ∀ later, compare name later = .lt → ¬ m.Brings source target included later new

theorem exists_endsAs_iff {name : String} : (∃ name', m.EndsAs root source target included name name') ↔
    m.KeepsObject root source target included name := by
  unfold EndsAs KeepsObject
  simp only [moves_some_iff]
  constructor
  · rintro ⟨name', ⟨rfl, stays, clear⟩ | ⟨brought, last⟩⟩
    · exact .inl ⟨fun leaves => (exists_moves_iff.2 leaves).elim stays, clear⟩
    · exact .inr ⟨name', brought, last⟩
  · rintro (⟨stays, clear⟩ | ⟨new, brought, last⟩)
    · exact ⟨name, .inl ⟨rfl, fun new moves => stays (exists_moves_iff.1 ⟨new, moves⟩), clear⟩⟩
    · exact ⟨new, .inr ⟨brought, last⟩⟩

theorem afterMove_of_rejected (h : m.Rejected source target included) :
    m.afterMove root source target included = m := by
  unfold afterMove
  cases result : m.updateWatchedPrefix root source target included with
  | error e => rfl
  | ok found =>
    obtain ⟨changes, moved⟩ := found
    obtain ⟨readable, valid, _⟩ := updateWatchedPrefix_ok result
    rcases h with h | h
    · exact absurd readable h
    · exact absurd valid h

theorem afterMove_resolveName (h : ¬ m.Rejected source target included)
    (name' : String) (id : ObjectId) :
    (m.afterMove root source target included).resolveName name' = some id ↔
      ∃ name, m.resolveName name = some id ∧
        m.EndsAs root source target included name name' := by
  unfold Rejected at h
  rw [not_or, not_not, not_not] at h
  obtain ⟨changes, m', result⟩ := updateWatchedPrefix_isOk h.1 h.2
  unfold afterMove
  rw [result]
  exact updateWatchedPrefix_resolveName result name' id

theorem afterMove_listWatcherFiles (h : ¬ m.Rejected source target included)
    (name' : String) :
    name' ∈ (m.afterMove root source target included).listWatcherFiles root ↔
      (∃ name, m.Moves root source target included name (some name')) ∨
        name' ∈ m.listWatcherFiles root ∧
          ∀ new, ¬ m.Moves root source target included name' new := by
  unfold Rejected at h
  rw [not_or, not_not, not_not] at h
  obtain ⟨changes, m', result⟩ := updateWatchedPrefix_isOk h.1 h.2
  unfold afterMove
  rw [result]
  exact updateWatchedPrefix_listWatcherFiles result name'

theorem afterMove_objects : (m.afterMove root source target included).objects = m.objects := by
  unfold afterMove
  cases result : m.updateWatchedPrefix root source target included with
  | error e => rfl
  | ok found =>
    obtain ⟨changes, m'⟩ := found
    obtain ⟨_, _, _, _, same⟩ := updateWatchedPrefix_ok result
    subst same
    exact updateWatcherBindings_objects root m changes

/-- The unmanaged objects keep a name exactly if the call is rejected or every one of them has a
name that keeps it bound; without a target they always do. -/
theorem keepsUnmanaged_iff :
    (m.KeepsUnmanaged root source target included ↔ m.Rejected source target included ∨
      ∀ id, m.Unmanaged root id →
        ∃ name, m.resolveName name = some id ∧ m.KeepsObject root source target included name) ∧
    m.KeepsUnmanaged root source none included := by
  have exact (target : Option String) : m.KeepsUnmanaged root source target included ↔
      m.Rejected source target included ∨ ∀ id, m.Unmanaged root id →
        ∃ name, m.resolveName name = some id ∧ m.KeepsObject root source target included name := by
    unfold KeepsUnmanaged
    by_cases rejected : m.Rejected source target included
    · rw [afterMove_of_rejected m root source target included rejected]
      constructor
      · exact fun _ => .inl rejected
      · intro _ id ⟨name, bound, _⟩
        exact ⟨name, bound⟩
    · rw [or_iff_right rejected]
      apply forall₂_congr
      intro id _
      simp only [afterMove_resolveName m root source target included rejected, ← exists_endsAs_iff]
      constructor
      · rintro ⟨name', name, bound, ends⟩
        exact ⟨name, bound, name', ends⟩
      · rintro ⟨name, bound, name', ends⟩
        exact ⟨name', name, bound, ends⟩
  refine ⟨exact target, (exact none).2 (.inr ?_)⟩
  -- the untracked name is not taken away, and nothing is brought anywhere
  rintro id ⟨name, bound, untracked⟩
  refine ⟨name, bound, .inl ⟨fun leaves => untracked (leaves.2.2 rfl), ?_⟩⟩
  rintro other ⟨-, ⟨t, none, -⟩, -⟩
  cases none

end Unmanaged

/-! ## Names that are gone -/

section Unbinding

variable (m : MetadataStore) (root source : String) (included : String → Bool)

/-- A name that goes when everything at and below a source is unbound. -/
def Goes (name : String) : Prop :=
  m.Listed name ∧ name ∈ m.listWatcherFiles root ∧ (suffixOf source name).isSome

theorem moves_none_iff (name : String) (new : Option String) :
    m.Moves root source none included name new ↔ m.Goes root source name ∧ new = none := by
  unfold Moves Goes
  rw [changeOf_eq_some, Option.isSome_iff_exists]
  constructor
  · rintro ⟨listed, suffix, rest, managed, rfl⟩
    exact ⟨⟨listed, managed rfl, suffix, rest⟩, rfl⟩
  · rintro ⟨⟨listed, tracked, suffix, rest⟩, rfl⟩
    exact ⟨listed, suffix, rest, fun _ => tracked, rfl⟩

theorem rejected_none_iff : m.Rejected source none included ↔ ¬ m.Readable := by
  unfold Rejected
  apply or_iff_left
  rw [not_not]
  rintro name new ⟨-, ⟨t, none, -⟩, -⟩
  cases none

variable {m} (readable : m.Readable)

include readable

theorem unbound_resolveName (name : String) (id : ObjectId) :
    (m.afterMove root source none included).resolveName name = some id ↔
      m.resolveName name = some id ∧ ¬ m.Goes root source name := by
  have accepted : ¬ m.Rejected source none included := by
    rw [rejected_none_iff]
    exact not_not_intro readable
  rw [afterMove_resolveName m root source none included accepted]
  constructor
  · intro h
    obtain ⟨name', bound, ends⟩ := h
    rcases ends with ⟨rfl, stays, _⟩ | ⟨moves, _⟩
    · refine ⟨bound, ?_⟩
      intro goes
      exact stays none ((moves_none_iff _ _ _ _ _ _).2 ⟨goes, rfl⟩)
    · cases ((moves_none_iff _ _ _ _ _ _).1 moves).2
  · intro h
    refine ⟨name, h.1, .inl ⟨rfl, ?_, ?_⟩⟩
    · intro new moves
      exact h.2 ((moves_none_iff _ _ _ _ _ _).1 moves).1
    · intro other moves
      cases ((moves_none_iff _ _ _ _ _ _).1 moves).2

theorem unbound_listWatcherFiles (name : String) :
    name ∈ (m.afterMove root source none included).listWatcherFiles root ↔
      name ∈ m.listWatcherFiles root ∧ ¬ m.Goes root source name := by
  have accepted : ¬ m.Rejected source none included := by
    rw [rejected_none_iff]
    exact not_not_intro readable
  rw [afterMove_listWatcherFiles m root source none included accepted]
  constructor
  · intro h
    rcases h with ⟨other, moves⟩ | ⟨tracked, stays⟩
    · cases ((moves_none_iff _ _ _ _ _ _).1 moves).2
    · refine ⟨tracked, ?_⟩
      intro goes
      exact stays none ((moves_none_iff _ _ _ _ _ _).2 ⟨goes, rfl⟩)
  · intro h
    refine .inr ⟨h.1, ?_⟩
    intro new moves
    exact h.2 ((moves_none_iff _ _ _ _ _ _).1 moves).1

theorem unbound_listed (name : String) :
    (m.afterMove root source none included).Listed name ↔
      m.Listed name ∧ ¬ m.Goes root source name := by
  have same : ∀ id, (m.afterMove root source none included).getObject id = m.getObject id := by
    intro id
    unfold getObject
    rw [afterMove_objects]
  unfold Listed
  simp only [unbound_resolveName root source included readable, same]
  constructor
  · intro h
    obtain ⟨id, record, ⟨bound, stays⟩, found⟩ := h
    exact ⟨⟨id, record, bound, found⟩, stays⟩
  · intro h
    obtain ⟨⟨id, record, bound, found⟩, stays⟩ := h
    exact ⟨id, record, ⟨bound, stays⟩, found⟩

theorem unbound_readable : (m.afterMove root source none included).Readable := by
  intro name id bound
  obtain ⟨record, found⟩ :=
    readable name id ((unbound_resolveName root source included readable name id).1 bound).1
  refine ⟨record, ?_⟩
  unfold getObject at found ⊢
  rw [afterMove_objects]
  exact found

end Unbinding

end MetadataStore

/-! ## A move that takes a name away -/

namespace NameSample

/-- A file that was stored by hand, below a watched directory. -/
def byHand : MetadataStore :=
  let id : ObjectId := FixedBytes.ofBytes 16 []
  (MetadataStore.empty.putObject ⟨id, 1, [⟨1, "", 0, 0⟩]⟩).bindName "docs/a.tmp" id

/-- No temporary files. -/
def rules (name : String) : Bool := !(".tmp".toList.isSuffixOf name.toList)

end NameSample

/-- The directory is renamed and the name that it takes with it is filtered out. -/
theorem filtered_name_is_lost :
    ¬ NameSample.byHand.KeepsUnmanaged "/watched" "docs" (some "old") NameSample.rules := by
  intro keeps
  have gone : (NameSample.byHand.afterMove "/watched" "docs" (some "old")
      NameSample.rules).names.isEmpty = true := by decide +kernel
  have untracked : NameSample.byHand.listWatcherFiles "/watched" = [] := by decide +kernel
  have bound : NameSample.byHand.resolveName "docs/a.tmp" = some (FixedBytes.ofBytes 16 []) := by
    decide +kernel
  obtain ⟨name, there⟩ := keeps _ ⟨"docs/a.tmp", bound, by simp [untracked]⟩
  unfold MetadataStore.resolveName at there
  rw [Std.ExtTreeMap.isEmpty_iff.1 gone, Std.ExtTreeMap.getElem?_empty] at there
  cases there

end OosLite
