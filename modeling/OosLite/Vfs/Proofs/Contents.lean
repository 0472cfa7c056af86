import OosLite.Vfs.Proofs.Layout

/-!
# What a built tree shows

The files and links that the names, versions and snapshots of a store stand for, by their paths; and
that a built tree has these leaves and the directories on the way to them.
-/

namespace OosLite

open VfsNodes

/-- A file below a directory, unless its name has no parts. -/
def fileLeaf (place parts : List String) (manifestId : String) (size : UInt64) : Option Leaf :=
  if parts = [] then none else some ⟨place ++ parts, .regularFile, size, some manifestId⟩

theorem fileLeaf_eq_some {place parts : List String} {manifestId : String} {size : UInt64}
    {leaf : Leaf} (h : fileLeaf place parts manifestId size = some leaf) :
    parts ≠ [] ∧ leaf = ⟨place ++ parts, .regularFile, size, some manifestId⟩ ∧
      leaf.path.dropLast = place ++ parts.dropLast := by
  unfold fileLeaf at h
  by_cases none : parts = []
  · rw [if_pos none] at h
    cases h
  · rw [if_neg none] at h
    cases h
    exact ⟨none, rfl, List.dropLast_append_of_ne_nil none⟩

/-- The file of a name below `/current`. -/
def currentLeaf (named : String × ObjectId × ObjectRecord) : Option Leaf :=
  named.2.2.latest.bind fun v => fileLeaf ["current"] (nameParts named.1) v.manifestId v.sizeBytes

/-- The file of an entry below its snapshot. -/
def entryLeaf (label : String) (entry : SnapshotEntry) : Option Leaf :=
  fileLeaf ["snapshots", label] (nameParts entry.name) entry.manifestId entry.sizeBytes

def versionLeaf (place : List String) (leafFile : String) (v : ObjectVersion) : Leaf :=
  ⟨place ++ [leafFile ++ "@v" ++ toString v.version], .regularFile, v.sizeBytes, some v.manifestId⟩

/-- The link to the highest version, if that is not 0. -/
def latestLeaf (place : List String) (leafFile : String) (versions : List ObjectVersion) :
    List Leaf :=
  if latestVer versions > 0 then
    [⟨place ++ [leafFile ++ "@latest"], .symlink,
      UInt64.ofNat (Text.utf8 (leafFile ++ "@v" ++ toString (latestVer versions))).length, none⟩]
  else []

/-- The files and the link of a name below `/history`. -/
def historyLeaves (named : String × ObjectId × ObjectRecord) : List Leaf :=
  match (nameParts named.1).getLast? with
  | none => []
  | some leafFile =>
    let place := "history" :: (nameParts named.1).dropLast
    named.2.2.versions.map (versionLeaf place leafFile) ++
      latestLeaf place leafFile named.2.2.versions

/-- The directory of a name below `/history`. -/
def historyDir (named : String × ObjectId × ObjectRecord) : Option (List String) :=
  if nameParts named.1 = [] then none else some ("history" :: (nameParts named.1).dropLast)

def Leaf.dir (leaf : Leaf) : List String := leaf.path.dropLast

def snapshotLeaves (snap : Snapshot) : List Leaf := snap.entries.filterMap (entryLeaf snap.label)

def snapshotDirs (snap : Snapshot) : List (List String) :=
  ["snapshots", snap.label] :: (snapshotLeaves snap).map Leaf.dir

/-- The leaves of the tree of a store. -/
def MetadataStore.leaves (env : Env) (m : MetadataStore) : List Leaf :=
  m.shownObjects.filterMap currentLeaf ++ (m.shownSnapshots env).flatMap snapshotLeaves ++
    m.shownObjects.flatMap historyLeaves

/-- The directories of the tree, up to those that lie on the way to others. -/
def MetadataStore.directories (env : Env) (m : MetadataStore) : List (List String) :=
  [["current"], ["snapshots"], ["history"]] ++
    (m.shownObjects.filterMap currentLeaf).map Leaf.dir ++
    (m.shownSnapshots env).flatMap snapshotDirs ++ m.shownObjects.filterMap historyDir

namespace VfsNodes

/-! ## Steps of the construction -/

/-- A step that adds these leaves, in these directories. -/
def Adds (t t' : VfsNodes) (newLeaves : List Leaf) (newDirs : List (List String)) : Prop :=
  ∀ leaves dirs, t.Built leaves dirs →
    t.Extends t' ∧ t'.Built (leaves ++ newLeaves) (dirs ++ newDirs)

section Steps

variable {t t' t'' : VfsNodes} {leaves leaves' : List Leaf} {dirs dirs' : List (List String)}
  {ino : Nat} {place : List String}

theorem Adds.refl (t : VfsNodes) : t.Adds t [] [] := by
  intro leaves dirs h
  rw [List.append_nil, List.append_nil]
  exact ⟨.refl t, h⟩

theorem Adds.trans (h : t.Adds t' leaves dirs) (h' : t'.Adds t'' leaves' dirs') :
    t.Adds t'' (leaves ++ leaves') (dirs ++ dirs') := by
  intro before above built
  obtain ⟨ext, built⟩ := h before above built
  obtain ⟨ext', built⟩ := h' _ _ built
  rw [List.append_assoc, List.append_assoc] at built
  exact ⟨ext.trans ext', built⟩

/-- A loop in a directory adds what its rounds add. -/
theorem adds_foldl {α : Type} {step : VfsNodes → α → VfsNodes} {f : α → List Leaf}
    {g : α → List (List String)}
    (h : ∀ (t : VfsNodes) x, t.DirAt ino place → t.Adds (step t x) (f x) (g x)) (dir : t.DirAt ino place)
    (xs : List α) : t.Adds (xs.foldl step t) (xs.flatMap f) (xs.flatMap g) := by
  induction xs generalizing t with
  | nil => exact .refl t
  | cons x xs ih =>
    intro leaves dirs built
    have first := h t x dir
    have next := (first leaves dirs built).1
    exact first.trans (ih (dir.extends next)) leaves dirs built

theorem adds_insertPath (dir : t.DirAt ino place) (parts : List String) (manifestId : String)
    (size mtime : UInt64) :
    t.Adds (t.insertPath ino parts manifestId size mtime)
      (fileLeaf place parts manifestId size).toList
      ((fileLeaf place parts manifestId size).toList.map Leaf.dir) := by
  intro leaves dirs built
  unfold insertPath fileLeaf
  rcases List.eq_nil_or_concat parts with rfl | ⟨above, fileName, rfl⟩
  · exact Adds.refl t leaves dirs built
  rw [List.concat_eq_append, List.getLast?_concat, List.dropLast_concat, if_neg (by simp)]
  have made := built.ensureDirPath dir above mtime
  have n := node_regularFile fileName manifestId size mtime
  have added := made.built.addLeaf made.dir n (by decide)
    ⟨place ++ above ++ [fileName], .regularFile, size, some manifestId⟩ rfl rfl (fun _ _ => rfl)
    fun _ _ => rfl
  refine ⟨made.ext.trans (extends_add made.built.sound.toLinked made.dir), ?_⟩
  simpa [Leaf.dir, ← List.append_assoc] using added

theorem adds_addCurrent (dir : t.DirAt currentInode ["current"])
    (named : String × ObjectId × ObjectRecord) :
    t.Adds (t.addCurrent named) (currentLeaf named).toList
      ((currentLeaf named).toList.map Leaf.dir) := by
  unfold addCurrent currentLeaf
  cases named.2.2.latest with
  | none => exact .refl t
  | some v => exact adds_insertPath dir _ _ _ _

theorem adds_addVersion (dir : t.DirAt ino place) (leafFile : String) (v : ObjectVersion) :
    t.Adds (t.addVersion ino leafFile v) [versionLeaf place leafFile v] [] := by
  intro leaves dirs built
  rw [List.append_nil]
  refine ⟨extends_add built.sound.toLinked dir, ?_⟩
  exact built.addLeaf dir (node_regularFile _ _ _ _) (by decide) _ rfl rfl (fun _ _ => rfl)
    fun _ _ => rfl

theorem adds_addHistory (dir : t.DirAt historyInode ["history"]) (now : UInt64)
    (named : String × ObjectId × ObjectRecord) :
    t.Adds (t.addHistory now named) (historyLeaves named) (historyDir named).toList := by
  intro leaves dirs built
  unfold addHistory historyLeaves historyDir
  rcases List.eq_nil_or_concat (nameParts named.1) with none | ⟨above, leafFile, parts⟩
  · rw [none]
    exact Adds.refl t leaves dirs built
  rw [parts, List.concat_eq_append, List.getLast?_concat, List.dropLast_concat, if_neg (by simp)]
  have made := built.ensureDirPath dir above now
  simp only
  have versions := adds_foldl (fun t v there => adds_addVersion there leafFile v) made.dir
    named.2.2.versions
  obtain ⟨ext, filled⟩ := versions _ _ made.built
  have dir' := made.dir.extends ext
  have all : named.2.2.versions.flatMap (fun v => [versionLeaf ("history" :: above) leafFile v]) =
      named.2.2.versions.map (versionLeaf ("history" :: above) leafFile) := List.flatMap_pure_eq_map _ _
  have none : named.2.2.versions.flatMap (fun _ => ([] : List (List String))) = [] := by simp
  rw [List.singleton_append, all, none, List.append_nil] at filled
  unfold latestLeaf
  by_cases positive : latestVer named.2.2.versions > 0
  · rw [if_pos positive, if_pos positive]
    refine ⟨made.ext.trans (ext.trans (extends_add filled.sound.toLinked dir')), ?_⟩
    rw [← List.append_assoc]
    exact filled.addLeaf dir' (node_symlink _ _ _) (by decide) _ rfl rfl (fun _ _ => rfl)
      fun _ _ => rfl
  · rw [if_neg positive, if_neg positive, List.append_nil]
    exact ⟨made.ext.trans ext, filled⟩

/-- A snapshot goes into a directory of its own, which must not be there. -/
theorem built_addSnapshot (built : t.Built leaves dirs)
    (dir : t.DirAt snapshotsInode ["snapshots"]) (snap : Snapshot)
    (free : ∀ d ∈ dirs, ¬ ["snapshots", snap.label] <+: d) :
    t.Extends (t.addSnapshot snap) ∧
      (t.addSnapshot snap).Built (leaves ++ snapshotLeaves snap) (dirs ++ snapshotDirs snap) := by
  have n := node_directory snap.label snap.createdAt
  have free' : ¬ t.IsDir (["snapshots"] ++ [snap.label]) := by
    obtain ⟨shown, -, -, isDir⟩ := built
    rw [isDir]
    intro there
    obtain ⟨d, member, front⟩ := there
    exact free d member front
  have first := built.addDir dir n free'
  have new := at_add built.sound.toLinked dir n
  have there : (t.add snapshotsInode (.directory snap.label snap.createdAt)).2.DirAt t.nextIno
      ["snapshots", snap.label] := ⟨_, new.1, rfl, new.2⟩
  have entries := adds_foldl (fun t (entry : SnapshotEntry) dir =>
    adds_insertPath (t := t) dir (nameParts entry.name) entry.manifestId entry.sizeBytes
      snap.createdAt) there snap.entries
  obtain ⟨ext, filled⟩ := entries _ _ first
  refine ⟨(extends_add built.sound.toLinked dir).trans ext, ?_⟩
  have all : snapshotLeaves snap = snap.entries.flatMap fun entry => (entryLeaf snap.label entry).toList := by
    rw [snapshotLeaves, List.filterMap_eq_flatMap_toList]
  have above : snapshotDirs snap = [["snapshots"] ++ [snap.label]] ++ snap.entries.flatMap fun entry =>
      (entryLeaf snap.label entry).toList.map Leaf.dir := by
    rw [snapshotDirs, all, List.map_flatMap]
    rfl
  rw [all, above, ← List.append_assoc]
  exact filled

theorem not_prefix_snapshotDirs {snap : Snapshot} {label : String} (other : label ≠ snap.label) :
    ∀ d ∈ snapshotDirs snap, ¬ ["snapshots", label] <+: d := by
  have below (rest : List String) : ¬ ["snapshots", label] <+: "snapshots" :: snap.label :: rest := by
    rw [List.cons_prefix_cons, List.cons_prefix_cons]
    exact fun front => other front.2.1
  intro d member
  rcases List.mem_cons.1 member with rfl | member
  · exact below []
  · obtain ⟨leaf, there, rfl⟩ := List.mem_map.1 member
    obtain ⟨entry, -, there⟩ := List.mem_filterMap.1 there
    rw [Leaf.dir, (fileLeaf_eq_some there).2.2]
    exact below _

/-- Snapshots whose labels differ get directories that differ. -/
theorem built_addSnapshots {snaps : List Snapshot} (built : t.Built leaves dirs)
    (dir : t.DirAt snapshotsInode ["snapshots"]) (labels : (snaps.map Snapshot.label).Nodup)
    (free : ∀ snap ∈ snaps, ∀ d ∈ dirs, ¬ ["snapshots", snap.label] <+: d) :
    t.Extends (snaps.foldl addSnapshot t) ∧
      (snaps.foldl addSnapshot t).Built (leaves ++ snaps.flatMap snapshotLeaves)
        (dirs ++ snaps.flatMap snapshotDirs) := by
  induction snaps generalizing t leaves dirs with
  | nil =>
    rw [List.flatMap_nil, List.flatMap_nil, List.append_nil, List.append_nil]
    exact ⟨.refl t, built⟩
  | cons snap snaps ih =>
    obtain ⟨new, labels⟩ := List.nodup_cons.1 labels
    obtain ⟨ext, first⟩ := built_addSnapshot built dir snap (free snap List.mem_cons_self)
    have free' : ∀ snap' ∈ snaps, ∀ d ∈ dirs ++ snapshotDirs snap,
        ¬ ["snapshots", snap'.label] <+: d := by
      intro snap' member d there
      rcases List.mem_append.1 there with there | there
      · exact free snap' (List.mem_cons_of_mem _ member) d there
      · apply not_prefix_snapshotDirs _ d there
        intro same
        exact new (same ▸ List.mem_map.2 ⟨snap', member, rfl⟩)
    obtain ⟨ext', rest⟩ := ih first (dir.extends ext) labels free'
    rw [List.append_assoc, List.append_assoc] at rest
    exact ⟨ext.trans ext', rest⟩

end Steps

/-! ## The whole tree -/

section Build

variable {env : Env} {m : MetadataStore}

/-- The tree that has nothing but its root. -/
def rootOnly (now : UInt64) : VfsNodes :=
  ⟨(∅ : Std.ExtTreeMap Nat VfsNode).insert rootInode (.directory "/" now rootInode rootInode), 2⟩

theorem getNode_rootOnly (now : UInt64) (ino : Nat) : (rootOnly now).getNode ino =
    if ino = rootInode then some (.directory "/" now rootInode rootInode) else none := by
  unfold getNode rootOnly
  simp only [Std.ExtTreeMap.getElem?_insert, Std.LawfulEqCmp.compare_eq_iff_eq, eq_comm (a := ino)]
  rfl

theorem built_rootOnly (now : UInt64) : (rootOnly now).Built [] [[]] := by
  have only {ino : Nat} {node : VfsNode} (found : (rootOnly now).getNode ino = some node) :
      ino = rootInode ∧ node = .directory "/" now rootInode rootInode := by
    rw [getNode_rootOnly] at found
    by_cases root : ino = rootInode
    · rw [if_pos root] at found
      exact ⟨root, (Option.some.inj found).symm⟩
    · rw [if_neg root] at found
      cases found
  have root : (rootOnly now).DirAt rootInode [] := ⟨_, by rw [getNode_rootOnly, if_pos rfl], rfl, .root⟩
  have dirs {ino : Nat} {place : List String} (there : (rootOnly now).DirAt ino place) :
      ino = rootInode ∧ place = [] := by
    obtain ⟨node, found, -, there⟩ := there
    obtain ⟨rfl, -⟩ := only found
    exact ⟨rfl, there.unique .root⟩
  refine ⟨[], rfl, ⟨⟨⟨?_, ?_, root, ?_, ?_, ?_, ?_⟩, ?_⟩, List.nodup_nil, ?_, ?_⟩, fun q => ?_⟩
  · intro ino node found
    obtain ⟨rfl, rfl⟩ := only found
    exact Nat.lt_succ_self _
  · intro ino node found
    obtain ⟨rfl, rfl⟩ := only found
    rfl
  · intro ino node found
    obtain ⟨rfl, rfl⟩ := only found
    exact ⟨[], .root⟩
  · intro ino node found c member
    obtain ⟨rfl, rfl⟩ := only found
    exact absurd member List.not_mem_nil
  · intro c child found other
    exact absurd (only found).1 other
  · intro ino node found
    obtain ⟨rfl, rfl⟩ := only found
    exact List.nodup_nil
  · intro ino ino' place first second
    rw [(dirs first).1, (dirs second).1]
  · exact fun e member => absurd member List.not_mem_nil
  · intro ino node found other
    obtain ⟨rfl, rfl⟩ := only found
    exact absurd rfl other
  · constructor
    · intro there
      obtain ⟨ino, there⟩ := there
      exact ⟨[], List.mem_singleton_self _, by rw [(dirs there).2]⟩
    · intro there
      obtain ⟨d, member, front⟩ := there
      rw [List.mem_singleton.1 member, List.prefix_nil] at front
      exact ⟨rootInode, front ▸ root⟩

/-- The three directories of the root are added to it. -/
theorem initial_eq (now : UInt64) : initial now =
    ((((rootOnly now).add rootInode (.directory "current" now)).2.add rootInode
      (.directory "snapshots" now)).2.add rootInode (.directory "history" now)).2 := by
  with_unfolding_all rfl

/-- A directory added to a root that has none of its name. -/
theorem built_addRoot {t : VfsNodes} {dirs : List (List String)} (built : t.Built [] dirs)
    (name : String) (now : UInt64) (free : ∀ d ∈ dirs, ¬ [name] <+: d) :
    t.Extends (t.add rootInode (.directory name now)).2 ∧
      (t.add rootInode (.directory name now)).2.Built [] (dirs ++ [[name]]) ∧
      (t.add rootInode (.directory name now)).2.DirAt t.nextIno [name] := by
  have root := built.sound.root
  have n := node_directory name now
  have new := at_add built.sound.toLinked root n
  have free' : ¬ t.IsDir ([] ++ [name]) := by
    obtain ⟨shown, -, -, isDir⟩ := built
    rw [isDir]
    intro there
    obtain ⟨d, member, front⟩ := there
    exact free d member front
  exact ⟨extends_add built.sound.toLinked root, built.addDir root n free', _, new.1, rfl, new.2⟩

/-- What a tree begins with. -/
theorem built_initial (now : UInt64) :
    (initial now).Built [] [["current"], ["snapshots"], ["history"]] ∧
      (initial now).DirAt currentInode ["current"] ∧
      (initial now).DirAt snapshotsInode ["snapshots"] ∧
      (initial now).DirAt historyInode ["history"] := by
  obtain ⟨ext₁, built₁, dir₁⟩ := built_addRoot (built_rootOnly now) "current" now (by decide)
  obtain ⟨ext₂, built₂, dir₂⟩ := built_addRoot built₁ "snapshots" now (by decide)
  obtain ⟨ext₃, built₃, dir₃⟩ := built_addRoot built₂ "history" now (by decide)
  rw [initial_eq]
  refine ⟨built₃.congr fun q => ?_, (dir₁.extends ext₂).extends ext₃, dir₂.extends ext₃, dir₃⟩
  constructor
  · intro there
    obtain ⟨d, member, front⟩ := there
    rcases List.mem_cons.1 member with rfl | member
    · rw [List.prefix_nil.1 front]
      exact ⟨["current"], by simp, List.nil_prefix⟩
    · exact ⟨d, member, front⟩
  · intro there
    obtain ⟨d, member, front⟩ := there
    exact ⟨d, List.mem_cons_of_mem _ member, front⟩

/-- A built tree has the leaves and the directories of its store. -/
theorem built_build (now : UInt64) (labels : ((m.shownSnapshots env).map Snapshot.label).Nodup) :
    (build env m now).Built (m.leaves env) (m.directories env) := by
  obtain ⟨built, current, snapshots, history⟩ := built_initial now
  have step₁ := adds_foldl (fun t named dir => adds_addCurrent (t := t) dir named) current
    m.shownObjects
  obtain ⟨ext₁, built₁⟩ := step₁ _ _ built
  have free : ∀ snap ∈ m.shownSnapshots env, ∀ d ∈ [["current"], ["snapshots"], ["history"]] ++
      m.shownObjects.flatMap (fun named => (currentLeaf named).toList.map Leaf.dir),
      ¬ ["snapshots", snap.label] <+: d := by
    intro snap _ d there front
    have first : "snapshots" = d.head?.getD "" := by
      obtain ⟨rest, rfl⟩ := front
      rfl
    rcases List.mem_append.1 there with there | there
    · obtain ⟨rest, rfl⟩ := front
      simp at there
    · obtain ⟨named, -, there⟩ := List.mem_flatMap.1 there
      obtain ⟨leaf, known, rfl⟩ := List.mem_map.1 there
      obtain ⟨v, -, known⟩ := Option.bind_eq_some_iff.1 (Option.mem_toList.1 known)
      rw [Leaf.dir, (fileLeaf_eq_some known).2.2] at first
      exact absurd (show "snapshots" = "current" from first) (by decide)
  obtain ⟨ext₂, built₂⟩ := built_addSnapshots built₁ (snapshots.extends ext₁) labels free
  have step₃ := adds_foldl (fun t named dir => adds_addHistory (t := t) dir now named)
    ((history.extends ext₁).extends ext₂) m.shownObjects
  obtain ⟨ext₃, built₃⟩ := step₃ _ _ built₂
  unfold build MetadataStore.leaves MetadataStore.directories
  simp only [List.filterMap_eq_flatMap_toList, List.map_flatMap]
  exact built₃

end Build

end VfsNodes

end OosLite
