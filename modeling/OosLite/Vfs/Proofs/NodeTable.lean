import Mathlib.Data.List.Nodup
import OosLite.Vfs.Proofs.Contents

/-!
# The node table is a tree

Whatever objects and snapshots are listed, also with names and labels that occur twice, the nodes
are linked as a tree.
-/

namespace OosLite

namespace VfsNodes

/-- `VfsTree::build` with what it lists: the nodes. -/
def buildFrom (objects : List (String × ObjectId × ObjectRecord)) (snapshots : List Snapshot)
    (now : UInt64) : VfsNodes :=
  let t := objects.foldl addCurrent (initial now)
  let t := snapshots.foldl addSnapshot t
  objects.foldl (fun t named => t.addHistory now named) t

theorem build_eq (env : Env) (m : MetadataStore) (now : UInt64) :
    build env m now = buildFrom m.shownObjects (m.shownSnapshots env) now := rfl

/-- A link is named after a file, and leads to a version of it beside it. -/
def Links (t : VfsNodes) : Prop :=
  ∀ ino node, t.getNode ino = some node → node.kind = .symlink → ∃ leaf n ino' target,
    node.name = leaf ++ "@latest" ∧ node.symlinkTarget = some (leaf ++ "@v" ++ toString n) ∧
      t.getNode ino' = some target ∧ ino' ≠ rootInode ∧ target.parentIno = node.parentIno ∧
      target.name = leaf ++ "@v" ++ toString (n : UInt32) ∧ target.kind = .regularFile

/-- More nodes, linked like those that were there. -/
structure Grown (t t' : VfsNodes) : Prop where
  ext : t.Extends t'
  linked : t'.Linked
  links : t.Links → t'.Links

/-- A step that only adds linked nodes. -/
def Grows (t t' : VfsNodes) : Prop := t.Linked → t.Grown t'

section Grows

variable {t t' t'' : VfsNodes} {ino : Nat} {place : List String}

theorem Grown.refl (linked : t.Linked) : t.Grown t := ⟨.refl t, linked, id⟩

theorem Grown.trans (h : t.Grown t') (h' : t'.Grown t'') : t.Grown t'' :=
  ⟨h.ext.trans h'.ext, h'.linked, fun links => h'.links (h.links links)⟩

theorem Grows.refl (t : VfsNodes) : t.Grows t := fun linked => .refl linked

theorem Grows.trans (h : t.Grows t') (h' : t'.Grows t'') : t.Grows t'' := by
  intro linked
  have grown := h linked
  exact grown.trans (h' grown.linked)

/-- The links that were there lead where they did. -/
theorem links_add (linked : t.Linked) (dir : t.DirAt ino place) {node : Nat → Nat → VfsNode}
    {name : String} {kind : VfsNodeType} (n : Node node name kind) (links : t.Links)
    (link : kind = .symlink → ∃ leaf v ino' target, name = leaf ++ "@latest" ∧
      (node t.nextIno ino).symlinkTarget = some (leaf ++ "@v" ++ toString v) ∧
        t.getNode ino' = some target ∧ ino' ≠ rootInode ∧ target.parentIno = ino ∧
        target.name = leaf ++ "@v" ++ toString (v : UInt32) ∧ target.kind = .regularFile) :
    (t.add ino node).2.Links := by
  have ext : t.Extends (t.add ino node).2 := extends_add linked dir
  intro ino' node' found isLink
  rcases node_of_add linked dir found with ⟨-, rfl⟩ | ⟨old, found', rfl⟩
  · rw [n.kind] at isLink
    obtain ⟨leaf, v, ino', target, named, leads, there, other, parent, name', file⟩ := link isLink
    obtain ⟨children, there'⟩ := ext _ _ there
    refine ⟨leaf, v, ino', _, (n.name _ _).trans named, leads, there', other, ?_, name', file⟩
    rw [n.parentIno]
    exact parent
  · obtain ⟨leaf, v, ino', target, named, leads, there, other, parent, name', file⟩ :=
      links _ _ found' isLink
    obtain ⟨children, there'⟩ := ext _ _ there
    exact ⟨leaf, v, ino', _, named, leads, there', other, parent, name', file⟩

theorem grows_add (dir : t.DirAt ino place) {node : Nat → Nat → VfsNode} {name : String}
    {kind : VfsNodeType} (n : Node node name kind) (noLink : kind ≠ .symlink) :
    t.Grows (t.add ino node).2 := fun linked =>
  ⟨extends_add linked dir, linked_add linked dir n,
    fun links => links_add linked dir n links fun isLink => absurd isLink noLink⟩

/-- A loop whose rounds are each in a directory. -/
theorem grows_foldl {α : Type} {step : VfsNodes → α → VfsNodes}
    (h : ∀ (t : VfsNodes) x, t.DirAt ino place → t.Grows (step t x)) (dir : t.DirAt ino place)
    (xs : List α) : t.Grows (xs.foldl step t) := by
  induction xs generalizing t with
  | nil => exact .refl t
  | cons x xs ih =>
    intro linked
    have grown := h t x dir linked
    exact grown.trans (ih (dir.extends grown.ext) grown.linked)

theorem ensureDir_linked (linked : t.Linked) (dir : t.DirAt ino place) (part : String)
    (mtime : UInt64) :
    let made := ensureDir mtime (ino, t) part
    t.Grown made.2 ∧ made.2.DirAt made.1 (place ++ [part]) := by
  unfold ensureDir
  cases found : t.existingChild ino part with
  | some child => exact ⟨.refl linked, existingChild_some linked dir found⟩
  | none =>
    have n := node_directory part mtime
    have new := at_add linked dir n
    exact ⟨grows_add dir n (by decide) linked, _, new.1, rfl, new.2⟩

theorem ensureDirPath_linked (linked : t.Linked) (dir : t.DirAt ino place) (parts : List String)
    (mtime : UInt64) :
    let made := t.ensureDirPath ino parts mtime
    t.Grown made.2 ∧ made.2.DirAt made.1 (place ++ parts) := by
  induction parts generalizing t ino place with
  | nil =>
    rw [List.append_nil]
    exact ⟨.refl linked, dir⟩
  | cons part parts ih =>
    obtain ⟨grown, dir'⟩ := ensureDir_linked linked dir part mtime
    obtain ⟨grown', dir''⟩ := ih grown.linked dir'
    rw [List.append_assoc, List.singleton_append] at dir''
    exact ⟨grown.trans grown', dir''⟩

theorem grows_insertPath (dir : t.DirAt ino place) (parts : List String) (manifestId : String)
    (size mtime : UInt64) : t.Grows (t.insertPath ino parts manifestId size mtime) := by
  intro linked
  unfold insertPath
  cases parts.getLast? with
  | none => exact .refl linked
  | some fileName =>
    obtain ⟨grown, dir'⟩ := ensureDirPath_linked linked dir parts.dropLast mtime
    have n := node_regularFile fileName manifestId size mtime
    exact grown.trans (grows_add dir' n (by decide) grown.linked)

theorem grows_addCurrent (dir : t.DirAt currentInode place)
    (named : String × ObjectId × ObjectRecord) : t.Grows (t.addCurrent named) := by
  unfold addCurrent
  cases named.2.2.latest with
  | none => exact .refl t
  | some latest => exact grows_insertPath dir _ _ _ _

theorem grows_addSnapshot (dir : t.DirAt snapshotsInode place) (snap : Snapshot) :
    t.Grows (t.addSnapshot snap) := by
  intro linked
  have n := node_directory snap.label snap.createdAt
  have new := at_add linked dir n
  have inside : (t.add snapshotsInode (.directory snap.label snap.createdAt)).2.DirAt t.nextIno
      (place ++ [snap.label]) := ⟨_, new.1, rfl, new.2⟩
  have filled := grows_foldl (fun t (entry : SnapshotEntry) dir => grows_insertPath (t := t) dir
    (nameParts entry.name) entry.manifestId entry.sizeBytes snap.createdAt) inside snap.entries
  exact (grows_add dir n (by decide)).trans filled linked

theorem grows_addVersion (dir : t.DirAt ino place) (leafFile : String) (v : ObjectVersion) :
    t.Grows (t.addVersion ino leafFile v) :=
  grows_add dir (node_regularFile _ _ _ _) (by decide)

/-- Each version has its file. -/
theorem exists_addVersion (linked : t.Linked) (dir : t.DirAt ino place) (leafFile : String)
    {versions : List ObjectVersion} {v : ObjectVersion} (member : v ∈ versions) :
    ∃ ino' target, (versions.foldl (fun t v => t.addVersion ino leafFile v) t).getNode ino' =
        some target ∧ ino' ≠ rootInode ∧ target.parentIno = ino ∧
      target.name = leafFile ++ "@v" ++ toString v.version ∧ target.kind = .regularFile := by
  induction versions generalizing t with
  | nil => cases member
  | cons first versions ih =>
    have grown := grows_addVersion dir leafFile first linked
    have rest := grows_foldl (fun t v dir => grows_addVersion (t := t) dir leafFile v)
      (dir.extends grown.ext) versions grown.linked
    rcases List.mem_cons.1 member with rfl | later
    · have new := at_add linked dir (node_regularFile (leafFile ++ "@v" ++ toString v.version)
        v.manifestId v.sizeBytes v.createdAt)
      obtain ⟨children, there⟩ := rest.ext _ _ new.1
      exact ⟨t.nextIno, _, there, new.2.ne_root (by simp), rfl, rfl, rfl⟩
    · exact ih grown.linked (dir.extends grown.ext) later

theorem latestVer_mem (versions : List ObjectVersion) (positive : latestVer versions > 0) :
    ∃ v ∈ versions, v.version = latestVer versions := by
  have fold (start : UInt32) :
      let latest := versions.foldl
        (fun latest v => if v.version > latest then v.version else latest) start
      latest = start ∨ ∃ v ∈ versions, v.version = latest := by
    clear positive
    induction versions generalizing start with
    | nil => exact .inl rfl
    | cons v versions ih =>
      simp only [List.foldl_cons]
      by_cases later : v.version > start
      · rw [if_pos later]
        rcases ih v.version with same | ⟨v', member, same⟩
        · exact .inr ⟨v, List.mem_cons_self, same.symm⟩
        · exact .inr ⟨v', List.mem_cons_of_mem _ member, same⟩
      · rw [if_neg later]
        rcases ih start with same | ⟨v', member, same⟩
        · exact .inl same
        · exact .inr ⟨v', List.mem_cons_of_mem _ member, same⟩
  rcases fold 0 with zero | found
  · unfold latestVer at positive
    rw [zero] at positive
    exact absurd positive (by decide)
  · exact found

theorem grows_addHistory (dir : t.DirAt historyInode place) (now : UInt64)
    (named : String × ObjectId × ObjectRecord) : t.Grows (t.addHistory now named) := by
  intro linked
  unfold addHistory
  cases (nameParts named.1).getLast? with
  | none => exact .refl linked
  | some leafFile =>
    obtain ⟨grown, dir'⟩ := ensureDirPath_linked linked dir (nameParts named.1).dropLast now
    have versions := grows_foldl (fun t v dir => grows_addVersion (t := t) dir leafFile v) dir'
      named.2.2.versions grown.linked
    simp only
    by_cases any : latestVer named.2.2.versions > 0
    · rw [if_pos any]
      obtain ⟨v, member, latest⟩ := latestVer_mem _ any
      obtain ⟨ino', target, there, other, parent, name, file⟩ :=
        exists_addVersion grown.linked dir' leafFile member
      have dir'' := dir'.extends versions.ext
      have n := node_symlink (leafFile ++ "@latest")
        (leafFile ++ "@v" ++ toString (latestVer named.2.2.versions)) now
      refine (grown.trans versions).trans ⟨extends_add versions.linked dir'',
        linked_add versions.linked dir'' n, fun links => links_add versions.linked dir'' n links
          fun _ => ⟨leafFile, v.version, ino', target, rfl, ?_, there, other, parent, name, file⟩⟩
      rw [latest]
      rfl
    · rw [if_neg any]
      exact grown.trans versions

end Grows

theorem grows_buildFrom (objects : List (String × ObjectId × ObjectRecord))
    (snapshots : List Snapshot) (now : UInt64) :
    (initial now).Grows (buildFrom objects snapshots now) := by
  intro linked
  obtain ⟨-, current, snaps, history⟩ := built_initial now
  have first := grows_foldl (fun t named dir => grows_addCurrent (t := t) dir named) current
    objects linked
  have second := grows_foldl (fun t snap dir => grows_addSnapshot (t := t) dir snap)
    (snaps.extends first.ext) snapshots first.linked
  have third := grows_foldl (fun t named dir => grows_addHistory (t := t) dir now named)
    ((history.extends first.ext).extends second.ext) objects second.linked
  exact (first.trans second).trans third

/-! ## What the links say -/

/-- A node that is found from the root along the entries of directories. -/
inductive Reachable (t : VfsNodes) : Nat → Prop where
  | root : Reachable t rootInode
  | child {ino c node} : Reachable t ino → t.getNode ino = some node → c ∈ node.children →
      Reachable t c

section Linked

variable {t : VfsNodes} {ino : Nat} {node : VfsNode}

/-- Only a directory has entries. -/
theorem Linked.kind_of_child (h : t.Linked) (found : t.getNode ino = some node) {c : Nat}
    (member : c ∈ node.children) : node.kind = .directory := by
  obtain ⟨other, child, there, parent⟩ := h.child _ _ found c member
  obtain ⟨node', found', kind, -⟩ := h.parent _ _ there other
  rw [parent, found] at found'
  obtain rfl := Option.some.inj found'
  exact kind

theorem Linked.reachable (h : t.Linked) {place : List String} (there : t.At ino place)
    (found : t.getNode ino = some node) : t.Reachable ino := by
  induction there generalizing node with
  | root => exact .root
  | child found' other above ih =>
    obtain ⟨parent, present, -, member⟩ := h.parent _ _ found' other
    exact .child (ih present) present member

/-- The parent of the root is the root. -/
def RootedInItself (t : VfsNodes) : Prop :=
  ∀ root, t.getNode rootInode = some root → root.parentIno = rootInode

theorem Linked.getNode_parent (h : t.Linked) (rooted : t.RootedInItself)
    (found : t.getNode ino = some node) : ∃ parent, t.getNode node.parentIno = some parent := by
  by_cases root : ino = rootInode
  · subst root
    exact ⟨node, (rooted node found).symm ▸ found⟩
  · obtain ⟨parent, present, -, -⟩ := h.parent _ _ found root
    exact ⟨parent, present⟩

theorem resolvePart_up (node : VfsNode) : t.resolvePart node ".." = t.getNode node.parentIno := by
  unfold resolvePart
  rw [if_neg (by decide), if_pos rfl]

theorem climb_succ (n : Nat) (node : VfsNode) :
    (List.replicate (n + 1) "..").foldlM t.resolvePart node =
      (t.getNode node.parentIno).bind fun parent =>
        (List.replicate n "..").foldlM t.resolvePart parent := by
  rw [List.replicate_succ, List.foldlM_cons, resolvePart_up]
  rfl

/-- The node is the one of its number. -/
def Has (t : VfsNodes) (node : VfsNode) : Prop := t.getNode node.ino = some node

theorem Linked.has (h : t.Linked) (found : t.getNode ino = some node) : t.Has node := by
  have same := h.ino _ _ found
  unfold Has
  rw [same]
  exact found

/-- However often one goes up, there is a node. -/
theorem Linked.climb (h : t.Linked) (rooted : t.RootedInItself) (n : Nat)
    (found : t.getNode ino = some node) :
    ∃ above, (List.replicate n "..").foldlM t.resolvePart node = some above ∧
      t.getNode above.ino = some above := by
  induction n generalizing ino node with
  | zero => exact ⟨node, rfl, h.has found⟩
  | succ n ih =>
    obtain ⟨parent, present⟩ := h.getNode_parent rooted found
    rw [climb_succ, present, Option.bind_some]
    exact ih present

theorem At.eq_root (there : t.At ino []) (found : t.getNode ino = some node) :
    ino = rootInode := by
  by_contra other
  obtain ⟨above, -, same⟩ := there.eq_append found other
  exact absurd same (by simp)

/-- Often enough, it is the root. -/
theorem Linked.climb_root (h : t.Linked) (rooted : t.RootedInItself) {place : List String}
    (there : t.At ino place) (found : t.getNode ino = some node) {n : Nat}
    (enough : place.length ≤ n) :
    (List.replicate n "..").foldlM t.resolvePart node = t.getNode rootInode := by
  induction n generalizing ino node place with
  | zero =>
    obtain rfl := List.length_eq_zero_iff.1 (Nat.le_zero.1 enough)
    obtain rfl := there.eq_root found
    exact found.symm
  | succ n ih =>
    rw [climb_succ]
    cases there with
    | root =>
      rw [rooted node found, found, Option.bind_some]
      exact (ih .root found (Nat.zero_le _)).trans found
    | child found' other above =>
      rw [found] at found'
      obtain rfl := Option.some.inj found'
      obtain ⟨parent, present, -, -⟩ := h.parent _ _ found other
      rw [present, Option.bind_some]
      rw [List.length_append, List.length_singleton] at enough
      exact ih above present (by omega)

theorem Linked.has_lookupChild (h : t.Linked) {name : String} {child : VfsNode}
    (found : t.lookupChild ino name = some child) : t.Has child := by
  unfold lookupChild at found
  obtain ⟨parent, -, found⟩ := Option.bind_eq_some_iff.1 found
  by_cases file : parent.kind ≠ .directory
  · rw [if_pos file] at found
    cases found
  · rw [if_neg file] at found
    obtain ⟨c, -, there⟩ := List.exists_of_findSome?_eq_some found
    exact h.has (Option.filter_eq_some_iff.1 there).1

theorem Linked.has_resolvePart (h : t.Linked) (there : t.Has node) {part : String}
    {node' : VfsNode} (found : t.resolvePart node part = some node') : t.Has node' := by
  unfold resolvePart at found
  by_cases stay : part = "" ∨ part = "."
  · rw [if_pos stay] at found
    exact Option.some.inj found ▸ there
  rw [if_neg stay] at found
  by_cases up : part = ".."
  · rw [if_pos up] at found
    exact h.has found
  rw [if_neg up] at found
  obtain ⟨child, looked, found⟩ := Option.bind_eq_some_iff.1 found
  split at found
  · exact h.has_lookupChild found
  · exact Option.some.inj found ▸ h.has_lookupChild looked

theorem Linked.has_foldlM (h : t.Linked) (there : t.Has node) {parts : List String}
    {node' : VfsNode} (found : parts.foldlM t.resolvePart node = some node') : t.Has node' := by
  induction parts generalizing node with
  | nil => exact Option.some.inj found ▸ there
  | cons part parts ih =>
    rw [List.foldlM_cons] at found
    obtain ⟨next, first, found⟩ := Option.bind_eq_some_iff.1 found
    exact ih (h.has_resolvePart there first) found

theorem Linked.has_resolvePath (h : t.Linked) {path : String}
    (found : t.resolvePath path = some node) : t.Has node := by
  unfold resolvePath at found
  by_cases clean : Text.trimMatches '/' path = ""
  · rw [if_pos clean] at found
    exact h.has found
  · rw [if_neg clean] at found
    obtain ⟨root, present, found⟩ := Option.bind_eq_some_iff.1 found
    exact h.has_foldlM (h.has present) found

end Linked

/-- At first there are only directories. -/
theorem links_initial (now : UInt64) : (initial now).Links := by
  obtain ⟨⟨shown, none, laid, -⟩, -⟩ := built_initial now
  intro ino node found isLink
  have leaf : node.kind ≠ .directory := by
    rw [isLink]
    decide
  obtain ⟨e, member, -⟩ := laid.only ino node found leaf
  rw [List.map_eq_nil_iff.1 none] at member
  cases member

theorem buildFrom_linked (objects : List (String × ObjectId × ObjectRecord))
    (snapshots : List Snapshot) (now : UInt64) :
    (buildFrom objects snapshots now).Linked ∧
      (buildFrom objects snapshots now).RootedInItself ∧
      (buildFrom objects snapshots now).Links := by
  obtain ⟨built, -⟩ := built_initial now
  obtain ⟨ext, linked, links⟩ := grows_buildFrom objects snapshots now built.sound.toLinked
  refine ⟨linked, ?_, links (links_initial now)⟩
  intro root found
  have first : ∃ node, (initial now).getNode rootInode = some node ∧
      node.parentIno = rootInode := ⟨_, by with_unfolding_all rfl, rfl⟩
  obtain ⟨node, present, parent⟩ := first
  obtain ⟨children, present'⟩ := ext _ _ present
  rw [found] at present'
  rw [Option.some.inj present']
  exact parent

/-- For any listed objects and snapshots: the inodes are the keys; an entry is in one list, once, and
that of a directory, which is its parent; all nodes are reached from the root; going up ends there;
and no path leads out. -/
theorem node_table_tree (objects : List (String × ObjectId × ObjectRecord))
    (snapshots : List Snapshot) (now : UInt64) :
    let t := buildFrom objects snapshots now
    (∀ ino node, t.getNode ino = some node → node.ino = ino) ∧
    (∀ ino node, t.getNode ino = some node → ∀ c ∈ node.children,
      node.kind = .directory ∧ node.children.count c = 1 ∧
      (∃ child, t.getNode c = some child ∧ child.parentIno = ino) ∧
      ∀ ino' node', t.getNode ino' = some node' → c ∈ node'.children → ino' = ino) ∧
    (∀ ino node, t.getNode ino = some node → t.Reachable ino) ∧
    (∀ ino node, t.getNode ino = some node →
      (∀ n, ∃ above, (List.replicate n "..").foldlM t.resolvePart node = some above ∧
        t.getNode above.ino = some above) ∧
      ∃ depth, ∀ n ≥ depth,
        (List.replicate n "..").foldlM t.resolvePart node = t.getNode rootInode) ∧
    ∀ path node, t.resolvePath path = some node → t.getNode node.ino = some node := by
  intro t
  obtain ⟨linked, rooted, -⟩ : t.Linked ∧ t.RootedInItself ∧ t.Links :=
    buildFrom_linked objects snapshots now
  refine ⟨linked.ino, ?_, ?_, ?_, fun path node found => linked.has_resolvePath found⟩
  · intro ino node found c member
    obtain ⟨-, child, there, parent⟩ := linked.child _ _ found c member
    refine ⟨linked.kind_of_child found member, ?_, ⟨child, there, parent⟩, ?_⟩
    · exact List.count_eq_one_of_mem (linked.nodup _ _ found) member
    · intro ino' node' found' member'
      obtain ⟨-, child', there', parent'⟩ := linked.child _ _ found' c member'
      rw [there] at there'
      obtain rfl := Option.some.inj there'
      exact parent'.symm.trans parent
  · intro ino node found
    obtain ⟨place, there⟩ := linked.placed _ _ found
    exact linked.reachable there found
  · intro ino node found
    obtain ⟨place, there⟩ := linked.placed _ _ found
    refine ⟨fun n => linked.climb rooted n found, place.length, fun n enough => ?_⟩
    exact linked.climb_root rooted there found enough

end VfsNodes

end OosLite
