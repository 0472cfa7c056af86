import OosLite.Vfs.Tree

/-!
# The layout of the tree

Nodes are only ever added, each under a new number and with a directory as its parent.  So every
node has one place, the names on the way to it from the root, and directories of one place are one.
-/

namespace OosLite

namespace VfsNodes

/-- The names on the way from the root to a node. -/
inductive At (t : VfsNodes) : Nat → List String → Prop where
  | root : At t rootInode []
  | child {ino node place} : t.getNode ino = some node → ino ≠ rootInode →
      At t node.parentIno place → At t ino (place ++ [node.name])

/-- A directory and its place. -/
def DirAt (t : VfsNodes) (ino : Nat) (place : List String) : Prop :=
  ∃ node, t.getNode ino = some node ∧ node.kind = .directory ∧ t.At ino place

/-- Some directory has this place. -/
def IsDir (t : VfsNodes) (place : List String) : Prop := ∃ ino, t.DirAt ino place

/-- What later nodes leave as it is. -/
def Extends (t t' : VfsNodes) : Prop :=
  ∀ ino node, t.getNode ino = some node → ∃ children, t'.getNode ino = some { node with children }

/-- The numbers of the nodes are in order, and parents and entries agree. -/
structure Linked (t : VfsNodes) : Prop where
  fresh : ∀ ino node, t.getNode ino = some node → ino < t.nextIno
  ino : ∀ ino node, t.getNode ino = some node → node.ino = ino
  root : t.DirAt rootInode []
  placed : ∀ ino node, t.getNode ino = some node → ∃ place, t.At ino place
  child : ∀ ino node, t.getNode ino = some node → ∀ c ∈ node.children,
    c ≠ rootInode ∧ ∃ child, t.getNode c = some child ∧ child.parentIno = ino
  parent : ∀ c child, t.getNode c = some child → c ≠ rootInode →
    ∃ node, t.getNode child.parentIno = some node ∧ node.kind = .directory ∧ c ∈ node.children
  nodup : ∀ ino node, t.getNode ino = some node → node.children.Nodup

/-- Besides, no two directories have one place. -/
structure Sound (t : VfsNodes) : Prop extends t.Linked where
  oneDir : ∀ ino ino' place, t.DirAt ino place → t.DirAt ino' place → ino = ino'

/-! ## Places -/

section Places

variable {t t' : VfsNodes} {ino ino' : Nat} {node : VfsNode} {place place' : List String}

theorem At.unique (h : t.At ino place) (h' : t.At ino place') : place = place' := by
  induction h generalizing place' with
  | root =>
    cases h' with
    | root => rfl
    | child _ other _ => exact absurd rfl other
  | child found other _ ih =>
    cases h' with
    | root => exact absurd rfl other
    | child found' _ above =>
      rw [found] at found'
      cases found'
      rw [ih above]

/-- The last name on the way to a node is its own. -/
theorem At.eq_append (h : t.At ino place) (found : t.getNode ino = some node)
    (other : ino ≠ rootInode) : ∃ above, t.At node.parentIno above ∧ place = above ++ [node.name] := by
  cases h with
  | root => exact absurd rfl other
  | child found' _ above =>
    rw [found] at found'
    cases found'
    exact ⟨_, above, rfl⟩

theorem At.ne_root (h : t.At ino place) (nonempty : place ≠ []) : ino ≠ rootInode := by
  intro root
  subst root
  exact nonempty (h.unique .root)

theorem Extends.refl (t : VfsNodes) : t.Extends t := fun _ node found => ⟨node.children, found⟩

theorem Extends.trans {t'' : VfsNodes} (h : t.Extends t') (h' : t'.Extends t'') :
    t.Extends t'' := by
  intro ino node found
  obtain ⟨_, found⟩ := h ino node found
  obtain ⟨children, found⟩ := h' ino _ found
  exact ⟨children, found⟩

theorem At.extends (h : t.At ino place) (ext : t.Extends t') : t'.At ino place := by
  induction h with
  | root => exact .root
  | child found other _ ih =>
    obtain ⟨children, found⟩ := ext _ _ found
    have next := At.child found other ih
    exact next

theorem DirAt.extends (h : t.DirAt ino place) (ext : t.Extends t') : t'.DirAt ino place := by
  obtain ⟨node, found, kind, there⟩ := h
  obtain ⟨children, found⟩ := ext _ _ found
  exact ⟨_, found, kind, there.extends ext⟩

/-- Every beginning of a place is the place of a directory. -/
theorem Linked.isDir_of_prefix (h : t.Linked) (there : t.At ino place)
    (found : t.getNode ino = some node) {front rest : List String} (same : place = front ++ rest) (below : rest ≠ [] ∨ node.kind = .directory) :
    t.IsDir front := by
  induction there generalizing node rest with
  | root =>
    obtain ⟨rfl, rfl⟩ := List.append_eq_nil_iff.1 same.symm
    exact ⟨_, h.root⟩
  | @child ino node' place found' other above ih =>
    rw [found] at found'
    cases found'
    obtain ⟨parent, found'', kind, -⟩ := h.parent _ _ found other
    rcases List.eq_nil_or_concat rest with rfl | ⟨rest, last, rfl⟩
    · rw [List.append_nil] at same
      subst same
      have directory := below.resolve_left fun none => none rfl
      exact ⟨ino, _, found, directory, .child found other above⟩
    · rw [List.concat_eq_append, ← List.append_assoc] at same
      obtain ⟨same, -⟩ := List.append_inj' same rfl
      exact ih found'' same (.inr kind)

end Places

/-! ## Adding a node -/

/-- A node that is about to be added: its name, and that it has its number and no entries. -/
structure Node (node : Nat → Nat → VfsNode) (name : String) (kind : VfsNodeType) : Prop where
  ino : ∀ ino parentIno, (node ino parentIno).ino = ino
  parentIno : ∀ ino parentIno, (node ino parentIno).parentIno = parentIno
  name : ∀ ino parentIno, (node ino parentIno).name = name
  kind : ∀ ino parentIno, (node ino parentIno).kind = kind
  children : ∀ ino parentIno, (node ino parentIno).children = []

theorem node_directory (name : String) (mtime : UInt64) :
    Node (.directory name mtime) name .directory :=
  ⟨fun _ _ => rfl, fun _ _ => rfl, fun _ _ => rfl, fun _ _ => rfl, fun _ _ => rfl⟩

theorem node_regularFile (name manifestId : String) (size mtime : UInt64) :
    Node (.regularFile name manifestId size mtime) name .regularFile :=
  ⟨fun _ _ => rfl, fun _ _ => rfl, fun _ _ => rfl, fun _ _ => rfl, fun _ _ => rfl⟩

theorem node_symlink (name target : String) (mtime : UInt64) :
    Node (.symlink name target mtime) name .symlink :=
  ⟨fun _ _ => rfl, fun _ _ => rfl, fun _ _ => rfl, fun _ _ => rfl, fun _ _ => rfl⟩

section Add

variable {t : VfsNodes} {parentIno : Nat} {place : List String} {node : Nat → Nat → VfsNode}
  {name : String} {kind : VfsNodeType}

theorem getNode_add {parent : VfsNode} (present : t.getNode parentIno = some parent)
    (fresh : parentIno ≠ t.nextIno) (ino : Nat) :
    (t.add parentIno node).2.getNode ino =
      if ino = t.nextIno then some (node t.nextIno parentIno)
      else if ino = parentIno then some { parent with children := parent.children ++ [t.nextIno] }
      else t.getNode ino := by
  have old : (t.nodes.insert t.nextIno (node t.nextIno parentIno))[parentIno]? = some parent := by
    rw [Std.ExtTreeMap.getElem?_insert, if_neg]
    · exact present
    · rw [Std.LawfulEqCmp.compare_eq_iff_eq]
      exact fun same => fresh same.symm
  unfold add getNode
  simp only [old, Std.ExtTreeMap.getElem?_insert, Std.LawfulEqCmp.compare_eq_iff_eq]
  by_cases new : ino = t.nextIno
  · subst new
    rw [if_neg (fun same => fresh same), if_pos rfl, if_pos rfl]
  · rw [if_neg new]
    by_cases same : ino = parentIno
    · rw [if_pos same, if_pos same.symm]
    · rw [if_neg same, if_neg fun h => same h.symm, if_neg fun h => new h.symm]

variable (h : t.Linked) (dir : t.DirAt parentIno place) (n : Node node name kind)

include h dir

theorem extends_add : t.Extends (t.add parentIno node).2 := by
  obtain ⟨parent, present, -, -⟩ := dir
  intro ino old found
  have below := h.fresh _ _ found
  rw [getNode_add present (Nat.ne_of_lt (h.fresh _ _ present)), if_neg (Nat.ne_of_lt below)]
  by_cases same : ino = parentIno
  · rw [if_pos same]
    subst same
    rw [present] at found
    cases found
    exact ⟨_, rfl⟩
  · rw [if_neg same]
    exact ⟨old.children, found⟩

/-- What a node of the larger tree is. -/
theorem node_of_add {ino : Nat} {new : VfsNode}
    (found : (t.add parentIno node).2.getNode ino = some new) :
    ino = t.nextIno ∧ new = node t.nextIno parentIno ∨
      ∃ old, t.getNode ino = some old ∧ new = { old with children :=
        if ino = parentIno then old.children ++ [t.nextIno] else old.children } := by
  obtain ⟨parent, present, -, -⟩ := dir
  rw [getNode_add present (Nat.ne_of_lt (h.fresh _ _ present))] at found
  by_cases next : ino = t.nextIno
  · rw [if_pos next] at found
    exact .inl ⟨next, (Option.some.inj found).symm⟩
  · right
    rw [if_neg next] at found
    by_cases same : ino = parentIno
    · rw [if_pos same] at found
      subst same
      exact ⟨parent, present, by rw [if_pos rfl]; exact (Option.some.inj found).symm⟩
    · rw [if_neg same] at found
      exact ⟨new, found, by rw [if_neg same]⟩

include n

/-- The new node lies in its parent. -/
theorem at_add : (t.add parentIno node).2.getNode t.nextIno = some (node t.nextIno parentIno) ∧
    (t.add parentIno node).2.At t.nextIno (place ++ [name]) := by
  obtain ⟨parent, present, -, there⟩ := id dir
  have found : (t.add parentIno node).2.getNode t.nextIno = some (node t.nextIno parentIno) := by
    rw [getNode_add present (Nat.ne_of_lt (h.fresh _ _ present)), if_pos rfl]
  refine ⟨found, ?_⟩
  obtain ⟨root, present', -, -⟩ := h.root
  have other : t.nextIno ≠ rootInode := Nat.ne_of_gt (h.fresh _ _ present')
  have above : (t.add parentIno node).2.At (node t.nextIno parentIno).parentIno place := by
    rw [n.parentIno]
    exact there.extends (extends_add h dir)
  have next := At.child found other above
  rw [n.name] at next
  exact next

/-- The other nodes lie where they did. -/
theorem at_of_add {ino : Nat} {place' : List String} (there : (t.add parentIno node).2.At ino place') :
    t.At ino place' ∨ ino = t.nextIno ∧ place' = place ++ [name] := by
  by_cases next : ino = t.nextIno
  · subst next
    exact .inr ⟨rfl, there.unique (at_add h dir n).2⟩
  · left
    cases there with
    | root => exact .root
    | child found other above =>
      rcases node_of_add h dir found with ⟨same, -⟩ | ⟨old, found', rfl⟩
      · exact absurd same next
      · obtain ⟨place', there⟩ := h.placed _ _ found'
        have same := (At.child found other above).unique (there.extends (extends_add h dir))
        rw [same]
        exact there

theorem dirAt_of_add {ino : Nat} {place' : List String}
    (there : (t.add parentIno node).2.DirAt ino place') :
    t.DirAt ino place' ∨ ino = t.nextIno ∧ kind = .directory ∧ place' = place ++ [name] := by
  obtain ⟨new, found, isDir, there⟩ := there
  rcases node_of_add h dir found with ⟨rfl, rfl⟩ | ⟨old, found', rfl⟩
  · rw [n.kind] at isDir
    exact .inr ⟨rfl, isDir, there.unique (at_add h dir n).2⟩
  · rcases at_of_add h dir n there with there | ⟨rfl, -⟩
    · exact .inl ⟨old, found', isDir, there⟩
    · exact absurd (h.fresh _ _ found') (Nat.lt_irrefl _)

/-- A node may be added to any directory. -/
theorem linked_add : (t.add parentIno node).2.Linked := by
  have ext : t.Extends (t.add parentIno node).2 := extends_add h dir
  have new := at_add h dir n
  obtain ⟨parent, present, isDir, there⟩ := id dir
  have below := h.fresh _ _ present
  refine ⟨?_, ?_, h.root.extends ext, ?_, ?_, ?_, ?_⟩
  · intro ino node' found
    show ino < t.nextIno + 1
    rcases node_of_add h dir found with ⟨rfl, -⟩ | ⟨old, found', -⟩
    · exact Nat.lt_succ_self _
    · exact Nat.lt_succ_of_lt (h.fresh _ _ found')
  · intro ino node' found
    rcases node_of_add h dir found with ⟨rfl, rfl⟩ | ⟨old, found', rfl⟩
    · exact n.ino _ _
    · have same := h.ino _ _ found'
      exact same
  · intro ino node' found
    rcases node_of_add h dir found with ⟨rfl, rfl⟩ | ⟨old, found', rfl⟩
    · exact ⟨_, new.2⟩
    · obtain ⟨place', there⟩ := h.placed _ _ found'
      exact ⟨place', there.extends ext⟩
  · intro ino node' found c member
    have keeps {c : Nat} (old : c ≠ rootInode ∧ ∃ child, t.getNode c = some child ∧ child.parentIno = ino) :
        c ≠ rootInode ∧ ∃ child, (t.add parentIno node).2.getNode c = some child ∧
          child.parentIno = ino := by
      obtain ⟨other, child, found, same⟩ := old
      obtain ⟨children, found⟩ := ext _ _ found
      exact ⟨other, _, found, same⟩
    rcases node_of_add h dir found with ⟨rfl, rfl⟩ | ⟨old, found', rfl⟩
    · rw [n.children] at member
      exact absurd member List.not_mem_nil
    · by_cases same : ino = parentIno
      · simp only [if_pos same, List.mem_append, List.mem_singleton] at member
        cases member with
        | inl member => exact keeps (h.child _ _ found' c member)
        | inr last =>
          subst last same
          exact ⟨new.2.ne_root (by simp), _, new.1, n.parentIno _ _⟩
      · simp only [if_neg same] at member
        exact keeps (h.child _ _ found' c member)
  · intro c child found other
    rcases node_of_add h dir found with ⟨rfl, rfl⟩ | ⟨old, found', rfl⟩
    · rw [n.parentIno, getNode_add present (Nat.ne_of_lt below), if_neg (Nat.ne_of_lt below),
        if_pos rfl]
      exact ⟨_, rfl, isDir, by simp⟩
    · obtain ⟨above, found, isDir', member⟩ := h.parent _ _ found' other
      show ∃ node', (t.add parentIno node).2.getNode old.parentIno = some node' ∧ _
      rw [getNode_add present (Nat.ne_of_lt below), if_neg (Nat.ne_of_lt (h.fresh _ _ found))]
      by_cases same : old.parentIno = parentIno
      · rw [if_pos same]
        rw [same, present] at found
        cases found
        exact ⟨_, rfl, isDir, List.mem_append_left _ member⟩
      · rw [if_neg same]
        exact ⟨above, found, isDir', member⟩
  · intro ino node' found
    rcases node_of_add h dir found with ⟨rfl, rfl⟩ | ⟨old, found', rfl⟩
    · rw [n.children]
      exact List.nodup_nil
    · have nodup := h.nodup _ _ found'
      by_cases same : ino = parentIno
      · simp only [if_pos same]
        rw [List.nodup_append]
        refine ⟨nodup, by simp, ?_⟩
        intro c member c' last
        obtain ⟨-, child, there, -⟩ := h.child _ _ found' c member
        rw [List.mem_singleton.1 last]
        exact Nat.ne_of_lt (h.fresh _ _ there)
      · simp only [if_neg same]
        exact nodup

theorem isDir_add (q : List String) : (t.add parentIno node).2.IsDir q ↔
    t.IsDir q ∨ kind = .directory ∧ q = place ++ [name] := by
  constructor
  · intro there
    obtain ⟨ino, there⟩ := there
    rcases dirAt_of_add h dir n there with there | ⟨-, isDir, same⟩
    · exact .inl ⟨ino, there⟩
    · exact .inr ⟨isDir, same⟩
  · intro there
    rcases there with ⟨ino, there⟩ | ⟨isDir, rfl⟩
    · exact ⟨ino, there.extends (extends_add h dir)⟩
    · have new := at_add h dir n
      exact ⟨t.nextIno, _, new.1, (n.kind _ _).trans isDir, new.2⟩

end Add

/-- A directory may be added where there is none, and another node anywhere. -/
theorem sound_add {t : VfsNodes} {parentIno : Nat} {place : List String}
    {node : Nat → Nat → VfsNode} {name : String} {kind : VfsNodeType} (h : t.Sound)
    (dir : t.DirAt parentIno place) (n : Node node name kind)
    (free : kind = .directory → ¬ t.IsDir (place ++ [name])) :
    (t.add parentIno node).2.Sound := by
  refine ⟨linked_add h.toLinked dir n, ?_⟩
  intro ino ino' place' first second
  rcases dirAt_of_add h.toLinked dir n first with first | ⟨rfl, isDir', rfl⟩
  · rcases dirAt_of_add h.toLinked dir n second with second | ⟨rfl, isDir', rfl⟩
    · exact h.oneDir _ _ _ first second
    · exact absurd ⟨_, first⟩ (free isDir')
  · rcases dirAt_of_add h.toLinked dir n second with second | ⟨rfl, -, -⟩
    · exact absurd ⟨_, second⟩ (free isDir')
    · rfl

end VfsNodes

/-! ## What a tree is built to show -/

/-- A file or a link that a tree is to show. -/
structure Leaf where
  path : List String
  kind : VfsNodeType
  size : UInt64
  manifestId : Option String

namespace VfsNodes

/-- The node is that file or link, in its place. -/
def LeafAt (t : VfsNodes) (ino : Nat) (leaf : Leaf) : Prop :=
  ∃ node, t.getNode ino = some node ∧ node.kind = leaf.kind ∧ node.size = leaf.size ∧
    node.manifestId = leaf.manifestId ∧ t.At ino leaf.path

/-- The tree has a node of its own for each of the leaves, and directories besides. -/
structure Laid (t : VfsNodes) (shown : List (Nat × Leaf)) : Prop where
  sound : t.Sound
  inos : (shown.map Prod.fst).Nodup
  leaf : ∀ e ∈ shown, t.LeafAt e.1 e.2 ∧ e.2.kind ≠ .directory
  only : ∀ ino node, t.getNode ino = some node → node.kind ≠ .directory → ∃ e ∈ shown, e.1 = ino

/-- The leaves of a tree, and directories that all others are on the way to. -/
def Built (t : VfsNodes) (leaves : List Leaf) (dirs : List (List String)) : Prop :=
  ∃ shown, shown.map Prod.snd = leaves ∧ t.Laid shown ∧
    ∀ q, t.IsDir q ↔ ∃ d ∈ dirs, q <+: d

section Built

variable {t : VfsNodes} {leaves : List Leaf} {dirs dirs' : List (List String)} {parentIno : Nat}
  {place : List String} {node : Nat → Nat → VfsNode} {name : String} {kind : VfsNodeType}

theorem Built.sound (h : t.Built leaves dirs) : t.Sound := by
  obtain ⟨shown, -, laid, -⟩ := h
  exact laid.sound

theorem Built.congr (h : t.Built leaves dirs)
    (same : ∀ q : List String, (∃ d ∈ dirs, q <+: d) ↔ ∃ d ∈ dirs', q <+: d) :
    t.Built leaves dirs' := by
  obtain ⟨shown, all, laid, isDir⟩ := h
  exact ⟨shown, all, laid, fun q => (isDir q).trans (same q)⟩

theorem LeafAt.extends {t' : VfsNodes} {ino : Nat} {leaf : Leaf} (h : t.LeafAt ino leaf)
    (ext : t.Extends t') : t'.LeafAt ino leaf := by
  obtain ⟨node, found, kind, size, manifestId, there⟩ := h
  obtain ⟨children, found⟩ := ext _ _ found
  exact ⟨_, found, kind, size, manifestId, there.extends ext⟩

/-- One leaf more. -/
theorem Built.addLeaf (h : t.Built leaves dirs) (dir : t.DirAt parentIno place)
    (n : Node node name kind) (isLeaf : kind ≠ .directory) (leaf : Leaf)
    (path : leaf.path = place ++ [name]) (sameKind : leaf.kind = kind)
    (size : ∀ i j, (node i j).size = leaf.size)
    (manifestId : ∀ i j, (node i j).manifestId = leaf.manifestId) :
    (t.add parentIno node).2.Built (leaves ++ [leaf]) dirs := by
  obtain ⟨shown, all, laid, isDir⟩ := h
  have sound := laid.sound
  have ext : t.Extends (t.add parentIno node).2 := extends_add sound.toLinked dir
  have new := at_add sound.toLinked dir n
  refine ⟨shown ++ [(t.nextIno, leaf)], by simp [all], ⟨?_, ?_, ?_, ?_⟩, fun q => ?_⟩
  · exact sound_add sound dir n fun directory => absurd directory isLeaf
  · rw [List.map_append, List.nodup_append]
    refine ⟨laid.inos, by simp, ?_⟩
    intro ino member ino' last
    obtain ⟨e, there, rfl⟩ := List.mem_map.1 member
    obtain ⟨⟨node', found, -⟩, -⟩ := laid.leaf e there
    have last : ino' = t.nextIno := by simpa using last
    rw [last]
    exact Nat.ne_of_lt (sound.fresh _ _ found)
  · intro e member
    rcases List.mem_append.1 member with member | last
    · obtain ⟨leaf, other⟩ := laid.leaf e member
      exact ⟨leaf.extends ext, other⟩
    · obtain rfl := List.mem_singleton.1 last
      refine ⟨⟨_, new.1, ?_, size _ _, manifestId _ _, ?_⟩, ?_⟩
      · exact (n.kind _ _).trans sameKind.symm
      · rw [path]
        exact new.2
      · rw [sameKind]
        exact isLeaf
  · intro ino node' found other
    rcases node_of_add sound.toLinked dir found with ⟨rfl, -⟩ | ⟨old, found', rfl⟩
    · exact ⟨_, List.mem_append_right _ (List.mem_singleton_self _), rfl⟩
    · obtain ⟨e, member, same⟩ := laid.only _ _ found' other
      exact ⟨e, List.mem_append_left _ member, same⟩
  · rw [isDir_add sound.toLinked dir n, isDir, or_iff_left]
    exact fun h => isLeaf h.1

/-- One directory more, where there is none. -/
theorem Built.addDir (h : t.Built leaves dirs) (dir : t.DirAt parentIno place)
    (n : Node node name .directory) (free : ¬ t.IsDir (place ++ [name])) :
    (t.add parentIno node).2.Built leaves (dirs ++ [place ++ [name]]) := by
  obtain ⟨shown, all, laid, isDir⟩ := h
  have sound := laid.sound
  have ext : t.Extends (t.add parentIno node).2 := extends_add sound.toLinked dir
  refine ⟨shown, all, ⟨sound_add sound dir n fun _ => free, laid.inos, ?_, ?_⟩, fun q => ?_⟩
  · intro e member
    obtain ⟨leaf, other⟩ := laid.leaf e member
    exact ⟨leaf.extends ext, other⟩
  · intro ino node' found other
    rcases node_of_add sound.toLinked dir found with ⟨-, rfl⟩ | ⟨old, found', rfl⟩
    · exact absurd (n.kind _ _) other
    · exact laid.only _ _ found' other
  · rw [isDir_add sound.toLinked dir n, isDir]
    have above (front : q <+: place) : ∃ d ∈ dirs, q <+: d := by
      obtain ⟨node', found, kind, there⟩ := dir
      obtain ⟨rest, same⟩ := front
      exact (isDir q).1 (sound.toLinked.isDir_of_prefix there found same.symm (.inr kind))
    constructor
    · intro known
      rcases known with ⟨d, member, front⟩ | ⟨-, rfl⟩
      · exact ⟨d, List.mem_append_left _ member, front⟩
      · exact ⟨_, List.mem_append_right _ (List.mem_singleton_self _), List.prefix_rfl⟩
    · intro known
      obtain ⟨d, member, front⟩ := known
      rcases List.mem_append.1 member with member | last
      · exact .inl ⟨d, member, front⟩
      · rw [List.mem_singleton.1 last, List.prefix_concat_iff] at front
        cases front with
        | inl same => exact .inr ⟨rfl, same⟩
        | inr front => exact .inl (above front)

/-- A directory that is there may be named. -/
theorem Built.known (h : t.Built leaves dirs) {q : List String} (there : t.IsDir q) :
    t.Built leaves (dirs ++ [q]) := by
  obtain ⟨shown, all, laid, isDir⟩ := h
  refine ⟨shown, all, laid, fun q' => ?_⟩
  rw [isDir]
  constructor
  · intro known
    obtain ⟨d, member, front⟩ := known
    exact ⟨d, List.mem_append_left _ member, front⟩
  · intro known
    obtain ⟨d, member, front⟩ := known
    rcases List.mem_append.1 member with member | last
    · exact ⟨d, member, front⟩
    · obtain ⟨d, member, front'⟩ := (isDir q).1 there
      rw [List.mem_singleton.1 last] at front
      exact ⟨d, member, front.trans front'⟩

/-! ## Directories on demand -/

theorem existingChild_some {ino : Nat} {part : String} (sound : t.Linked)
    (dir : t.DirAt parentIno place) (h : t.existingChild parentIno part = some ino) :
    t.DirAt ino (place ++ [part]) := by
  obtain ⟨parent, present, -, there⟩ := dir
  unfold existingChild at h
  rw [present] at h
  simp only at h
  have member := List.mem_of_find?_eq_some h
  have found := List.find?_some h
  obtain ⟨other, child, known, above⟩ := sound.child _ _ present _ member
  rw [known] at found
  simp only [Bool.and_eq_true, decide_eq_true_eq] at found
  obtain ⟨kind, rfl⟩ := found
  refine ⟨child, known, kind, .child known other ?_⟩
  rw [above]
  exact there

theorem existingChild_none {part : String} (sound : t.Sound) (dir : t.DirAt parentIno place)
    (h : t.existingChild parentIno part = none) : ¬ t.IsDir (place ++ [part]) := by
  intro there
  obtain ⟨ino, child, known, kind, at'⟩ := there
  have other := at'.ne_root (by simp)
  obtain ⟨above, at'', same⟩ := at'.eq_append known other
  obtain ⟨rfl, name⟩ := List.append_inj' same rfl
  obtain ⟨parent, present, isDir, member⟩ := sound.parent _ _ known other
  obtain rfl := sound.oneDir _ _ _ dir ⟨parent, present, isDir, at''⟩
  unfold existingChild at h
  rw [present] at h
  have none := List.find?_eq_none.1 h ino member
  rw [known] at none
  exact none (by simp [kind, List.cons.inj name])

/-- What making sure of a directory leaves. -/
structure Ensured (t : VfsNodes) (leaves : List Leaf) (dirs : List (List String))
    (place : List String) (made : Nat × VfsNodes) : Prop where
  ext : t.Extends made.2
  built : made.2.Built leaves (dirs ++ [place])
  dir : made.2.DirAt made.1 place

theorem Built.ensureDir (h : t.Built leaves dirs) (dir : t.DirAt parentIno place) (part : String)
    (mtime : UInt64) :
    t.Ensured leaves dirs (place ++ [part]) (VfsNodes.ensureDir mtime (parentIno, t) part) := by
  unfold VfsNodes.ensureDir
  cases found : t.existingChild parentIno part with
  | some ino =>
    have there := existingChild_some h.sound.toLinked dir found
    exact ⟨.refl t, h.known ⟨ino, there⟩, there⟩
  | none =>
    have free := existingChild_none h.sound dir found
    have n := node_directory part mtime
    have new := at_add h.sound.toLinked dir n
    exact ⟨extends_add h.sound.toLinked dir, h.addDir dir n free, _, new.1, rfl, new.2⟩

theorem Built.ensureDirPath (h : t.Built leaves dirs) (dir : t.DirAt parentIno place)
    (parts : List String) (mtime : UInt64) :
    t.Ensured leaves dirs (place ++ parts) (t.ensureDirPath parentIno parts mtime) := by
  induction parts generalizing t dirs parentIno place with
  | nil =>
    rw [List.append_nil]
    exact ⟨.refl t, h.known ⟨parentIno, dir⟩, dir⟩
  | cons part parts ih =>
    have first := h.ensureDir dir part mtime
    have rest := ih first.built first.dir
    rw [List.append_assoc, List.singleton_append] at rest
    refine ⟨first.ext.trans rest.ext, rest.built.congr fun q => ?_, rest.dir⟩
    constructor
    · intro known
      obtain ⟨d, member, front⟩ := known
      simp only [List.append_assoc, List.mem_append, List.mem_singleton] at member
      rcases member with member | rfl | rfl
      · exact ⟨d, List.mem_append_left _ member, front⟩
      · refine ⟨_, List.mem_append_right _ (List.mem_singleton_self _), front.trans ?_⟩
        exact List.prefix_append_right_inj _ |>.2 ⟨parts, rfl⟩
      · exact ⟨_, List.mem_append_right _ (List.mem_singleton_self _), front⟩
    · intro known
      obtain ⟨d, member, front⟩ := known
      refine ⟨d, ?_, front⟩
      simp only [List.append_assoc, List.mem_append, List.mem_singleton] at member ⊢
      cases member with
      | inl member => exact .inl member
      | inr last => exact .inr (.inr last)

end Built

end VfsNodes

end OosLite
