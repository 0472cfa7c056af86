import OosLite.Metadata.Store

/-!
# The mounted tree

`VfsTree::build`: the names, the snapshots and the versions of a store as a tree of directories,
files and links; and the lookup of paths in it.
-/

namespace OosLite

inductive VfsNodeType where
  | directory
  | regularFile
  | symlink
  deriving DecidableEq

structure VfsNode where
  ino : Nat
  parentIno : Nat
  name : String
  kind : VfsNodeType
  size : UInt64
  mtime : UInt64
  manifestId : Option String
  symlinkTarget : Option String
  children : List Nat
  deriving DecidableEq

/-- The nodes of a tree, and the number the next one gets. -/
structure VfsNodes where
  nodes : Std.ExtTreeMap Nat VfsNode
  nextIno : Nat

def rootInode : Nat := 1
def currentInode : Nat := 2
def snapshotsInode : Nat := 3
def historyInode : Nat := 4

namespace VfsNode

/-- A directory without entries. -/
def directory (name : String) (mtime : UInt64) (ino parentIno : Nat) : VfsNode where
  ino
  parentIno
  name
  kind := .directory
  size := 0
  mtime
  manifestId := none
  symlinkTarget := none
  children := []

/-- A file with the content of a manifest. -/
def regularFile (name manifestId : String) (size mtime : UInt64) (ino parentIno : Nat) :
    VfsNode where
  ino
  parentIno
  name
  kind := .regularFile
  size
  mtime
  manifestId := some manifestId
  symlinkTarget := none
  children := []

/-- A link to another name in its directory. -/
def symlink (name target : String) (mtime : UInt64) (ino parentIno : Nat) : VfsNode where
  ino
  parentIno
  name
  kind := .symlink
  size := UInt64.ofNat (Text.utf8 target).length
  mtime
  manifestId := none
  symlinkTarget := some target
  children := []

end VfsNode

namespace VfsNodes

variable (t : VfsNodes)

/-- `get_node`. -/
def getNode (ino : Nat) : Option VfsNode := t.nodes[ino]?

/-- A new node, at the end of the entries of its parent. -/
def add (parentIno : Nat) (node : Nat → Nat → VfsNode) : Nat × VfsNodes :=
  let nodes := t.nodes.insert t.nextIno (node t.nextIno parentIno)
  let nodes := match nodes[parentIno]? with
    | some parent => nodes.insert parentIno { parent with children := parent.children ++ [t.nextIno] }
    | none => nodes
  (t.nextIno, ⟨nodes, t.nextIno + 1⟩)

/-- The entry of a directory that is a directory of this name. -/
def existingChild (ino : Nat) (part : String) : Option Nat :=
  match t.getNode ino with
  | none => none
  | some node => node.children.find? fun childIno =>
    match t.getNode childIno with
    | some child => child.kind = .directory && child.name = part
    | none => false

/-- The loop body of `ensure_dir_path`. -/
def ensureDir (mtime : UInt64) (place : Nat × VfsNodes) (part : String) : Nat × VfsNodes :=
  match place.2.existingChild place.1 part with
  | some ino => (ino, place.2)
  | none => place.2.add place.1 (.directory part mtime)

/-- `ensure_dir_path`. -/
def ensureDirPath (parentIno : Nat) (dirParts : List String) (mtime : UInt64) : Nat × VfsNodes :=
  dirParts.foldl (ensureDir mtime) (parentIno, t)

/-- `insert_path`. -/
def insertPath (parentIno : Nat) (parts : List String) (manifestId : String)
    (size mtime : UInt64) : VfsNodes :=
  match parts.getLast? with
  | none => t
  | some fileName =>
    let dir := t.ensureDirPath parentIno parts.dropLast mtime
    (dir.2.add dir.1 (.regularFile fileName manifestId size mtime)).2

/-! ## Building -/

/-- The parts of a name between separators of either kind, without empty ones. -/
def nameParts (name : String) : List String :=
  ((name.toList.splitOnP fun c => c = '/' || c = '\\').map String.ofList).filter (· ≠ "")

/-- The root and the three directories in it. -/
def initial (now : UInt64) : VfsNodes where
  nodes := (∅ : Std.ExtTreeMap Nat VfsNode)
    |>.insert rootInode { VfsNode.directory "/" now rootInode rootInode with
        children := [currentInode, snapshotsInode, historyInode] }
    |>.insert currentInode (.directory "current" now currentInode rootInode)
    |>.insert snapshotsInode (.directory "snapshots" now snapshotsInode rootInode)
    |>.insert historyInode (.directory "history" now historyInode rootInode)
  nextIno := 5

/-- The loop body for `/current`. -/
def addCurrent (named : String × ObjectId × ObjectRecord) : VfsNodes :=
  match named.2.2.latest with
  | some latest => t.insertPath currentInode (nameParts named.1) latest.manifestId latest.sizeBytes
      latest.createdAt
  | none => t

/-- The loop body for `/snapshots`. -/
def addSnapshot (snap : Snapshot) : VfsNodes :=
  let dir := t.add snapshotsInode (.directory snap.label snap.createdAt)
  snap.entries.foldl (fun t entry =>
    t.insertPath dir.1 (nameParts entry.name) entry.manifestId entry.sizeBytes snap.createdAt) dir.2

/-- The loop body for the versions of one object. -/
def addVersion (dirIno : Nat) (leafFile : String) (v : ObjectVersion) : VfsNodes :=
  (t.add dirIno (.regularFile (leafFile ++ "@v" ++ toString v.version) v.manifestId v.sizeBytes
    v.createdAt)).2

/-- The highest version of a record, or 0. -/
def latestVer (versions : List ObjectVersion) : UInt32 :=
  versions.foldl (fun latest v => if v.version > latest then v.version else latest) 0

/-- The loop body for `/history`. -/
def addHistory (now : UInt64) (named : String × ObjectId × ObjectRecord) : VfsNodes :=
  match (nameParts named.1).getLast? with
  | none => t
  | some leafFile =>
    let dir := t.ensureDirPath historyInode (nameParts named.1).dropLast now
    let t := named.2.2.versions.foldl (fun t v => t.addVersion dir.1 leafFile v) dir.2
    let latestVer := latestVer named.2.2.versions
    if latestVer > 0 then
      (t.add dir.1 (.symlink (leafFile ++ "@latest")
        (leafFile ++ "@v" ++ toString latestVer) now)).2
    else t

end VfsNodes

/-- The objects and the snapshots that a tree is built from; nothing of what cannot be listed. -/
def MetadataStore.shownObjects (m : MetadataStore) : List (String × ObjectId × ObjectRecord) :=
  m.listNamedObjects.toOption.getD []

def MetadataStore.shownSnapshots (env : Env) (m : MetadataStore) : List Snapshot :=
  (m.listSnapshots env).toOption.getD []

/-- `VfsTree::build`: the nodes. -/
def VfsNodes.build (env : Env) (m : MetadataStore) (now : UInt64) : VfsNodes :=
  let t := m.shownObjects.foldl addCurrent (initial now)
  let t := (m.shownSnapshots env).foldl addSnapshot t
  m.shownObjects.foldl (fun t named => t.addHistory now named) t

namespace VfsNodes

variable (t : VfsNodes)

/-! ## Lookup -/

/-- `lookup_child`. -/
def lookupChild (parentIno : Nat) (name : String) : Option VfsNode := do
  let parent ← t.getNode parentIno
  if parent.kind ≠ .directory then none
  else parent.children.findSome? fun childIno => (t.getNode childIno).filter fun child => child.name = name

/-- `readdir`. -/
def readdir (ino : Nat) : Option (List VfsNode) := do
  let node ← t.getNode ino
  if node.kind ≠ .directory then none else some (node.children.filterMap t.getNode)

/-- The loop body of `resolve_path`. -/
def resolvePart (node : VfsNode) (part : String) : Option VfsNode :=
  if part = "" ∨ part = "." then some node
  else if part = ".." then t.getNode node.parentIno
  else do
    let child ← t.lookupChild node.ino part
    match child.kind, child.symlinkTarget with
    | .symlink, some target => t.lookupChild child.parentIno target
    | _, _ => some child

/-- `resolve_path`. -/
def resolvePath (path : String) : Option VfsNode :=
  let clean := Text.trimMatches '/' path
  if clean = "" then t.getNode rootInode
  else do
    let root ← t.getNode rootInode
    (Text.split '/' clean).foldlM t.resolvePart root

end VfsNodes

end OosLite
