import OosLite.Vfs.Ranges
import OosLite.Vfs.Tree

/-!
# The file system of the kernel

`OosFuseFilesystem`: what the requests of the kernel are answered with, and how a kernel goes on from
one answer to the next: from name to name on a path, from page to page of a directory, and from
piece to piece of a file.
-/

namespace OosLite

/-- The error numbers of `libc` that are replied. -/
inductive Errno where
  | enoent
  | eacces
  | enotdir
  | eisdir
  | einval
  | eio
  deriving DecidableEq

/-- `FileAttr`, of what the nodes differ in. -/
structure FileAttr where
  ino : Nat
  size : UInt64
  blocks : UInt64
  mtime : UInt64
  kind : VfsNodeType
  perm : Nat
  nlink : Nat
  deriving DecidableEq

/-- What a directory reply is filled with; a listing goes on behind an entry at its offset. -/
structure DirEntry where
  ino : Nat
  offset : Int
  kind : VfsNodeType
  name : String
  deriving DecidableEq

namespace Fuse

/-- A reply, or an error number. -/
abbrev Reply := Except Errno

/-- `node_to_attr`. -/
def nodeToAttr (node : VfsNode) : FileAttr where
  ino := node.ino
  size := node.size
  blocks := (node.size + 511) / 512
  mtime := node.mtime
  kind := node.kind
  perm := match node.kind with
    | .directory | .symlink => 0o555
    | .regularFile => 0o444
  nlink := if node.kind = .directory then 2 else 1

variable (t : VfsNodes)

/-- `lookup`. -/
def lookup (parent : Nat) (name : String) : Reply FileAttr :=
  match t.lookupChild parent name with
  | some node => .ok (nodeToAttr node)
  | none => .error .enoent

/-- `getattr`. -/
def getattr (ino : Nat) : Reply FileAttr :=
  match t.getNode ino with
  | some node => .ok (nodeToAttr node)
  | none => .error .enoent

/-- `readlink`. -/
def readlink (ino : Nat) : Reply String :=
  match t.getNode ino with
  | some node =>
    match node.symlinkTarget with
    | some target => .ok target
    | none => .error .einval
  | none => .error .enoent

/-- `open`; the access mode is in the last two bits of the flags, and 0 is to read only. -/
def openFile (ino : Nat) (flags : UInt32) : Reply Unit :=
  if flags &&& 3 ≠ 0 then .error .eacces
  else
    match t.getNode ino with
    | some node => if node.kind = .regularFile then .ok () else .error .eisdir
    | none => .error .enoent

/-- `read` up to `read_range`: the range to read, if there is one. -/
def readRequest (ino : Nat) (offset : Int) (size : UInt32) : Reply (Option RangeRequest) :=
  if offset < 0 then .error .einval
  else
    match t.getNode ino with
    | none => .error .enoent
    | some node =>
      if node.kind ≠ .regularFile then .error .eisdir
      else .ok (node.manifestId.map fun id => ⟨id, UInt64.ofNat offset.toNat, size.toUInt64⟩)

/-- `read` behind `read_range`. -/
def readReply : Result Bytes → Reply Bytes
  | .ok bytes => .ok bytes
  | .error _ => .error .eio

/-- `offset as usize`. -/
def asUsize (offset : Int) : Nat := if offset < 0 then (offset + 2 ^ 64).toNat else offset.toNat

/-- `full_list`, with the offsets behind the entries. -/
def fullList (node : VfsNode) (entries : List VfsNode) : List DirEntry :=
  ((node.ino, VfsNodeType.directory, ".") :: (node.parentIno, VfsNodeType.directory, "..") ::
    entries.map fun child => (child.ino, child.kind, child.name)).zipIdx.map
      fun e => ⟨e.1.1, e.2 + 1, e.1.2.1, e.1.2.2⟩

/-- Entries are added until one does not fit in the buffer: `full` is what `ReplyDirectory::add`
returns. -/
def fill (full : List DirEntry → DirEntry → Bool) : List DirEntry → List DirEntry → List DirEntry
  | reply, [] => reply
  | reply, e :: rest => if full reply e then reply else fill full (reply ++ [e]) rest

/-- `readdir`. -/
def readdir (full : List DirEntry → DirEntry → Bool) (ino : Nat) (offset : Int) : Reply (List DirEntry) :=
  match t.getNode ino with
  | none => .error .enoent
  | some node =>
    if node.kind ≠ .directory then .error .enotdir
    else
      match t.readdir ino with
      | none => .error .enoent
      | some entries => .ok (fill full [] ((fullList node entries).drop (asUsize offset)))

/-! ## What a kernel asks for -/

/-- The inode at the end of a path, looked up name by name from the root. -/
def walk (path : List String) : Reply Nat :=
  path.foldlM (fun parent name => (lookup t parent name).map FileAttr.ino) rootInode

/-- The pages of a directory, from an offset on: each goes on behind the last entry of the one before,
until there is none. A buffer has room for one entry at least. -/
inductive Pages (ino : Nat) : Int → List (List DirEntry) → Prop where
  | ended {full offset} : (∀ e, full [] e = false) → readdir t full ino offset = .ok [] → Pages ino offset []
  | page {full offset page last rest} : (∀ e, full [] e = false) →
      readdir t full ino offset = .ok page → page.getLast? = some last → Pages ino last.offset rest →
      Pages ino offset (page :: rest)

/-- A read of a mounted file is replied to so, at once or with what a reader of the tree returned. -/
def Replies (m : MountedRun) (ino : Nat) (offset : Int) (size : UInt32) (reply : Reply Bytes) : Prop :=
  match readRequest t ino offset size with
  | .error e => reply = .error e
  | .ok none => reply = .ok []
  | .ok (some request) => ∃ a ∈ m.answers, a.request = request ∧ reply = readReply a.result

/-- The pieces of a file, from an offset on: each is read behind the one before, until there is
nothing more. -/
inductive Pieces (m : MountedRun) (ino : Nat) : Nat → List Bytes → Prop where
  | ended {offset : Nat} {size} : size ≠ 0 → Replies t m ino offset size (.ok []) → Pieces m ino offset []
  | piece {offset : Nat} {size data rest} : Replies t m ino offset size (.ok data) →
      Pieces m ino (offset + data.length) rest → Pieces m ino offset (data :: rest)

end Fuse

end OosLite
