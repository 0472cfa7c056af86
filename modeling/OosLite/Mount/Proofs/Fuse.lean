import OosLite.Engine.Proofs.SnapshotRuns
import OosLite.Mount.Fuse
import OosLite.Mount.Proofs.Listings
import OosLite.Vfs.Proofs.MountedRuns

/-!
# What a mounted file system shows

A directory is listed as it is however small the pages, and a file is read as it was stored however
small the pieces.
-/

namespace OosLite

open VfsNodes

namespace Fuse

/-! ## Pages of a directory -/

section Fill

variable {full : List DirEntry → DirEntry → Bool}

theorem exists_fill (reply entries : List DirEntry) :
    ∃ page, fill full reply entries = reply ++ page ∧ page <+: entries := by
  induction entries generalizing reply with
  | nil => exact ⟨[], (List.append_nil reply).symm, List.prefix_rfl⟩
  | cons e rest ih =>
    rw [fill]
    split
    · exact ⟨[], (List.append_nil reply).symm, List.nil_prefix⟩
    · obtain ⟨page, filled, front⟩ := ih (reply ++ [e])
      refine ⟨e :: page, ?_, List.cons_prefix_cons.2 ⟨rfl, front⟩⟩
      rw [filled, List.append_assoc]
      rfl

/-- A page is a front of what is left. -/
theorem fill_prefix (entries : List DirEntry) : fill full [] entries <+: entries := by
  obtain ⟨page, filled, front⟩ := @exists_fill full [] entries
  rw [filled]
  exact front

/-- It is empty only where nothing is left. -/
theorem fill_eq_nil (room : ∀ e, full [] e = false) {entries : List DirEntry}
    (none : fill full [] entries = []) : entries = [] := by
  cases entries with
  | nil => rfl
  | cons e rest =>
    rw [fill, room e, if_neg Bool.false_ne_true] at none
    obtain ⟨page, filled, -⟩ := @exists_fill full ([] ++ [e]) rest
    rw [filled] at none
    cases none

end Fill

section Listing

variable {t : VfsNodes} {ino : Nat} {dir : VfsNode} {entries : List VfsNode}

/-- The offset of an entry is the number of entries up to it. -/
theorem offset_fullList {i : Nat} {e : DirEntry} (h : (fullList dir entries)[i]? = some e) :
    e.offset = (i : Int) + 1 := by
  unfold fullList at h
  rw [List.getElem?_map, List.getElem?_zipIdx, Option.map_map] at h
  obtain ⟨x, -, rfl⟩ := Option.map_eq_some_iff.1 h
  simp

theorem readdir_eq_ok {full : List DirEntry → DirEntry → Bool} {offset : Int} {page : List DirEntry}
    (h : readdir t full ino offset = .ok page) : ∃ dir entries, t.getNode ino = some dir ∧
      dir.kind = .directory ∧ t.readdir ino = some entries ∧
        page = fill full [] ((fullList dir entries).drop (asUsize offset)) := by
  unfold readdir at h
  split at h
  · cases h
  rename_i dir found
  split at h
  · cases h
  rename_i kind
  split at h
  · cases h
  rename_i entries listed
  exact ⟨dir, entries, found, not_not.1 kind, listed, (Except.ok.inj h).symm⟩

theorem Pages.isDirectory {offset : Int} {pages : List (List DirEntry)} (h : Pages t ino offset pages) :
    ∃ dir entries, t.getNode ino = some dir ∧ dir.kind = .directory ∧ t.readdir ino = some entries := by
  cases h with
  | ended room reads | page room reads last rest =>
    obtain ⟨dir, entries, found, kind, listed, -⟩ := readdir_eq_ok reads
    exact ⟨dir, entries, found, kind, listed⟩

theorem asUsize_ofNat (n : Nat) : asUsize n = n := by
  unfold asUsize
  rw [if_neg (by omega), Int.toNat_natCast]

/-- However the pages are cut, they are the entries from the offset on, and no page is empty. -/
theorem Pages.flatten (found : t.getNode ino = some dir) (listed : t.readdir ino = some entries)
    {offset : Int} {pages : List (List DirEntry)} (h : Pages t ino offset pages) {n : Nat}
    (at' : offset = n) : pages.flatten = (fullList dir entries).drop n ∧ ∀ page ∈ pages, page ≠ [] := by
  induction h generalizing n with
  | ended room reads =>
    obtain ⟨dir', entries', found', -, listed', same⟩ := readdir_eq_ok reads
    obtain rfl : dir' = dir := Option.some.inj (found'.symm.trans found)
    obtain rfl : entries' = entries := Option.some.inj (listed'.symm.trans listed)
    rw [at', asUsize_ofNat] at same
    rw [fill_eq_nil room same.symm]
    exact ⟨rfl, fun _ never => absurd never List.not_mem_nil⟩
  | @page full offset page last rest room reads ends later ih =>
    obtain ⟨dir', entries', found', -, listed', same⟩ := readdir_eq_ok reads
    obtain rfl : dir' = dir := Option.some.inj (found'.symm.trans found)
    obtain rfl : entries' = entries := Option.some.inj (listed'.symm.trans listed)
    rw [at', asUsize_ofNat] at same
    obtain ⟨left, whole⟩ : page <+: (fullList dir' entries').drop n := same ▸ fill_prefix _
    have nonempty : page ≠ [] := by
      rintro rfl
      cases ends
    have length := List.length_pos_iff.2 nonempty
    have place : (fullList dir' entries')[n + (page.length - 1)]? = some last := by
      rw [← List.getElem?_drop, ← whole, List.getElem?_append_left (by omega), ← ends,
        List.getLast?_eq_getElem?]
    have next : last.offset = (n + page.length : Nat) := by
      rw [offset_fullList place]
      omega
    obtain ⟨rest', others⟩ := ih next
    constructor
    · rw [List.flatten_cons, rest', ← List.drop_drop, ← whole, List.drop_left]
    · intro page' there
      rcases List.mem_cons.1 there with rfl | there
      · exact nonempty
      · exact others page' there

/-- The entries of a directory, without their offsets. -/
theorem map_fullList {α : Type} (g : Nat → VfsNodeType → String → α) :
    (fullList dir entries).map (fun e => g e.ino e.kind e.name) =
      g dir.ino .directory "." :: g dir.parentIno .directory ".." ::
        entries.map fun c => g c.ino c.kind c.name := by
  unfold fullList
  rw [List.map_map]
  have through : (fun e => g e.ino e.kind e.name) ∘ (fun e : (Nat × VfsNodeType × String) × Nat =>
      (⟨e.1.1, e.2 + 1, e.1.2.1, e.1.2.2⟩ : DirEntry)) = (fun x => g x.1 x.2.1 x.2.2) ∘ Prod.fst := rfl
  rw [through, ← List.map_map, List.zipIdx_map_fst]
  simp

theorem getattr_eq {node : VfsNode} (found : t.getNode ino = some node) :
    getattr t ino = .ok (nodeToAttr node) := by
  rw [getattr, found]

/-- The inodes of the entries are those of the directory, of its parent and of its children. -/
theorem inos_fullList (linked : t.Linked) (found : t.getNode ino = some dir) :
    (fullList dir (dir.children.filterMap t.getNode)).map DirEntry.ino =
      ino :: dir.parentIno :: dir.children := by
  have known := @map_fullList dir (dir.children.filterMap t.getNode) _ fun ino _ _ => ino
  rw [show DirEntry.ino = fun e => e.ino from rfl, known, linked.ino _ _ found, List.map_filterMap]
  congr 2
  have each : ∀ c ∈ dir.children, (t.getNode c).map VfsNode.ino = some c := by
    intro c member
    obtain ⟨-, child, there, -⟩ := linked.child _ _ found c member
    rw [there, Option.map_some, linked.ino _ _ there]
  rw [List.filterMap_congr each, List.filterMap_some]

theorem mem_fullList {e : DirEntry} (h : e ∈ fullList dir entries) :
    e.kind = .directory ∧ (e.ino = dir.ino ∨ e.ino = dir.parentIno) ∨
      ∃ c ∈ entries, e.ino = c.ino ∧ e.kind = c.kind := by
  have there := List.mem_map_of_mem (f := fun e : DirEntry => (e.ino, e.kind)) h
  rw [map_fullList fun ino kind _ => (ino, kind)] at there
  rcases List.mem_cons.1 there with own | there
  · exact .inl ⟨congrArg Prod.snd own, .inl (congrArg Prod.fst own)⟩
  rcases List.mem_cons.1 there with above | there
  · exact .inl ⟨congrArg Prod.snd above, .inr (congrArg Prod.fst above)⟩
  obtain ⟨c, member, same⟩ := List.mem_map.1 there
  exact .inr ⟨c, member, congrArg Prod.fst same.symm, congrArg Prod.snd same.symm⟩

/-- Behind the two dots there are the children. -/
theorem mem_drop_fullList {e : DirEntry} (h : e ∈ (fullList dir entries).drop 2) :
    ∃ c ∈ entries, e.ino = c.ino ∧ e.kind = c.kind ∧ e.name = c.name := by
  have there := List.mem_map_of_mem (f := fun e : DirEntry => (e.ino, e.kind, e.name)) h
  rw [List.map_drop, map_fullList fun ino kind name => (ino, kind, name)] at there
  obtain ⟨c, member, same⟩ := List.mem_map.1 there
  have ino := congrArg (fun x : Nat × VfsNodeType × String => x.1) same
  have kind := congrArg (fun x : Nat × VfsNodeType × String => x.2.1) same
  have name := congrArg (fun x : Nat × VfsNodeType × String => x.2.2) same
  exact ⟨c, member, ino.symm, kind.symm, name.symm⟩

end Listing

section Entries

variable {t : VfsNodes} {ino : Nat} {dir c : VfsNode}

/-- What is above a directory is one. -/
theorem isDirectory_parent (linked : t.Linked) (rooted : t.RootedInItself) (found : t.getNode ino = some dir)
    (kind : dir.kind = .directory) {parent : VfsNode} (present : t.getNode dir.parentIno = some parent) :
    parent.kind = .directory := by
  by_cases root : ino = rootInode
  · rw [root] at found
    rw [rooted dir found, found] at present
    rw [← Option.some.inj present, kind]
  · obtain ⟨node, there, isDir, -⟩ := linked.parent _ _ found root
    rw [there] at present
    rw [← Option.some.inj present, isDir]

theorem lookup_child (linked : t.Linked) (one : t.OneNode) (found : t.getNode ino = some dir)
    (kind : dir.kind = .directory) (present : t.Has c) (other : c.ino ≠ rootInode) (parent : c.parentIno = ino) :
    lookup t ino c.name = .ok (nodeToAttr c) := by
  obtain ⟨place, there⟩ := linked.placed _ _ found
  have looked := one.lookupChild (one.sound linked) ⟨dir, found, kind, there⟩ present
    (.child present other (parent ▸ there))
  rw [lookup, looked]

/-- A link leads to a file beside it. -/
theorem readlink_child (linked : t.Linked) (links : t.Links) (one : t.OneNode)
    (found : t.getNode ino = some dir) (kind : dir.kind = .directory) (present : t.Has c)
    (parent : c.parentIno = ino) (link : c.kind = .symlink) : ∃ target attr,
      readlink t c.ino = .ok target ∧ lookup t ino target = .ok attr ∧ attr.kind = .regularFile := by
  obtain ⟨leaf, n, i, file, -, leads, there, other, beside, name, regular⟩ := links _ _ present link
  have own := linked.ino _ _ there
  have looked := lookup_child linked one found kind (linked.has there) (own ▸ other) (beside.trans parent)
  rw [name] at looked
  refine ⟨_, _, ?_, looked, regular⟩
  rw [readlink, present]
  simp only [leads]

end Entries

/-- Whatever the pages of a directory are: together they are its entries, once each, with their inodes
and kinds; where there is one node of a path, an entry is looked up by its name, and a link leads to a
file beside it. -/
theorem listing_complete (objects : List (String × ObjectId × ObjectRecord)) (snapshots : List Snapshot)
    (now : UInt64) {ino : Nat} {pages : List (List DirEntry)}
    (listed : Pages (buildFrom objects snapshots now) ino 0 pages) :
    let t := buildFrom objects snapshots now
    ∃ dir, t.getNode ino = some dir ∧
      pages.flatten.map DirEntry.ino = ino :: dir.parentIno :: dir.children ∧ dir.children.Nodup ∧
      pages.flatten.map DirEntry.name =
        "." :: ".." :: (dir.children.filterMap t.getNode).map VfsNode.name ∧
      (∀ page ∈ pages, page ≠ []) ∧
      (∀ e ∈ pages.flatten, ∃ attr, getattr t e.ino = .ok attr ∧ attr.ino = e.ino ∧ attr.kind = e.kind) ∧
      (t.OneNode → ∀ e ∈ pages.flatten.drop 2, lookup t ino e.name = getattr t e.ino ∧
        (e.kind = .symlink → ∃ target attr, readlink t e.ino = .ok target ∧
          lookup t ino target = .ok attr ∧ attr.kind = .regularFile)) := by
  intro t
  obtain ⟨linked, rooted, links⟩ : t.Linked ∧ t.RootedInItself ∧ t.Links :=
    buildFrom_linked objects snapshots now
  obtain ⟨dir, entries, found, kind, read⟩ := listed.isDirectory
  have has := linked.has found
  have own := linked.ino _ _ found
  have all := exists_readdir has kind
  rw [own] at all
  obtain rfl : entries = dir.children.filterMap t.getNode := Option.some.inj (read.symm.trans all)
  obtain ⟨whole, nonempty⟩ := listed.flatten found read (n := 0) rfl
  rw [List.drop_zero] at whole
  have child {c : VfsNode} (member : c ∈ dir.children.filterMap t.getNode) :
      t.Has c ∧ c.ino ≠ rootInode ∧ c.parentIno = ino := by
    obtain ⟨i, member, there⟩ := List.mem_filterMap.1 member
    obtain ⟨other, child, there', parent⟩ := linked.child _ _ found i member
    obtain rfl : child = c := Option.some.inj (there'.symm.trans there)
    exact ⟨linked.has there, linked.ino _ _ there ▸ other, parent⟩
  refine ⟨dir, found, ?_, linked.nodup _ _ found, ?_, nonempty, ?_, ?_⟩
  · rw [whole, inos_fullList linked found]
  · rw [whole]
    exact (map_fullList fun _ _ name => name).trans rfl
  · intro e there
    rw [whole] at there
    rcases mem_fullList there with ⟨isDir, same | same⟩ | ⟨c, member, same, sameKind⟩
    · refine ⟨_, getattr_eq (same ▸ has), same.symm, kind.trans isDir.symm⟩
    · obtain ⟨parent, present⟩ := linked.getNode_parent rooted found
      have isDir' := isDirectory_parent linked rooted found kind present
      exact ⟨_, getattr_eq (same ▸ present), (linked.ino _ _ present).trans same.symm, isDir'.trans isDir.symm⟩
    · exact ⟨_, getattr_eq (same ▸ (child member).1), same.symm, sameKind.symm⟩
  · intro one e there
    rw [whole] at there
    obtain ⟨c, member, sameIno, sameKind, sameName⟩ := mem_drop_fullList there
    obtain ⟨present, other, parent⟩ := child member
    rw [sameIno, sameName, getattr_eq present]
    refine ⟨lookup_child linked one found kind present other parent, fun link => ?_⟩
    exact readlink_child linked links one found kind present parent (sameKind.symm.trans link)

namespace FuseSample

open EngineSample

/-- The tree over a store with one file of two bytes. -/
def tree : VfsNodes := build env written.metadataStore 0

theorem shown_written : written.metadataStore.SnapshotsRead env ∧ written.metadataStore.LiesApart env := by
  refine ⟨TreeSample.snapshotsRead (s := written) (by decide +kernel), ?_⟩
  have apart : Apart (written.metadataStore.leaves env) (written.metadataStore.directories env) := by
    decide +kernel
  exact apart

theorem oneNode_tree : tree.OneNode := by
  have built := @built_build env written.metadataStore 0 shown_written.1.nodup
  exact ((distinct_iff_apart built).2 shown_written.2).oneNode built.sound

/-- A buffer for three entries. -/
def full (reply : List DirEntry) (_ : DirEntry) : Bool := 3 ≤ reply.length

/-- The directory of the versions, three entries at a time. -/
def versionPages : { pages // Pages tree 4 0 pages } :=
  ⟨[[⟨4, 1, .directory, "."⟩, ⟨1, 2, .directory, ".."⟩, ⟨6, 3, .regularFile, "report@v1"⟩],
    [⟨7, 4, .symlink, "report@latest"⟩]], by
    have room (e : DirEntry) : full [] e = false := rfl
    have first : readdir tree full 4 0 = .ok
        [⟨4, 1, .directory, "."⟩, ⟨1, 2, .directory, ".."⟩, ⟨6, 3, .regularFile, "report@v1"⟩] := by
      decide +kernel
    have second : readdir tree full 4 3 = .ok [⟨7, 4, .symlink, "report@latest"⟩] := by decide +kernel
    have none : readdir tree full 4 4 = .ok [] := by decide +kernel
    exact .page room first rfl (.page room second rfl (.ended room none))⟩

end FuseSample

open FuseSample in
/-- The versions of a file, and the link to the last of them. -/
theorem listing_complete_versions :
    (∃ dir, tree.getNode 4 = some dir ∧ dir.children = [6, 7]) ∧
      ∀ e ∈ versionPages.1.flatten.drop 2, lookup tree 4 e.name = getattr tree e.ino := by
  obtain ⟨dir, found, inos, -, -, -, -, looked⟩ := listing_complete _ _ 0 versionPages.2
  refine ⟨⟨dir, found, ?_⟩, fun e there => (looked oneNode_tree e there).1⟩
  exact (List.cons.inj (List.cons.inj inos).2).2.symm

/-! ## Paths -/

section Paths

variable {t : VfsNodes} {ino : Nat} {node : VfsNode} {place : List String}

/-- A node is found name by name. -/
theorem walk_of_at (sound : t.Sound) (one : t.OneNode) (found : t.getNode ino = some node)
    (there : t.At ino place) : walk t place = .ok ino := by
  induction there generalizing node with
  | root => rfl
  | @child ino known place known' other above ih =>
    obtain ⟨parent, present, kind, -⟩ := sound.parent _ _ known' other
    have looked := one.lookupChild sound ⟨parent, present, kind, above⟩ known' (.child known' other above)
    rw [walk, List.foldlM_append]
    show (walk t place >>= fun parent => _) = _
    rw [ih present]
    show ((lookup t known.parentIno known.name).map FileAttr.ino >>= fun ino => pure ino) = _
    rw [lookup, looked]
    exact congrArg Except.ok (sound.ino _ _ known')

end Paths

/-! ## Pieces of a file -/

section Pieces

variable {env : Env} {files : Set Bytes} {m : MountedRun} {t : VfsNodes} {ino : Nat} {node : VfsNode}
  {id : String} {content : Bytes}

/-- The range that a read of a stored file asks for. -/
theorem readRequest_eq (found : t.getNode ino = some node) (kind : node.kind = .regularFile)
    (manifest : node.manifestId = some id) (n : Nat) (size : UInt32) :
    readRequest t ino n size = .ok (some ⟨id, UInt64.ofNat n, size.toUInt64⟩) := by
  unfold readRequest
  rw [if_neg (by omega), found]
  simp only [kind, manifest, ne_eq, not_true_eq_false, if_false, Option.map_some, Int.toNat_natCast]

/-- What a reader returned is a reply. -/
theorem Replies.of_answer (found : t.getNode ino = some node) (kind : node.kind = .regularFile)
    (manifest : node.manifestId = some id) {a : RangeAnswer} (there : a ∈ m.answers) {n : Nat}
    {size : UInt32} (asked : a.request = ⟨id, UInt64.ofNat n, size.toUInt64⟩) :
    Replies t m ino n size (readReply a.result) := by
  unfold Replies
  rw [readRequest_eq found kind manifest]
  exact ⟨a, there, asked, rfl⟩

/-- What a read of a stored file is replied to with. -/
theorem Replies.eq_take (found : t.getNode ino = some node) (kind : node.kind = .regularFile)
    (manifest : node.manifestId = some id) (correct : ∀ a ∈ m.answers, a.Correct env files) {n : Nat}
    (within : n < 2 ^ 64) {size : UInt32} {data : Bytes} (h : Replies t m ino n size (.ok data)) :
    size = 0 ∧ data = [] ∨
      ∃ content, ContentOf env files id content ∧ data = (content.drop n).take size.toNat := by
  unfold Replies at h
  rw [readRequest_eq found kind manifest] at h
  obtain ⟨a, there, asked, replied⟩ := h
  have result : a.result = .ok data := by
    cases result : a.result with
    | error e =>
      rw [result] at replied
      cases replied
    | ok data' =>
      rw [result] at replied
      exact congrArg Except.ok (Except.ok.inj replied).symm
  rcases (correct a there).gives data result with ⟨zero, rfl⟩ | ⟨-, content, own, rfl⟩
  · rw [asked] at zero
    refine .inl ⟨?_, rfl⟩
    rw [← UInt32.toNat_inj, ← UInt32.toNat_toUInt64]
    exact congrArg UInt64.toNat zero
  · rw [asked] at own ⊢
    refine .inr ⟨content, own, ?_⟩
    rw [rangeOf, UInt64.toNat_ofNat_of_lt' within, UInt32.toNat_toUInt64]

/-- However the pieces are cut, they are the content from the offset on. -/
theorem Pieces.flatten (found : t.getNode ino = some node) (kind : node.kind = .regularFile)
    (manifest : node.manifestId = some id) (correct : ∀ a ∈ m.answers, a.Correct env files)
    (distinct : NoCollision env (dataOf env files)) (own : ContentOf env files id content)
    (small : content.length < 2 ^ 64) {n : Nat} {pieces : List Bytes} (h : Pieces t m ino n pieces)
    (within : n ≤ content.length) : pieces.flatten = content.drop n := by
  induction h with
  | @ended n size more replied =>
    rcases Replies.eq_take found kind manifest correct (by omega) replied with ⟨zero, -⟩ | ⟨content', own', nothing⟩
    · exact absurd zero more
    · obtain rfl := own'.unique distinct own
      rcases List.take_eq_nil_iff.1 nothing.symm with zero | nothing
      · exact absurd (UInt32.toNat_inj.1 zero) more
      · exact nothing.symm
  | @piece n size data rest replied later ih =>
    have front : data <+: content.drop n := by
      rcases Replies.eq_take found kind manifest correct (by omega) replied with ⟨-, rfl⟩ | ⟨content', own', rfl⟩
      · exact List.nil_prefix
      · obtain rfl := own'.unique distinct own
        exact List.take_prefix _ _
    have length := front.length_le
    rw [List.length_drop] at length
    rw [List.flatten_cons, ih (by omega), ← List.drop_drop]
    obtain ⟨left, whole⟩ := front
    rw [← whole, List.drop_left]

/-- A file that was read to its end has a content. -/
theorem Pieces.exists_content (found : t.getNode ino = some node) (kind : node.kind = .regularFile)
    (manifest : node.manifestId = some id) (correct : ∀ a ∈ m.answers, a.Correct env files) {n : Nat}
    {pieces : List Bytes} (h : Pieces t m ino n pieces) (start : n = 0) :
    ∃ content, ContentOf env files id content := by
  induction h with
  | @ended n size more replied =>
    rcases Replies.eq_take found kind manifest correct (by omega) replied with ⟨zero, -⟩ | ⟨content, own, -⟩
    · exact absurd zero more
    · exact ⟨content, own⟩
  | @piece n size data rest replied later ih =>
    rcases Replies.eq_take found kind manifest correct (by omega) replied with ⟨-, rfl⟩ | ⟨content, own, -⟩
    · exact ih start
    · exact ⟨content, own⟩

end Pieces

/-- Every file that the tree is to show, where no two lie in one place: its path is looked up name by
name, it is opened, and pieces of it that are read to its end, of any sizes and while anything else
goes on, are the whole content that was stored. -/
theorem mounted_file_reads_whole {env : Env} {f : Faults} {tables : MetadataStore} {m : MountedRun}
    (read : tables.SnapshotsRead env) (apart : tables.LiesApart env) (now : UInt64) {leaf : Leaf}
    (listed : leaf ∈ tables.leaves env) (file : leaf.kind = .regularFile)
    (h : MountedReachable env f (fun act => act.faults.OnlyMetadata) m) (only : f.OnlyMetadata)
    (distinct : NoCollision env (dataOf env m.run.history.files))
    (small : ∀ content ∈ m.run.history.files, content.length < 2 ^ 64) :
    let t := build env tables now
    ∃ ino attr, walk t leaf.path = .ok ino ∧ getattr t ino = .ok attr ∧ attr.kind = .regularFile ∧
      attr.size = leaf.size ∧ openFile t ino 0 = .ok () ∧
      ∀ pieces, Pieces t m ino 0 pieces → ∀ id, leaf.manifestId = some id →
        ContentOf env m.run.history.files id pieces.flatten := by
  intro t
  have built : t.Built (tables.leaves env) (tables.directories env) := built_build now read.nodup
  have one := ((distinct_iff_apart built).2 apart).oneNode built.sound
  have sound := built.sound
  obtain ⟨shown, all, laid, -⟩ := built
  obtain ⟨e, there, rfl⟩ := List.mem_map.1 (all ▸ listed)
  obtain ⟨⟨node, found, kind, size, manifest, place⟩, -⟩ := laid.leaf e there
  have regular := kind.trans file
  refine ⟨e.1, nodeToAttr node, walk_of_at sound one found place, getattr_eq found, regular, size, ?_, ?_⟩
  · rw [openFile, if_neg (by decide), found]
    exact if_pos regular
  · intro pieces pieced id own
    have correct := (h.sound only distinct small subset_rfl).2.answers
    have manifest' := manifest.trans own
    obtain ⟨content, stored⟩ := pieced.exists_content found regular manifest' correct rfl
    have whole := pieced.flatten found regular manifest' correct distinct stored (small _ stored.1)
      (Nat.zero_le _)
    rw [whole, List.drop_zero]
    exact stored

/-! ## A mounted store -/

namespace FuseSample

open EngineSample

def contentId : String := (manifestOf env [7, 8] 0).contentId

/-- A read of some bytes of the file. -/
def request (offset size : UInt64) : RangeRequest := ⟨contentId, offset, size⟩

/-- What the read gives, and what it leaves. -/
def reading (q : RangeRequest) (t : TreeState) : Result Bytes × TreeState :=
  VfsTree.exec env answers (VfsTree.readRange q.manifestId q.offset q.size) t

def first : Result Bytes × TreeState := reading (request 0 1) ⟨written, .new 0⟩

def second : Result Bytes × TreeState := reading (request 1 4) first.2

def third : Result Bytes × TreeState := reading (request 2 4) second.2

/-- What a read is answered with. -/
def answer (q : RangeRequest) (t : TreeState) : RangeAnswer :=
  ⟨q, t.engine.metadataStore, (reading q t).2.engine.metadataStore, (reading q t).1⟩

theorem reads {g : EngineHistory} {replies : List RangeAnswer} {t : TreeState} (q : RangeRequest)
    (h : MountedReachable env (.all false) (fun act => act.faults.OnlyMetadata)
      ⟨⟨.running t.engine, g⟩, some t.cache, [], replies⟩) :
    MountedReachable env (.all false) (fun act => act.faults.OnlyMetadata)
      ⟨⟨.running (reading q t).2.engine, g⟩, some (reading q t).2.cache, [], answer q t :: replies⟩ :=
  h.readRange q (VfsTree.returns_exec answers _ t)

/-- The mounted store after three reads. -/
def session (g : EngineHistory) : MountedRun :=
  ⟨⟨.running third.2.engine, g⟩, some third.2.cache, [],
    [answer (request 2 4) second.2, answer (request 1 4) first.2, answer (request 0 1) ⟨written, .new 0⟩]⟩

theorem reachable_session : ∃ g : EngineHistory, (∀ content ∈ g.files, content ∈ [[7, 8]]) ∧
    MountedReachable env (.all false) (fun act => act.faults.OnlyMetadata) (session g) := by
  obtain ⟨g, reachable, within⟩ : Reached [[7, 8]] written :=
    (reached_opened _).after reporting fun d there => by simp [mem_files_put there]
  have mounted : MountedReachable env (.all false) (fun act => act.faults.OnlyMetadata)
      ⟨⟨.running written, g⟩, some (.new 0), [], []⟩ := reachable.unmounted.step (.mounted rfl rfl) trivial
  exact ⟨g, within, reads (t := second.2) (request 2 4) (reads (t := first.2) (request 1 4)
    (reads (t := ⟨written, .new 0⟩) (request 0 1) mounted))⟩

theorem pieces_session (g : EngineHistory) : Pieces tree (session g) 5 0 [[7], [8]] := by
  have known : (tree.getNode 5).any fun node =>
      node.kind = .regularFile && node.manifestId = some contentId := by decide +kernel
  obtain ⟨node, found, same⟩ := (Option.any_eq_true ..).1 known
  obtain ⟨kind, manifest⟩ := (Bool.and_eq_true_iff ..).1 same
  have reply (a : RangeAnswer) (n : Nat) (size : UInt32) (data : Bytes) (there : a ∈ (session g).answers)
      (asked : a.request = ⟨contentId, UInt64.ofNat n, size.toUInt64⟩) (result : a.result = .ok data) :
      Replies tree (session g) 5 n size (.ok data) := by
    have replied := Replies.of_answer found (of_decide_eq_true kind) (of_decide_eq_true manifest) there asked
    rw [result] at replied
    exact replied
  have one := reply (answer (request 0 1) ⟨written, .new 0⟩) 0 1 [7] (by simp [session]) rfl (by decide +kernel)
  have two := reply (answer (request 1 4) first.2) 1 4 [8] (by simp [session]) rfl (by decide +kernel)
  have none := reply (answer (request 2 4) second.2) 2 4 [] (by simp [session]) rfl (by decide +kernel)
  exact .piece one (.piece two (.ended (by decide) none))

end FuseSample

open EngineSample FuseSample in
/-- A file of two bytes, byte by byte. -/
theorem mounted_file_reads_whole_report : ∃ (m : MountedRun) (ino : Nat),
    walk tree ["current", "report"] = .ok ino ∧ Pieces tree m ino 0 [[7], [8]] ∧
      ContentOf env m.run.history.files contentId [7, 8] := by
  obtain ⟨g, within, reached⟩ := reachable_session
  obtain ⟨leaf, listed, path, file, own⟩ : ∃ leaf ∈ written.metadataStore.leaves env,
      leaf.path = ["current", "report"] ∧ leaf.kind = .regularFile ∧ leaf.manifestId = some contentId := by
    decide +kernel
  have small (content : Bytes) (stored : content ∈ g.files) : content.length < 2 ^ 64 := by
    rw [List.mem_singleton.1 (within content stored)]
    decide
  obtain ⟨ino, attr, walked, -, -, -, -, whole⟩ := mounted_file_reads_whole shown_written.1
    shown_written.2 0 listed file reached onlyMetadata
    (noCollision [[7, 8]] within (by decide +kernel)) small
  rw [path] at walked
  have place : walk tree ["current", "report"] = .ok 5 := by decide +kernel
  obtain rfl : 5 = ino := Except.ok.inj (place.symm.trans walked)
  exact ⟨session g, 5, place, pieces_session g, whole _ (pieces_session g) _ own⟩

end Fuse

end OosLite
