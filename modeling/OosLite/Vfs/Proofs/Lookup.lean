import OosLite.Vfs.Proofs.Contents
import OosLite.Watcher.Paths
import Mathlib.Data.List.Nodup

/-!
# Lookup in a built tree

The entries of every directory differ in their names exactly if no two leaves have one path and no
leaf has the path of a directory.  Then a path leads to the one node that has it.
-/

namespace OosLite

namespace VfsNodes

/-- The entries of a directory differ in their names. -/
def Distinct (t : VfsNodes) : Prop :=
  ∀ ino nodes, t.readdir ino = some nodes → (nodes.map VfsNode.name).Nodup

/-- The leaves lie apart from each other and from the directories. -/
def Apart (leaves : List Leaf) (dirs : List (List String)) : Prop :=
  (leaves.map Leaf.path).Nodup ∧ ∀ leaf ∈ leaves, ∀ d ∈ dirs, ¬ leaf.path <+: d

instance (leaves : List Leaf) (dirs : List (List String)) : Decidable (Apart leaves dirs) :=
  inferInstanceAs (Decidable (_ ∧ _))

/-- Nodes of one place are one. -/
def OneNode (t : VfsNodes) : Prop :=
  ∀ ino ino' node node' place, t.getNode ino = some node → t.getNode ino' = some node' →
    t.At ino place → t.At ino' place → ino = ino'

variable {t : VfsNodes} {leaves : List Leaf} {dirs : List (List String)}

theorem readdir_eq_some {ino : Nat} {nodes : List VfsNode} (h : t.readdir ino = some nodes) :
    ∃ node, t.getNode ino = some node ∧ node.kind = .directory ∧
      nodes = node.children.filterMap t.getNode := by
  unfold readdir at h
  obtain ⟨node, found, h⟩ := Option.bind_eq_some_iff.1 h
  by_cases kind : node.kind = .directory
  · rw [if_neg (not_not_intro kind)] at h
    exact ⟨node, found, kind, (Option.some.inj h).symm⟩
  · rw [if_pos kind] at h
    cases h

/-- Two entries of one directory with one name. -/
theorem Distinct.oneNode (h : t.Distinct) (sound : t.Sound) : t.OneNode := by
  intro ino ino' node node' place found found' there there'
  induction there generalizing ino' node node' with
  | root =>
    by_cases root : ino' = rootInode
    · exact root.symm
    · obtain ⟨above, -, same⟩ := there'.eq_append found' root
      exact absurd same (by simp)
  | @child ino known place known' other above ih =>
    obtain rfl : known = node := Option.some.inj (known'.symm.trans found)
    have other' : ino' ≠ rootInode := there'.ne_root (by simp)
    obtain ⟨place', above', same⟩ := there'.eq_append found' other'
    obtain ⟨rfl, name⟩ := List.append_inj' same rfl
    obtain ⟨parent, present, kind, member⟩ := sound.parent _ _ found other
    obtain ⟨parent', present', -, member'⟩ := sound.parent _ _ found' other'
    obtain same := ih _ _ _ present present' above'
    rw [← same, present] at present'
    obtain rfl := Option.some.inj present'
    have listed : t.readdir known.parentIno = some (parent.children.filterMap t.getNode) := by
      simp [readdir, present, kind]
    have nodup := h _ _ listed
    have first : known ∈ parent.children.filterMap t.getNode :=
      List.mem_filterMap.2 ⟨_, member, found⟩
    have second : node' ∈ parent.children.filterMap t.getNode :=
      List.mem_filterMap.2 ⟨_, member', found'⟩
    have one := List.inj_on_of_nodup_map nodup first second (List.cons.inj name).1
    rw [← sound.ino _ _ found, ← sound.ino _ _ found', one]

theorem OneNode.distinct (h : t.OneNode) (sound : t.Sound) : t.Distinct := by
  intro ino nodes listed
  obtain ⟨parent, present, -, rfl⟩ := readdir_eq_some listed
  obtain ⟨place, there⟩ := sound.placed _ _ present
  have inos {c node} (found : t.getNode c = some node) : node.ino = c := sound.ino _ _ found
  apply List.Nodup.map_on
  · intro node member node' member' name
    obtain ⟨c, member, found⟩ := List.mem_filterMap.1 member
    obtain ⟨c', member', found'⟩ := List.mem_filterMap.1 member'
    obtain ⟨other, child, known, above⟩ := sound.child _ _ present c member
    obtain ⟨other', child', known', above'⟩ := sound.child _ _ present c' member'
    rw [found] at known
    rw [found'] at known'
    cases known
    cases known'
    have at' := At.child found other (above ▸ there)
    have at'' := At.child found' other' (above' ▸ there)
    rw [name] at at'
    have same := h _ _ _ _ _ found found' at' at''
    rw [same, found'] at found
    exact (Option.some.inj found).symm
  · apply List.Nodup.filterMap _ (sound.nodup _ _ present)
    intro c c' node member member'
    rw [← inos member, ← inos member']

/-- The entries of every directory differ in their names exactly if the leaves lie apart. -/
theorem distinct_iff_apart (built : t.Built leaves dirs) : t.Distinct ↔ Apart leaves dirs := by
  obtain ⟨shown, rfl, laid, isDir⟩ := built
  have sound := laid.sound
  have paths : (shown.map Prod.snd).map Leaf.path = shown.map fun e => e.2.path := by
    rw [List.map_map]
    rfl
  unfold Apart
  rw [paths]
  constructor
  · intro distinct
    have one := distinct.oneNode sound
    constructor
    · apply List.Nodup.map_on _ laid.inos.of_map
      intro e member e' member' path
      obtain ⟨⟨node, found, -, -, -, there⟩, -⟩ := laid.leaf e member
      obtain ⟨⟨node', found', -, -, -, there'⟩, -⟩ := laid.leaf e' member'
      rw [← path] at there'
      exact List.inj_on_of_nodup_map laid.inos member member' (one _ _ _ _ _ found found' there there')
    · intro leaf member d above front
      obtain ⟨e, listed, rfl⟩ := List.mem_map.1 member
      obtain ⟨⟨node, found, kind, -, -, there⟩, other⟩ := laid.leaf e listed
      obtain ⟨ino, node', found', kind', there'⟩ := (isDir _).2 ⟨d, above, front⟩
      have same := one _ _ _ _ _ found found' there there'
      rw [same, found'] at found
      cases found
      exact other (kind.symm.trans kind')
  · intro apart
    obtain ⟨nodup, outside⟩ := apart
    apply OneNode.distinct _ sound
    intro ino ino' node node' place found found' there there'
    -- a leaf has no directory at its place
    have leaf {ino node} (found : t.getNode ino = some node) (there : t.At ino place)
        (kind : node.kind ≠ .directory) :
        ∃ e ∈ shown, e.1 = ino ∧ e.2.path = place ∧ ¬ t.IsDir place := by
      obtain ⟨e, member, rfl⟩ := laid.only _ _ found kind
      obtain ⟨⟨-, -, -, -, -, path⟩, -⟩ := laid.leaf e member
      have same := path.unique there
      refine ⟨e, member, rfl, same, ?_⟩
      rw [isDir, ← same]
      intro below
      obtain ⟨d, above, front⟩ := below
      exact outside e.2 (List.mem_map.2 ⟨e, member, rfl⟩) d above front
    by_cases kind : node.kind = .directory
    · by_cases kind' : node'.kind = .directory
      · exact sound.oneDir _ _ _ ⟨node, found, kind, there⟩ ⟨node', found', kind', there'⟩
      · obtain ⟨e, -, -, -, none⟩ := leaf found' there' kind'
        exact absurd ⟨ino, node, found, kind, there⟩ none
    · obtain ⟨e, member, rfl, path, none⟩ := leaf found there kind
      by_cases kind' : node'.kind = .directory
      · exact absurd ⟨ino', node', found', kind', there'⟩ none
      · obtain ⟨e', member', rfl, path', -⟩ := leaf found' there' kind'
        rw [List.inj_on_of_nodup_map nodup member member' (path.trans path'.symm)]

/-! ## Following a path -/

/-- A part of a path that is an entry to look up. -/
def IsStep (part : String) : Prop := part ≠ "" ∧ part ≠ "." ∧ part ≠ ".."

instance (part : String) : Decidable (IsStep part) := inferInstanceAs (Decidable (_ ∧ _))

/-- An entry of a directory is found by its name. -/
theorem OneNode.lookupChild (h : t.OneNode) (sound : t.Sound) {dir ino : Nat} {place : List String}
    {node : VfsNode} (above : t.DirAt dir place) (found : t.getNode ino = some node)
    (there : t.At ino (place ++ [node.name])) : t.lookupChild dir node.name = some node := by
  have other : ino ≠ rootInode := there.ne_root (by simp)
  obtain ⟨place', above', same⟩ := there.eq_append found other
  obtain ⟨rfl, -⟩ := List.append_inj' same rfl
  obtain ⟨parent, present, kind, member⟩ := sound.parent _ _ found other
  have parentIno := sound.oneDir _ _ _ above ⟨parent, present, kind, above'⟩
  unfold VfsNodes.lookupChild
  rw [parentIno, present, Option.bind_eq_bind, Option.bind_some, if_neg (not_not_intro kind)]
  cases first : parent.children.findSome? fun childIno =>
      (t.getNode childIno).filter fun child => child.name = node.name with
  | none =>
    have none := List.findSome?_eq_none_iff.1 first ino member
    rw [found] at none
    simp at none
  | some child =>
    obtain ⟨c, member', known⟩ := List.exists_of_findSome?_eq_some first
    obtain ⟨known, name⟩ := Option.filter_eq_some_iff.1 known
    obtain ⟨other', child', known', above''⟩ := sound.child _ _ present c member'
    rw [known] at known'
    cases known'
    have at' := At.child known other' (above'' ▸ above')
    rw [of_decide_eq_true name] at at'
    have same := h _ _ _ _ _ found known there at'
    rw [same, known] at found
    exact found

/-- A path of entries leads to the node that has it. -/
theorem OneNode.foldlM (h : t.OneNode) (sound : t.Sound) {ino : Nat} {place : List String}
    {node rootNode : VfsNode} (begins : t.getNode rootInode = some rootNode)
    (found : t.getNode ino = some node) (there : t.At ino place)
    (steps : ∀ part ∈ place, IsStep part) (noLink : node.kind ≠ .symlink) :
    place.foldlM t.resolvePart rootNode = some node := by
  induction there generalizing node with
  | root =>
    rw [begins] at found
    exact found
  | @child ino known place known' other above ih =>
    obtain rfl : known = node := Option.some.inj (known'.symm.trans found)
    obtain ⟨parent, present, kind, -⟩ := sound.parent _ _ found other
    have before := ih present (fun part member => steps part (List.mem_append_left _ member))
      (by rw [kind]; decide)
    obtain ⟨nonempty, dot, dots⟩ := steps known.name (List.mem_append_right _ (List.mem_singleton_self _))
    have step : t.resolvePart parent known.name = some known := by
      have looked := h.lookupChild sound ⟨parent, present, kind, above⟩ found
        (.child found other above)
      unfold resolvePart
      rw [if_neg (not_or.2 ⟨nonempty, dot⟩), if_neg dots, sound.ino _ _ present, looked]
      cases kinds : known.kind with
      | symlink => exact absurd kinds noLink
      | directory => simp [kinds]
      | regularFile => simp [kinds]
    rw [List.foldlM_append, before]
    simp [step]

/-- Empty parts of a path are skipped. -/
theorem foldlM_resolvePart_filter (node : VfsNode) (parts : List String) :
    parts.foldlM t.resolvePart node = (FilePath.components parts).foldlM t.resolvePart node := by
  induction parts generalizing node with
  | nil => rfl
  | cons part parts ih =>
    by_cases noise : part = "" ∨ part = "."
    · have skipped : FilePath.components (part :: parts) = FilePath.components parts := by
        cases noise <;> simp [FilePath.components, FilePath.isNoise, *]
      have stay : t.resolvePart node part = some node := if_pos noise
      rw [skipped, List.foldlM_cons, stay]
      exact ih node
    · have kept : FilePath.components (part :: parts) = part :: FilePath.components parts := by
        simp [FilePath.components, FilePath.isNoise, not_or.1 noise]
      rw [kept, List.foldlM_cons, List.foldlM_cons]
      congr 1
      funext next
      exact ih next

end VfsNodes

/-! ## The parts of a path -/

namespace FilePath

open Text

theorem components_trimStart (cs : List Char) :
    components (split '/' (String.ofList (cs.dropWhile (· = '/')))) =
      components (split '/' (String.ofList cs)) := by
  induction cs with
  | nil => rfl
  | cons c cs ih =>
    by_cases slash : c = '/'
    · subst slash
      rw [List.dropWhile_cons, if_pos (by simp), ih]
      unfold split
      rw [String.toList_ofList, String.toList_ofList, List.splitOn_cons_eq_if_modifyHead,
        if_pos (beq_self_eq_true '/'), List.map_cons]
      rfl
    · rw [List.dropWhile_cons, if_neg (by simpa using slash)]

theorem components_trimEnd (cs : List Char) :
    components (split '/' (String.ofList (cs.dropWhile (· = '/')).reverse)) =
      components (split '/' (String.ofList cs.reverse)) := by
  induction cs with
  | nil => rfl
  | cons c cs ih =>
    by_cases slash : c = '/'
    · subst slash
      have parts : split '/' (String.ofList ('/' :: cs).reverse) =
          split '/' (String.ofList cs.reverse) ++ [""] := by
        have cut := split_append (String.ofList cs.reverse) ""
        rw [String.append_empty] at cut
        have whole : String.ofList ('/' :: cs).reverse = String.ofList cs.reverse ++ "/" := by
          rw [← String.toList_inj]
          simp
        rw [whole, cut]
        rfl
      rw [List.dropWhile_cons, if_pos (by simp), ih, parts]
      simp [components, isNoise]
    · rw [List.dropWhile_cons, if_neg (by simpa using slash)]

/-- Slashes around a path do not matter for its components. -/
theorem components_trimMatches (s : String) :
    components (split '/' (trimMatches '/' s)) = components (split '/' s) := by
  unfold trimMatches
  rw [components_trimEnd, List.reverse_reverse, components_trimStart, String.ofList_toList]

end FilePath

/-- A path is followed from the root, component by component. -/
theorem VfsNodes.resolvePath_eq {t : VfsNodes} {root : VfsNode}
    (begins : t.getNode rootInode = some root) (path : String) :
    t.resolvePath path = (FilePath.components (Text.split '/' path)).foldlM t.resolvePart root := by
  have parts := FilePath.components_trimMatches path
  unfold resolvePath
  by_cases empty : Text.trimMatches '/' path = ""
  · rw [empty] at parts
    have none : FilePath.components (Text.split '/' path) = [] := parts.symm
    rw [if_pos empty, begins, none, List.foldlM_nil, Option.pure_def]
  · rw [← parts, ← foldlM_resolvePart_filter, if_neg empty, begins, Option.bind_eq_bind,
      Option.bind_some]

end OosLite
