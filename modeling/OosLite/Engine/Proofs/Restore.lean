import OosLite.Engine.Proofs.Extraction
import OosLite.Engine.Proofs.Names
import OosLite.Engine.Proofs.Tables
import Mathlib.Data.List.Nodup
import Mathlib.Data.List.Perm.Subperm

/-!
# What a restored snapshot leaves

`restore_snapshot` writes one entry after the other. The path of an entry is made of the normal
components of its name, and different names can have the same ones; an entry also loses its file if
it is called like the temporary file of a later one.
-/

namespace OosLite

open Effect FileTree

/-! ## What later elements leave -/

section Survivors

variable {α : Type} (R : α → α → Prop) [DecidableRel R]

/-- The elements that stand `R` to every later one. -/
def survivors (xs : List α) : List α := xs.foldl (fun kept b => kept.filter (R · b) ++ [b]) []

theorem survivors_concat (xs : List α) (b : α) :
    survivors R (xs ++ [b]) = (survivors R xs).filter (R · b) ++ [b] := by
  simp [survivors]

theorem survivors_sublist (xs : List α) : (survivors R xs).Sublist xs := by
  induction xs using List.reverseRecOn with
  | nil => exact .slnil
  | append_singleton xs b ih =>
    rw [survivors_concat]
    exact (List.filter_sublist.trans ih).append_right _

/-- All are left exactly if each one stands `R` to those behind it. -/
theorem survivors_eq_self_iff {xs : List α} : survivors R xs = xs ↔ xs.Pairwise R := by
  induction xs using List.reverseRecOn with
  | nil => simp [survivors]
  | append_singleton xs b ih =>
    rw [survivors_concat, List.append_left_inj, List.pairwise_append, ← ih]
    have below := survivors_sublist R xs
    constructor
    · intro same
      have all : survivors R xs = xs := by
        apply below.eq_of_length
        apply Nat.le_antisymm below.length_le
        conv => lhs; rw [← same]
        exact List.length_filter_le _ _
      rw [all, List.filter_eq_self] at same
      exact ⟨all, List.pairwise_singleton _ _, fun a member c last => by
        rw [List.mem_singleton.1 last]
        simpa using same a member⟩
    · intro cond
      obtain ⟨all, -, later⟩ := cond
      rw [all, List.filter_eq_self]
      intro a member
      simpa using later a member b (List.mem_singleton_self b)

end Survivors

namespace Output

open StorageEngine (safeRelativePath)

/-! ## Where the entries go -/

/-- A path is what a name has between its slashes, without empty parts, dots and double dots. -/
def PathOf (name : String) (path : List String) : Prop :=
  ∃ parts : List String, parts ≠ [] ∧ (∀ part ∈ parts, '/' ∉ part.toList) ∧
    ['/'].intercalate (parts.map String.toList) = name.toList ∧
    path = parts.filter (· ∉ ["", ".", ".."])

/-- A stem is what a name has in front of its last dot, or all of it if there is no dot behind its
first character. -/
def StemOf (name stem : String) : Prop :=
  (stem ≠ "" ∧ ∃ extension, '.' ∉ extension ∧ name.toList = stem.toList ++ '.' :: extension) ∨
    (stem = name ∧ '.' ∉ name.toList.drop 1)

/-- The temporary file that is written next to a path. -/
def Temporary (path : List String) (stamp : Stamp) (tmp : List String) : Prop :=
  ∃ front name stem, path = front ++ [name] ∧ StemOf name stem ∧
    tmp = front ++ [stem ++ (".tmp." ++ (toString stamp.pid ++ (".ThreadId(" ++
      (toString stamp.threadId ++ (")." ++ toString stamp.nanos)))))]

theorem filterMap_ofPart {parts : List String} {text : Component → Option String}
    (parent : text .parentDir = none) (normal : ∀ part, text (.normal part) = some part) :
    (parts.filterMap Component.ofPart).filterMap text = parts.filter (· ∉ ["", ".", ".."]) := by
  rw [List.filterMap_filterMap, ← List.filterMap_eq_filter]
  apply List.filterMap_congr
  intro part _
  unfold Component.ofPart
  by_cases noise : part = "" ∨ part = "."
  · rcases noise with rfl | rfl <;> rfl
  · by_cases up : part = ".."
    · subst up
      exact parent
    · rw [not_or] at noise
      simp [noise.1, noise.2, up, normal, Option.guard]

theorem safeRelativePath_eq (name : String) :
    safeRelativePath name = (Text.split '/' name).filter (· ∉ ["", ".", ".."]) := by
  unfold safeRelativePath Component.ofPath
  rw [List.filterMap_append, filterMap_ofPart rfl fun _ => rfl]
  -- a root or a dot in front is no part of the path
  split
  · rfl
  · split <;> rfl

/-- A name has one path, which is the one that its file is restored to. -/
theorem pathOf_iff {name : String} {path : List String} :
    PathOf name path ↔ path = safeRelativePath name := by
  rw [safeRelativePath_eq]
  unfold PathOf Text.split
  constructor
  · intro ⟨parts, some_part, apart, whole, same⟩
    have split : name.toList.splitOn '/' = parts.map String.toList := by
      rw [← whole]
      apply List.splitOn_intercalate
      · intro chars member
        obtain ⟨part, there, rfl⟩ := List.mem_map.1 member
        exact apart part there
      · simpa using some_part
    rw [same, split, List.map_map]
    congr 1
    simp
  · intro same
    refine ⟨(name.toList.splitOn '/').map String.ofList, ?_, ?_, ?_, same⟩
    · simp
    · exact fun part there => Text.not_mem_split there
    · rw [List.map_map]
      simp

/-- The parts of a restored path are names of files: nothing in it climbs. -/
theorem isFileName_of_mem {name part : String} (member : part ∈ safeRelativePath name) :
    IsFileName part := by
  rw [safeRelativePath_eq] at member
  obtain ⟨among, proper⟩ := List.mem_filter.1 member
  simp only [List.mem_cons, List.not_mem_nil, or_false, decide_eq_true_eq, not_or] at proper
  exact ⟨proper.1, proper.2.1, proper.2.2, Text.not_mem_split among⟩

/-- A name has one stem. -/
theorem stemOf_iff {name stem : String} : StemOf name stem ↔ stem = fileStem name := by
  -- the text behind the last dot, and what is in front of it
  obtain ⟨extension, plain, whole⟩ : ∃ extension : List Char, '.' ∉ extension ∧
      name.toList = (name.toList.reverse.dropWhile (· ≠ '.')).reverse ++ extension := by
    refine ⟨(name.toList.reverse.takeWhile (· ≠ '.')).reverse, ?_, ?_⟩
    · intro member
      simpa using List.all_eq_true.1 List.all_takeWhile _ (List.mem_reverse.1 member)
    · rw [← List.reverse_append, List.takeWhile_append_dropWhile, List.reverse_reverse]
  have dot {c : Char} {before : List Char}
      (rest : name.toList.reverse.dropWhile (· ≠ '.') = c :: before) : c = '.' := by
    have first := List.head?_dropWhile_not (· ≠ '.') name.toList.reverse
    rw [rest] at first
    simpa using first
  unfold fileStem StemOf
  rcases rest : name.toList.reverse.dropWhile (· ≠ '.') with _ | ⟨c, _ | ⟨d, before⟩⟩
  · -- there is no dot
    rw [rest, List.reverse_nil, List.nil_append] at whole
    have none : '.' ∉ name.toList := whole ▸ plain
    constructor
    · rintro (⟨-, other, -, same⟩ | ⟨same, -⟩)
      · exact absurd (same ▸ by simp) none
      · exact same
    · exact fun same => .inr ⟨same, fun member => none (List.mem_of_mem_drop member)⟩
  · -- the only dot is the first character
    obtain rfl := dot rest
    rw [rest, List.reverse_singleton, List.singleton_append] at whole
    constructor
    · rintro (⟨some_char, other, there, same⟩ | ⟨same, -⟩)
      · rw [whole] at same
        cases chars : stem.toList with
        | nil => exact absurd (String.toList_eq_nil_iff.1 chars) some_char
        | cons c chars' =>
          rw [chars, List.cons_append] at same
          exact absurd ((List.cons.inj same).2 ▸ by simp) plain
      · exact same
    · intro same
      refine .inr ⟨same, ?_⟩
      rw [whole]
      exact plain
  · obtain rfl := dot rest
    rw [rest, List.reverse_cons, List.append_assoc, List.singleton_append] at whole
    constructor
    · rintro (⟨-, other, there, same⟩ | ⟨-, none⟩)
      · have ends := congrArg List.reverse (whole.symm.trans same)
        simp only [List.reverse_append, List.reverse_cons, List.append_assoc,
          List.singleton_append] at ends
        have front := (Text.append_cons_inj (by simpa using plain) (by simpa using there) ends).2
        rw [← String.ofList_toList (s := stem), ← List.reverse_reverse stem.toList, ← front]
        simp
      · rw [whole, List.reverse_cons] at none
        generalize before.reverse = front at none
        cases front <;> simp at none
    · intro same
      refine .inl ⟨?_, extension, plain, ?_⟩
      · intro empty
        rw [same] at empty
        simpa using congrArg String.toList empty
      · rw [same, whole, String.toList_ofList]

theorem temporary_iff {path tmp : List String} {stamp : Stamp} :
    Temporary path stamp tmp ↔ path ≠ [] ∧ tmp = tmpPath path stamp := by
  have named (name : String) : withExtension name stamp.extension =
      fileStem name ++ (".tmp." ++ (toString stamp.pid ++ (".ThreadId(" ++
        (toString stamp.threadId ++ (")." ++ toString stamp.nanos))))) := by
    simp only [withExtension, Stamp.extension, String.append_assoc]
    rw [← @String.append_assoc ".", show "." ++ "tmp." = ".tmp." by decide]
  constructor
  · rintro ⟨front, name, stem, rfl, own, rfl⟩
    refine ⟨by simp, ?_⟩
    rw [tmpPath_append, named, stemOf_iff.1 own]
  · intro h
    obtain ⟨nonempty, same⟩ := h
    obtain ⟨front, name, rfl⟩ : ∃ front name, path = front ++ [name] :=
      ⟨_, _, (List.dropLast_append_getLast nonempty).symm⟩
    rw [tmpPath_append, named] at same
    exact ⟨front, name, _, rfl, stemOf_iff.2 rfl, same⟩

/-- An entry keeps its file when a later one is extracted: it does not go to the same path, nor to
that of the temporary file. -/
def Clear (stamps : Nat → Stamp) (a b : SnapshotEntry × Nat) : Prop :=
  ∀ path path', PathOf a.1.name path → PathOf b.1.name path' →
    path ≠ path' ∧ ¬ Temporary path' (stamps b.2) path

theorem clear_iff {stamps : Nat → Stamp} {a b : SnapshotEntry × Nat} : Clear stamps a b ↔
    safeRelativePath a.1.name ≠ safeRelativePath b.1.name ∧ (safeRelativePath b.1.name ≠ [] →
      safeRelativePath a.1.name ≠ tmpPath (safeRelativePath b.1.name) (stamps b.2)) := by
  unfold Clear
  simp only [pathOf_iff, temporary_iff, forall_eq_apply_imp_iff, forall_eq, not_and]

instance (stamps : Nat → Stamp) : DecidableRel (Clear stamps) :=
  fun _ _ => decidable_of_iff' _ clear_iff

/-- Every entry keeps its file when later ones are extracted. -/
def StayApart (snapshot : Snapshot) (stamps : Nat → Stamp) : Prop :=
  snapshot.entries.zipIdx.Pairwise (Clear stamps)

instance (snapshot : Snapshot) (stamps : Nat → Stamp) : Decidable (StayApart snapshot stamps) :=
  inferInstanceAs (Decidable (List.Pairwise _ _))

/-- The target has exactly one file for each entry, at the path of its name and with its content,
and nothing else has changed but that there may be directories on the way to the target. -/
structure Restored (env : Env) (snapshot : Snapshot) (target : List String) (t : OutputTree UInt8)
    (count : Nat) (t' : OutputTree UInt8) : Prop where
  count : count = snapshot.entries.length
  distinct : snapshot.entries.Pairwise fun e e' => ∀ path, PathOf e.name path → ¬ PathOf e'.name path
  present : ∀ e ∈ snapshot.entries, ∃ path c, PathOf e.name path ∧ path ≠ [] ∧
    (∀ part ∈ path, IsFileName part) ∧ t' (target ++ path) = some (.file c) ∧
    Text.hex (env.blake3 c).bytes = e.manifestId
  only : ∀ p c, t' (target ++ p) = some (.file c) → ∃ e ∈ snapshot.entries, PathOf e.name p
  outside : OutputTree.Prepared (fun p => target <+: p) target t t'

/-! ## The loop -/

theorem tmpPath_below (target : List String) {path : List String} (nonempty : path ≠ [])
    (stamp : Stamp) : tmpPath (target ++ path) stamp = target ++ tmpPath path stamp := by
  obtain ⟨front, name, rfl⟩ : ∃ front name, path = front ++ [name] :=
    ⟨_, _, (List.dropLast_append_getLast nonempty).symm⟩
  rw [← List.append_assoc, tmpPath_append, tmpPath_append, List.append_assoc]

/-- What the target has when so many entries are done. -/
structure Written (env : Env) (stamps : Nat → Stamp) (target : List String) (t : OutputTree UInt8)
    (done : List (SnapshotEntry × Nat)) (t' : OutputTree UInt8) : Prop where
  named : ∀ e ∈ done, safeRelativePath e.1.name ≠ []
  present : ∀ e ∈ survivors (Clear stamps) done, ∃ c : Bytes,
    t' (target ++ safeRelativePath e.1.name) = some (.file c)
  only : ∀ p c, t' (target ++ p) = some (.file c) → ∃ e ∈ survivors (Clear stamps) done,
    p = safeRelativePath e.1.name ∧ Text.hex (env.blake3 c).bytes = e.1.manifestId
  outside : OutputTree.Prepared (fun p => target <+: p) target t t'

section Loop

variable {f : Faults} {env : Env} {stamps : Nat → Stamp} {target : List String} {t u u' : OutputTree UInt8}

/-- One entry more. -/
theorem Written.extracted {done : List (SnapshotEntry × Nat)} (h : Written env stamps target t done u)
    {e : SnapshotEntry × Nat} (nonempty : safeRelativePath e.1.name ≠ []) {c : Bytes}
    (content : Text.hex (env.blake3 c).bytes = e.1.manifestId)
    (step : Extracted (target ++ safeRelativePath e.1.name) (stamps e.2) c u u') :
    Written env stamps target t (done ++ [e]) u' := by
  -- what is at a path below the target afterwards
  have at_path : u' (target ++ safeRelativePath e.1.name) = some (.file c) := by
    rw [step.tree, OutputTree.put_self]
  have at_tmp (other : tmpPath (safeRelativePath e.1.name) (stamps e.2) ≠
      safeRelativePath e.1.name) :
      u' (target ++ tmpPath (safeRelativePath e.1.name) (stamps e.2)) = none := by
    rw [step.tree, OutputTree.put_ne fun same => other (List.append_cancel_left same),
      ← tmpPath_below target nonempty, OutputTree.put_self]
  have at_other {p : List String} (path : p ≠ safeRelativePath e.1.name)
      (tmp : p ≠ tmpPath (safeRelativePath e.1.name) (stamps e.2)) (c' : Bytes) :
      u' (target ++ p) = some (.file c') ↔ u (target ++ p) = some (.file c') := by
    rw [step.tree, OutputTree.put_ne fun same => path (List.append_cancel_left same),
      tmpPath_below target nonempty, OutputTree.put_ne fun same => tmp (List.append_cancel_left same)]
    exact OutputTree.makeDirs_file
  refine ⟨?_, ?_, ?_, ?_⟩
  · intro e' member
    rcases List.mem_append.1 member with member | last
    · exact h.named e' member
    · rw [List.mem_singleton.1 last]
      exact nonempty
  · rw [survivors_concat]
    intro e' member
    rcases List.mem_append.1 member with member | last
    · obtain ⟨kept, clear⟩ := List.mem_filter.1 member
      have clear : Clear stamps e' e := by simpa using clear
      obtain ⟨other, tmp⟩ := clear_iff.1 clear
      obtain ⟨c', there⟩ := h.present e' kept
      exact ⟨c', (at_other other (tmp nonempty) c').2 there⟩
    · rw [List.mem_singleton.1 last]
      exact ⟨c, at_path⟩
  · intro p c' there
    rw [survivors_concat]
    by_cases own : p = safeRelativePath e.1.name
    · rw [own, at_path] at there
      cases there
      exact ⟨e, List.mem_append_right _ (List.mem_singleton_self e), own, content⟩
    · by_cases tmp : p = tmpPath (safeRelativePath e.1.name) (stamps e.2)
      · subst tmp
        rw [at_tmp own] at there
        cases there
      · obtain ⟨e', kept, path, same⟩ := h.only p c' ((at_other own tmp c').1 there)
        refine ⟨e', List.mem_append_left _ (List.mem_filter.2 ⟨kept, ?_⟩), path, same⟩
        have clear : Clear stamps e' e := clear_iff.2 ⟨path ▸ own, fun _ => path ▸ tmp⟩
        simpa using clear
  · apply h.outside.trans
    have dirs : OutputTree.Prepared (fun p => target <+: p) target u
        (u.makeDirs (target ++ safeRelativePath e.1.name).dropLast) := by
      intro p
      by_cases below : target <+: p
      · exact .inl below
      · by_cases new : p <+: (target ++ safeRelativePath e.1.name).dropLast ∧ (u p).isNone
        · refine .inr (.inr ⟨?_, Option.isNone_iff_eq_none.1 new.2, if_pos new⟩)
          have within := new.1.trans (List.dropLast_prefix _)
          exact (List.prefix_or_prefix_of_prefix within (List.prefix_append _ _)).resolve_right below
        · exact .inr (.inl (if_neg new))
    rw [step.tree, tmpPath_below target nonempty]
    exact (dirs.put (List.prefix_append _ _)).put (List.prefix_append _ _)

/-- The loop over the entries, from a tree whose target has been made. -/
theorem safe_entries {s : Output} (keyed : s.engine.metadataStore.Keyed env)
    (start : Written env stamps target t [] s.tree) (entries : List (SnapshotEntry × Nat)) :
    Safe (outputMachine f) (fun r s' => r = .ok () → Written env stamps target t entries s'.tree)
      (fun _ => True)
      (Prog.forEach (fun _ entry => restoreEntry env target entry.1 (stamps entry.2)) () entries)
      s := by
  apply safe_forEach (fun done _ _ u => u.engine = s.engine ∧
    Written env stamps target t done u.tree) ⟨rfl, start⟩
  · intro done e rest _ u _ inv
    obtain ⟨engine, written⟩ := inv
    have failed {u' : Output} (e : OosLiteError) : (Except.error e : Except OosLiteError Unit) = .ok () →
        Written env stamps target t entries u'.tree := nofun
    unfold restoreEntry
    rw [safe_bind]
    apply safe_engineProg
    refine StorageEngine.safe_query ?_ fun _ => failed _
    cases found : (do
        Option.orError (← u.engine.metadataStore.getManifest env e.1.manifestId)
          (.internal ("Manifest " ++ e.1.manifestId ++ " not found for snapshot entry " ++
            e.1.name)) : Result Manifest) with
    | error e => exact failed e
    | ok manifest =>
      obtain ⟨value, present, found⟩ := Result.bind_eq_ok.1 found
      rw [Option.orError_eq_ok.1 found, engine] at present
      have key := keyed _ _ present
      rw [thenSafe_ok]
      by_cases empty : safeRelativePath e.1.name = []
      · rw [if_pos empty]
        exact failed _
      · rw [if_neg empty, safe_bind]
        refine (safe_extractManifestToFile manifest _ _ u).mono (fun r u' post => ?_)
          fun _ _ => trivial
        cases r with
        | error e => exact failed e
        | ok count =>
          obtain ⟨engine', c, -, digest, extracted⟩ := post
          rw [thenSafe_ok]
          refine ⟨engine'.trans engine, written.extracted empty ?_ extracted⟩
          rw [digest]
          exact key
  · intro _ u inv _
    exact inv.2

/-- What a restore that succeeds has done. -/
theorem returns_restoreSnapshot {s s' : Output} {label : String} {snapshot : Snapshot} {count : Nat}
    (keyed : s.engine.metadataStore.Keyed env)
    (held : s.engine.metadataStore.getSnapshot env (Text.trim label) = .ok (some snapshot))
    (empty : ∀ p c, s.tree (target ++ p) ≠ some (.file c))
    (run : Returns (outputMachine f) (restoreSnapshot env label (some target) stamps) s (.ok count) s') :
    count = snapshot.entries.length ∧
      Written env stamps target s.tree snapshot.entries.zipIdx s'.tree := by
  suffices all : Safe (outputMachine f) (fun r s' => ∀ count, r = .ok count →
      count = snapshot.entries.length ∧
        Written env stamps target s.tree snapshot.entries.zipIdx s'.tree) (fun _ => True)
      (restoreSnapshot env label (some target) stamps) s from all.returns run count rfl
  unfold restoreSnapshot
  simp only
  rw [safe_bind]
  apply safe_engineProg
  refine StorageEngine.safe_query ?_ fun _ => nofun
  have found : (do
      Option.orError (← s.engine.metadataStore.getSnapshot env (Text.trim label))
        (.snapshotNotFound (Text.trim label)) : Result Snapshot) = .ok snapshot := by
    rw [held]
    rfl
  rw [found, thenSafe_ok, safe_bind]
  apply safe_treeOp
  · intro t made
    have start : Written env stamps target s.tree [] t := by
      rw [OutputTree.run_createDirAll made]
      refine ⟨nofun, nofun, fun p c there => ?_, .makeDirs (List.prefix_refl _)⟩
      exact absurd (OutputTree.makeDirs_file.1 there) (empty p c)
    rw [thenSafe_ok, safe_bind]
    refine (safe_entries (s := (s.withEngine s.engine).withTree t) keyed start
      snapshot.entries.zipIdx).mono (fun r u written => ?_) fun _ _ => trivial
    cases r with
    | error e => exact nofun
    | ok _ =>
      intro count same
      cases same
      exact ⟨rfl, written rfl⟩
  · exact fun _ _ _ => nofun

end Loop

/-- The entries behind their numbers. -/
theorem mem_zipIdx {snapshot : Snapshot} {e : SnapshotEntry} (member : e ∈ snapshot.entries) :
    ∃ i, (e, i) ∈ snapshot.entries.zipIdx := by
  obtain ⟨i, there⟩ := List.mem_iff_getElem?.1 member
  exact ⟨i, List.mem_zipIdx_iff_getElem?.2 there⟩

theorem map_zipIdx (snapshot : Snapshot) :
    snapshot.entries.zipIdx.map (fun e => safeRelativePath e.1.name) =
      snapshot.entries.map fun e => safeRelativePath e.name := by
  conv => rhs; rw [← List.zipIdx_map_fst 0 snapshot.entries, List.map_map]
  rfl

/-- A restore that succeeds is complete exactly if the entries stay apart. -/
theorem restored_iff {env : Env} {run : EngineRun} {f : Faults} {s s' : Output} {label : String}
    {snapshot : Snapshot} {target : List String} {stamps : Nat → Stamp} {count : Nat}
    (reachable : EngineReachable env (fun _ _ => True) run)
    (running : run.phase = .running s.engine)
    (held : s.engine.metadataStore.getSnapshot env (Text.trim label) = .ok (some snapshot))
    (empty : ∀ p c, s.tree (target ++ p) ≠ some (.file c))
    (restored : Returns (outputMachine f) (restoreSnapshot env label (some target) stamps) s
      (.ok count) s') :
    Restored env snapshot target s.tree count s'.tree ↔ StayApart snapshot stamps := by
  have keyed := reachable.keyed
  rw [running] at keyed
  obtain ⟨number, written⟩ := returns_restoreSnapshot keyed held empty restored
  unfold StayApart
  rw [← survivors_eq_self_iff]
  constructor
  · intro complete
    have distinct : (snapshot.entries.zipIdx.map fun e => safeRelativePath e.1.name).Nodup := by
      rw [map_zipIdx, List.nodup_iff_pairwise_ne, List.pairwise_map]
      exact complete.distinct.imp fun apart same => apart _ (pathOf_iff.2 rfl) (pathOf_iff.2 same)
    -- the file of an entry is that of a survivor, which is the entry itself
    have all : snapshot.entries.zipIdx ⊆ survivors (Clear stamps) snapshot.entries.zipIdx := by
      intro e member
      obtain ⟨path, c, own, -, -, there, -⟩ := complete.present e.1 (List.fst_mem_of_mem_zipIdx member)
      obtain ⟨e', kept, same, -⟩ := written.only path c there
      rw [pathOf_iff.1 own] at same
      have member' := (survivors_sublist _ _).subset kept
      rw [List.inj_on_of_nodup_map distinct member member' same]
      exact kept
    have below := survivors_sublist (Clear stamps) snapshot.entries.zipIdx
    apply below.eq_of_length
    apply Nat.le_antisymm below.length_le
    exact (List.Nodup.subperm (List.Nodup.of_map _ distinct) all).length_le
  · intro all
    have apart := (survivors_eq_self_iff _).1 all
    have distinct : (snapshot.entries.zipIdx.map fun e => safeRelativePath e.1.name).Nodup :=
      List.pairwise_map.2 (apart.imp fun clear => (clear_iff.1 clear).1)
    have present := written.present
    have only := written.only
    rw [all] at present only
    refine ⟨number, ?_, ?_, ?_, written.outside⟩
    · rw [map_zipIdx, List.nodup_iff_pairwise_ne, List.pairwise_map] at distinct
      exact distinct.imp fun other path own own' =>
        other ((pathOf_iff.1 own).symm.trans (pathOf_iff.1 own'))
    · intro e member
      obtain ⟨i, there⟩ := mem_zipIdx member
      obtain ⟨c, file⟩ := present _ there
      obtain ⟨e', there', same, content⟩ := only _ c file
      have own := List.inj_on_of_nodup_map distinct there there' same
      rw [← own] at content
      exact ⟨_, c, pathOf_iff.2 rfl, written.named _ there, fun part => isFileName_of_mem, file,
        content⟩
    · intro p c file
      obtain ⟨e, there, same, -⟩ := only p c file
      exact ⟨e.1, List.fst_mem_of_mem_zipIdx there, pathOf_iff.2 same⟩

/-! ## Two names with one path -/

namespace RestoreSample

open EngineSample

/-- A store with three files in two directories, and a snapshot of them. -/
def shelved : StorageEngine :=
  let report := after opened (.put "docs/report" (file [7, 8]) (FixedBytes.ofBytes 16 [1]))
  let draft := after report (.put "docs//old/./draft.txt" (file [9]) (FixedBytes.ofBytes 16 [2]))
  after (after draft (.put "notes" (file []) (FixedBytes.ofBytes 16 [3]))) (.createSnapshot "s")

/-- A store with two files, and a snapshot of them. -/
def twice : StorageEngine :=
  after (after (after opened (.put "a/b" (file []) (FixedBytes.ofBytes 16 [1])))
    (.put "a//b" (file []) (FixedBytes.ofBytes 16 [2]))) (.createSnapshot "s")

/-- A tree without files. -/
def tree : OutputTree UInt8 := fun p => if p = [] then some .dir else none

theorem tree_empty (p : List String) (c : Bytes) : tree p ≠ some (.file c) := by
  unfold tree
  split <;> nofun

def stamps (i : Nat) : Stamp := ⟨1, 1, i⟩

/-- What the snapshot has. -/
def snapshotOf (s : StorageEngine) : Snapshot :=
  match s.metadataStore.getSnapshot env "s" with
  | .ok (some snapshot) => snapshot
  | _ => ⟨"", 0, []⟩

/-- The store after the restore of the snapshot. -/
def restored (s : StorageEngine) : Except OosLiteError Nat × Output :=
  exec answers (restoreSnapshot env "s" (some ["out"]) stamps) ⟨s, tree⟩

theorem reachable_shelved : ∃ g, EngineReachable env (fun _ _ => True) ⟨.running shelved, g⟩ := by
  obtain ⟨g, opened⟩ := reachable_opened
  obtain ⟨g, report⟩ := opened.exec answers
    (.put "docs/report" (file [7, 8]) (FixedBytes.ofBytes 16 [1])) false []
  obtain ⟨g, draft⟩ := report.exec answers
    (.put "docs//old/./draft.txt" (file [9]) (FixedBytes.ofBytes 16 [2])) false []
  obtain ⟨g, notes⟩ := draft.exec answers
    (.put "notes" (file []) (FixedBytes.ofBytes 16 [3])) false []
  exact notes.exec answers (.createSnapshot "s") false []

theorem reachable_twice : ∃ g, EngineReachable env (fun _ _ => True) ⟨.running twice, g⟩ := by
  obtain ⟨g, opened⟩ := reachable_opened
  obtain ⟨g, first⟩ := opened.exec answers
    (.put "a/b" (file []) (FixedBytes.ofBytes 16 [1])) false []
  obtain ⟨g, second⟩ := first.exec answers
    (.put "a//b" (file []) (FixedBytes.ofBytes 16 [2])) false []
  exact second.exec answers (.createSnapshot "s") false []

theorem run_restored {s : StorageEngine} {count : Nat} (h : (restored s).1 = .ok count) :
    Returns (outputMachine (Faults.all false)) (restoreSnapshot env "s" (some ["out"]) stamps)
      ⟨s, tree⟩ (.ok count) (restored s).2 := by
  rw [← h]
  exact returns_exec answers _ _

end RestoreSample

/-- Three files are restored, one of them below two directories. -/
theorem restored_iff_shelved :
    Restored EngineSample.env (RestoreSample.snapshotOf RestoreSample.shelved) ["out"]
      RestoreSample.tree 3 (RestoreSample.restored RestoreSample.shelved).2.tree ∧
    (RestoreSample.restored RestoreSample.shelved).2.tree ["out", "docs", "old", "draft.txt"] =
      some (.file [9]) := by
  obtain ⟨g, reachable⟩ := RestoreSample.reachable_shelved
  have computed : (RestoreSample.restored RestoreSample.shelved).1 = .ok 3 ∧
      StayApart (RestoreSample.snapshotOf RestoreSample.shelved) RestoreSample.stamps ∧
      (RestoreSample.restored RestoreSample.shelved).2.tree ["out", "docs", "old", "draft.txt"] =
        some (.file [9]) := by
    decide +kernel
  obtain ⟨returned, apart, draft⟩ := computed
  have complete := (restored_iff (s := ⟨RestoreSample.shelved, RestoreSample.tree⟩) reachable rfl
    (by decide +kernel) (fun p c => RestoreSample.tree_empty (["out"] ++ p) c)
    (RestoreSample.run_restored returned)).2 apart
  exact ⟨complete, draft⟩

/-- The names `a/b` and `a//b` are restored to one file. -/
theorem two_entries_one_file :
    ¬ ∀ (env : Env) (run : EngineRun) (f : Faults) (s s' : Output) (label : String)
      (snapshot : Snapshot) (target : List String) (stamps : Nat → Stamp) (count : Nat),
      EngineReachable env (fun _ _ => True) run → run.phase = .running s.engine →
      s.engine.metadataStore.getSnapshot env (Text.trim label) = .ok (some snapshot) →
      (∀ p c, s.tree (target ++ p) ≠ some (.file c)) →
      Returns (outputMachine f) (restoreSnapshot env label (some target) stamps) s (.ok count) s' →
      Restored env snapshot target s.tree count s'.tree := by
  intro all
  obtain ⟨g, reachable⟩ := RestoreSample.reachable_twice
  have complete := all _ _ _ ⟨RestoreSample.twice, RestoreSample.tree⟩ _ "s"
    (RestoreSample.snapshotOf RestoreSample.twice) ["out"] RestoreSample.stamps 2 reachable rfl
    (by decide +kernel) (fun p c => RestoreSample.tree_empty (["out"] ++ p) c)
    (RestoreSample.run_restored (by decide +kernel))
  have same : ¬ (RestoreSample.snapshotOf RestoreSample.twice).entries.Pairwise fun e e' =>
      safeRelativePath e.name ≠ safeRelativePath e'.name := by decide +kernel
  exact same (complete.distinct.imp fun apart same =>
    apart _ (pathOf_iff.2 rfl) (pathOf_iff.2 same))

end Output

end OosLite
