import OosLite.Watcher.Proofs.RenameQueue
import OosLite.Watcher.Proofs.PathNames

/-!
# Renames on disk and in the tables

The tables show a directory tree when the bound and the tracked names are the paths of its files.
Applying the queued renames takes the tables through the trees that the disk went through.
-/

namespace OosLite

open Files (IoError)
open FileTree
open FilePath

/-- The bound names are the paths of the files, with their objects, and so are the tracked
names. -/
structure MetadataStore.Shows (m : MetadataStore) (key : String) (t : DirTree ObjectId) : Prop where
  bound : ∀ name id, m.resolveName name = some id ↔
    ∃ p, t.entry p = some (.file id) ∧ name = text p
  tracked : ∀ name, name ∈ m.listWatcherFiles key ↔
    ∃ p id, t.entry p = some (.file id) ∧ name = text p

/-- Every file's object has a record. -/
def MetadataStore.Recorded (m : MetadataStore) (t : DirTree ObjectId) : Prop :=
  ∀ p id, t.entry p = some (.file id) → ∃ record, m.getObject id = .ok (some record)

/-- A rename on disk between names that the watcher looks after: neither path has a backslash, and
the files that are moved along have valid names at the target. -/
structure Followed (rules : IgnoreRules) (t : DirTree ObjectId) (a b : FilePath) (t' : DirTree ObjectId) :
    Prop where
  renames : Renames t a b t'
  plainSource : Plain a
  plainTarget : Plain b
  source : rules.isIgnored (text a) = false
  target : rules.isIgnored (text b) = false
  moved : ∀ q id, t.entry (a ++ q) = some (.file id) →
    rules.isIgnored (text (b ++ q)) = false ∧ validateLogicalName (text (b ++ q)) = .ok ()

theorem normal_of_entry {t : DirTree ObjectId} {p : FilePath} (h : t.entry p ≠ none) : Normal p :=
  t.isFileName h

namespace Followed

variable {rules : IgnoreRules} {t t' : DirTree ObjectId} {a b : FilePath}

theorem target_entry (h : Followed rules t a b t') : t'.entry b ≠ none := by
  have moved := h.renames.moved []
  rw [List.append_nil, List.append_nil] at moved
  rw [moved]
  exact h.renames.there

theorem target_ne_nil (h : Followed rules t a b t') : b ≠ [] := by
  intro none
  by_cases stays : a = b
  · exact h.renames.notRoot (stays.trans none)
  · exact h.renames.target_not_above stays (none ▸ List.nil_prefix)

end Followed

section Step

variable {m : MetadataStore} {key : String} {rules : IgnoreRules} {t t' : DirTree ObjectId}
  {a b : FilePath}

/-- The names that a rename moves are those of the files at and below its source. -/
theorem moves_iff (shows : m.Shows key t) (recorded : m.Recorded t) (normalA : Normal a)
    (notRoot : a ≠ []) (target : String) (included : String → Bool) (name : String)
    (new : Option String) :
    m.Moves key (text a) (some target) included name new ↔
      ∃ q id, t.entry (a ++ q) = some (.file id) ∧ name = text (a ++ q) ∧
        new = movedName (some target) included (text q) := by
  unfold MetadataStore.Moves changeOf
  constructor
  · intro moves
    obtain ⟨⟨id, record, bound, _⟩, change⟩ := moves
    obtain ⟨p, file, rfl⟩ := (shows.bound name id).1 bound
    have normalP := normal_of_entry (p := p) (by rw [file]; simp)
    cases suffix : suffixOf (text a) (text p) with
    | none =>
      rw [suffix] at change
      cases change
    | some s =>
      obtain ⟨q, rfl, rfl⟩ :=
        (suffixOf_text normalA normalP notRoot (t.ne_nil_of_file file) s).1 suffix
      rw [suffix] at change
      refine ⟨q, id, file, rfl, ?_⟩
      simpa using change.symm
  · intro moves
    obtain ⟨q, id, file, rfl, rfl⟩ := moves
    have normalP := normal_of_entry (p := a ++ q) (by rw [file]; simp)
    obtain ⟨record, found⟩ := recorded _ _ file
    refine ⟨⟨id, record, (shows.bound _ _).2 ⟨_, file, rfl⟩, found⟩, ?_⟩
    rw [(suffixOf_text normalA normalP notRoot (t.ne_nil_of_file file) _).2 ⟨q, rfl, rfl⟩]
    simp

theorem Followed.movedName (h : Followed rules t a b t') {q : FilePath} {id : ObjectId}
    (file : t.entry (a ++ q) = some (.file id)) :
    movedName (some (text b)) (fun name => !rules.isIgnored name) (text q) =
      some (text (b ++ q)) := by
  have normalB := normal_of_entry h.target_entry
  have normalQ := (Normal.append.1 (normal_of_entry (p := a ++ q) (by rw [file]; simp))).2
  unfold OosLite.movedName
  rw [Option.map_some, underPrefix_text normalB normalQ h.target_ne_nil]
  simp [(h.moved q id file).1]

theorem readable_of_shows (shows : m.Shows key t) (recorded : m.Recorded t) : m.Readable := by
  intro name id bound
  obtain ⟨p, file, _⟩ := (shows.bound name id).1 bound
  obtain ⟨record, found⟩ := recorded p id file
  exact ⟨some record, found⟩

theorem not_rejected (shows : m.Shows key t) (recorded : m.Recorded t)
    (h : Followed rules t a b t') :
    ¬ m.Rejected (text a) (some (text b)) fun name => !rules.isIgnored name := by
  have normalA := normal_of_entry h.renames.there
  intro rejected
  rcases rejected with unreadable | invalid
  · exact unreadable (readable_of_shows shows recorded)
  · apply invalid
    intro name new brings
    obtain ⟨q, id, file, _, same⟩ := (moves_iff shows recorded normalA h.renames.notRoot _ _ name _).1
      (MetadataStore.moves_some_iff.2 brings)
    rw [h.movedName file] at same
    cases same
    exact (h.moved q id file).2

section Moved

variable (shows : m.Shows key t) (recorded : m.Recorded t) (h : Followed rules t a b t')

include shows recorded h

/-- A file is moved from one side to the other. -/
theorem moves_followed (name : String) (new : Option String) :
    m.Moves key (text a) (some (text b)) (fun name => !rules.isIgnored name) name new ↔
      ∃ q id, t.entry (a ++ q) = some (.file id) ∧ name = text (a ++ q) ∧
        new = some (text (b ++ q)) := by
  rw [moves_iff shows recorded (normal_of_entry h.renames.there) h.renames.notRoot]
  constructor
  · intro moves
    obtain ⟨q, id, file, same, new⟩ := moves
    exact ⟨q, id, file, same, new.trans (h.movedName file)⟩
  · intro moves
    obtain ⟨q, id, file, same, new⟩ := moves
    exact ⟨q, id, file, same, new.trans (h.movedName file).symm⟩

theorem moves_onto {p : FilePath} (normalP : Normal p) (name : String) :
    m.Moves key (text a) (some (text b)) (fun name => !rules.isIgnored name) name
        (some (text p)) ↔
      ∃ q id, t.entry (a ++ q) = some (.file id) ∧ name = text (a ++ q) ∧ p = b ++ q := by
  have normalB := normal_of_entry h.target_entry
  rw [moves_followed shows recorded h]
  constructor
  · intro moves
    obtain ⟨q, id, file, same, new⟩ := moves
    have normalQ := (Normal.append.1 (normal_of_entry (p := a ++ q) (by rw [file]; simp))).2
    exact ⟨q, id, file, same,
      text_injective normalP (Normal.append.2 ⟨normalB, normalQ⟩) (Option.some.inj new)⟩
  · intro moves
    obtain ⟨q, id, file, same, new⟩ := moves
    exact ⟨q, id, file, same, by rw [new]⟩

/-- A file that is not below the source keeps its name. -/
theorem not_moved_iff {p : FilePath} {id : ObjectId} (file : t.entry p = some (.file id)) :
    (∀ new, ¬ m.Moves key (text a) (some (text b)) (fun name => !rules.isIgnored name)
      (text p) new) ↔ ¬ a <+: p := by
  have normalP := normal_of_entry (p := p) (by rw [file]; simp)
  constructor
  · intro still below
    obtain ⟨q, rfl⟩ := below
    exact still _ ((moves_followed shows recorded h _ _).2 ⟨q, id, file, rfl, rfl⟩)
  · intro outside new moved
    obtain ⟨q, id', file', same, _⟩ := (moves_followed shows recorded h _ _).1 moved
    have normalQ := normal_of_entry (p := a ++ q) (by rw [file']; simp)
    exact outside ⟨q, (text_injective normalP normalQ same).symm⟩

/-- A file keeps or gets the name of its path. -/
theorem endsAs_path {p : FilePath} {id : ObjectId} {name' : String}
    (file : t.entry p = some (.file id))
    (ends : m.EndsAs key (text a) (some (text b)) (fun name => !rules.isIgnored name)
      (text p) name') :
    ∃ p', t'.entry p' = some (.file id) ∧ name' = text p' := by
  have normalP := normal_of_entry (p := p) (by rw [file]; simp)
  rcases ends with ⟨rfl, still, clear⟩ | ⟨moved, _⟩
  · refine ⟨p, ?_, rfl⟩
    have outside := (not_moved_iff shows recorded h file).1 still
    rw [h.renames.kept p ?_ outside]
    · exact file
    · intro below
      obtain ⟨q, rfl⟩ := below
      obtain ⟨f, replaced⟩ := h.renames.replaced file
      rw [h.renames.moved] at replaced
      exact clear _ ((moves_onto shows recorded h normalP _).2 ⟨q, f, replaced, rfl, rfl⟩)
  · obtain ⟨q, id', file', same, new⟩ := (moves_followed shows recorded h _ _).1 moved
    have normalQ := normal_of_entry (p := a ++ q) (by rw [file']; simp)
    have same := text_injective normalP normalQ same
    subst same
    refine ⟨b ++ q, ?_, Option.some.inj new⟩
    rw [h.renames.moved]
    exact file

/-- The name of every path is the one its file ends with. -/
theorem endsAs_of_entry {p' : FilePath} {id : ObjectId} (file : t'.entry p' = some (.file id)) :
    ∃ p, t.entry p = some (.file id) ∧
      m.EndsAs key (text a) (some (text b)) (fun name => !rules.isIgnored name)
        (text p) (text p') := by
  have normalP' := normal_of_entry (p := p') (by rw [file]; simp)
  by_cases below : b <+: p'
  · obtain ⟨q, rfl⟩ := below
    rw [h.renames.moved] at file
    refine ⟨a ++ q, file, .inr ⟨?_, ?_⟩⟩
    · exact (moves_followed shows recorded h _ _).2 ⟨q, id, file, rfl, rfl⟩
    · intro later before moved
      obtain ⟨q', _, _, same, new⟩ := (moves_onto shows recorded h normalP' _).1 moved
      rw [List.append_cancel_left new, same, compare_eq_iff.2 rfl] at before
      cases before
  · by_cases gone : a <+: p'
    · rw [h.renames.left p' below gone] at file
      cases file
    · rw [h.renames.kept p' below gone] at file
      refine ⟨p', file, .inl ⟨rfl, ?_, ?_⟩⟩
      · exact (not_moved_iff shows recorded h file).2 gone
      · intro other moved
        obtain ⟨q, _, _, _, new⟩ := (moves_onto shows recorded h normalP' _).1 moved
        exact below ⟨q, new.symm⟩

/-- The tables follow the rename. -/
theorem shows_afterMove :
    (m.afterMove key (text a) (some (text b)) fun name => !rules.isIgnored name).Shows key t' := by
  have accepted := not_rejected shows recorded h
  constructor
  · intro name' id
    rw [MetadataStore.afterMove_resolveName m key (text a) _ _ accepted]
    constructor
    · intro h'
      obtain ⟨name, bound, ends⟩ := h'
      obtain ⟨p, file, rfl⟩ := (shows.bound name id).1 bound
      exact endsAs_path shows recorded h file ends
    · intro h'
      obtain ⟨p', file, rfl⟩ := h'
      obtain ⟨p, file, ends⟩ := endsAs_of_entry shows recorded h file
      exact ⟨text p, (shows.bound _ _).2 ⟨p, file, rfl⟩, ends⟩
  · intro name'
    rw [MetadataStore.afterMove_listWatcherFiles m key (text a) _ _ accepted, shows.tracked]
    constructor
    · intro h'
      rcases h' with ⟨name, moved⟩ | ⟨⟨p, id, file, rfl⟩, still⟩
      · obtain ⟨q, id, file, _, new⟩ := (moves_followed shows recorded h _ _).1 moved
        refine ⟨b ++ q, id, ?_, Option.some.inj new⟩
        rw [h.renames.moved]
        exact file
      · have outside := (not_moved_iff shows recorded h file).1 still
        by_cases below : b <+: p
        · obtain ⟨q, rfl⟩ := below
          obtain ⟨f, replaced⟩ := h.renames.replaced file
          exact ⟨b ++ q, f, replaced, rfl⟩
        · exact ⟨p, id, by rw [h.renames.kept p below outside]; exact file, rfl⟩
    · intro h'
      obtain ⟨p', id, file, rfl⟩ := h'
      obtain ⟨p, file, ends⟩ := endsAs_of_entry shows recorded h file
      rcases ends with ⟨same, still, _⟩ | ⟨moved, _⟩
      · exact .inr ⟨⟨p, id, file, same.symm⟩, same ▸ still⟩
      · exact .inl ⟨_, moved⟩

end Moved

/-- The tables follow a rename that they have followed already. -/
theorem shows_again (shows : m.Shows key t') (recorded : m.Recorded t')
    (h : Followed rules t a b t') :
    ¬ m.Rejected (text a) (some (text b)) (fun name => !rules.isIgnored name) ∧
      (m.afterMove key (text a) (some (text b)) fun name => !rules.isIgnored name).Shows key t' := by
  have normalA := normal_of_entry h.renames.there
  by_cases moves : a = b
  · subst moves
    have stays : Followed rules t' a a t' :=
      { renames :=
          { there := h.target_entry
            notRoot := h.renames.notRoot
            free := .inl rfl
            moved := fun q => rfl
            left := fun p below gone => absurd gone below
            kept := fun p _ _ => rfl }
        plainSource := h.plainSource
        plainTarget := h.plainTarget
        source := h.source
        target := h.target
        moved := by
          intro q id file
          rw [h.renames.moved] at file
          exact h.moved q id file }
    exact ⟨not_rejected shows recorded stays, shows_afterMove shows recorded stays⟩
  · have nothing : ∀ name new, ¬ m.Moves key (text a) (some (text b))
        (fun name => !rules.isIgnored name) name new := by
      intro name new moved
      obtain ⟨q, id, file, _⟩ := (moves_iff shows recorded normalA h.renames.notRoot _ _ _ _).1 moved
      rw [h.renames.source_empty moves q] at file
      cases file
    have accepted : ¬ m.Rejected (text a) (some (text b))
        (fun name => !rules.isIgnored name) := by
      intro rejected
      rcases rejected with unreadable | invalid
      · exact unreadable (readable_of_shows shows recorded)
      · exact invalid fun name new brings =>
          absurd (MetadataStore.moves_some_iff.2 brings) (nothing _ _)
    refine ⟨accepted, ?_, ?_⟩
    · intro name id
      rw [MetadataStore.afterMove_resolveName m key (text a) _ _ accepted, ← shows.bound]
      constructor
      · intro h'
        obtain ⟨name', bound, ⟨rfl, _⟩ | ⟨moved, _⟩⟩ := h'
        · exact bound
        · exact absurd moved (nothing _ _)
      · intro bound
        exact ⟨name, bound, .inl ⟨rfl, nothing name, fun other => nothing other _⟩⟩
    · intro name
      rw [MetadataStore.afterMove_listWatcherFiles m key (text a) _ _ accepted, ← shows.tracked]
      constructor
      · intro h'
        rcases h' with ⟨other, moved⟩ | ⟨tracked, _⟩
        · exact absurd moved (nothing _ _)
        · exact tracked
      · intro tracked
        exact .inr ⟨tracked, nothing name⟩

end Step

/-! ## The queue -/

/-- Renames on disk, one after another, and the actions that their events queue. -/
inductive Chain (root : FilePath) (rules : IgnoreRules) :
    DirTree ObjectId → List Rename → DirTree ObjectId → Prop
  | nil (t : DirTree ObjectId) : Chain root rules t [] t
  | cons {t t' t'' : DirTree ObjectId} {a b : FilePath} {rest : List Rename}
      (step : Followed rules t a b t') (later : Chain root rules t' rest t'') :
      Chain root rules t (⟨root ++ a, some (root ++ b)⟩ :: rest) t''

theorem Chain.snoc {root : FilePath} {rules : IgnoreRules} {t t' t'' : DirTree ObjectId}
    {queue : List Rename} {a b : FilePath} (chain : Chain root rules t queue t')
    (step : Followed rules t' a b t'') :
    Chain root rules t (queue ++ [⟨root ++ a, some (root ++ b)⟩]) t'' := by
  induction chain with
  | nil t => exact .cons step (.nil _)
  | cons first _ ih => exact .cons first (ih step)

/-- The tables show a tree, and all objects have kept their records. -/
structure Worker.Synced (w : Worker) (objects : Std.ExtTreeMap ObjectId Bytes) (t : DirTree ObjectId) :
    Prop where
  shows : w.engine.store.Shows w.watchKey t
  recorded : w.engine.store.Recorded t
  objects : w.engine.store.objects = objects

/-- The tables show the tree before the queued renames, or the one after the first of them, which
has been applied but not taken off the queue. -/
structure Worker.Follows (w : Worker) (objects : Std.ExtTreeMap ObjectId Bytes)
    (t : DirTree ObjectId) : Prop where
  root : Normal w.config.watchDir
  trackedFrom : w.pending.trackedFrom = []
  untrackedFrom : w.pending.untrackedFrom = []
  queue : (∃ t₀, Chain w.config.watchDir w.rules t₀ w.pending.renames t ∧ w.Synced objects t₀) ∨
    ∃ t₀ t₁ a b rest, w.pending.renames =
        ⟨w.config.watchDir ++ a, some (w.config.watchDir ++ b)⟩ :: rest ∧
      Followed w.rules t₀ a b t₁ ∧ Chain w.config.watchDir w.rules t₁ rest t ∧
      w.Synced objects t₁

section Apply

variable {w w' : Worker} {objects : Std.ExtTreeMap ObjectId Bytes} {t t₀ t₁ : DirTree ObjectId}
  {a b : FilePath}

theorem getObject_afterMove (m : MetadataStore) (key source : String) (target : Option String)
    (included : String → Bool) (id : ObjectId) :
    (m.afterMove key source target included).getObject id = m.getObject id := by
  unfold MetadataStore.getObject
  rw [MetadataStore.afterMove_objects]

/-- The names of an action that follows a rename. -/
theorem Followed.names (h : Followed w.rules t₀ a b t₁) (root : Normal w.config.watchDir) :
    w.sourceName ⟨w.config.watchDir ++ a, some (w.config.watchDir ++ b)⟩ = some (text a) ∧
      w.targetName ⟨w.config.watchDir ++ a, some (w.config.watchDir ++ b)⟩ = some (text b) := by
  have nameA := Worker.logicalName_append (w := w) root (normal_of_entry h.renames.there)
    h.plainSource
  have nameB := Worker.logicalName_append (w := w) root (normal_of_entry h.target_entry)
    h.plainTarget
  constructor
  · unfold Worker.sourceName Worker.included
    simp [nameA, h.source]
  · unfold Worker.targetName
    simp [nameB, h.target]

/-- An action that follows a rename moves the names, whatever the disk looks like. -/
theorem Followed.applyRename (h : Followed w.rules t₀ a b t₁) (root : Normal w.config.watchDir)
    (host : Host)
    (accepted : ¬ w.engine.store.Rejected (text a) (some (text b))
      fun name => !w.rules.isIgnored name) :
    Worker.Requeues (w.withTables (w.engine.store.afterMove w.watchKey (text a) (some (text b))
        fun name => !w.rules.isIgnored name))
      (w.applyRename host ⟨w.config.watchDir ++ a, some (w.config.watchDir ++ b)⟩).2 := by
  obtain ⟨source, target⟩ := h.names root
  have rejected : ¬ w.MoveRejected ⟨w.config.watchDir ++ a, some (w.config.watchDir ++ b)⟩ := by
    intro rejected
    obtain ⟨name, same, rejected⟩ := rejected
    rw [source] at same
    cases same
    rw [target] at rejected
    exact accepted rejected
  obtain ⟨w', requeues, moved⟩ := Worker.applyMove_of_not_rejected host rejected
  have tables : w.movedTables ⟨w.config.watchDir ++ a, some (w.config.watchDir ++ b)⟩ =
      w.engine.store.afterMove w.watchKey (text a) (some (text b))
        fun name => !w.rules.isIgnored name := by
    unfold Worker.movedTables
    rw [source, target]
  rw [tables] at requeues
  rcases Worker.applyRename_cases host w
      ⟨w.config.watchDir ++ a, some (w.config.watchDir ++ b)⟩ with
    ⟨none, _⟩ | ⟨unknown, _⟩ | ⟨_, _, result⟩
  · cases none
  · exact absurd (fun none => by cases none) unknown
  · rw [result, moved]
    exact requeues.trans (Worker.requeues_lookUpTarget w' _)

/-- An action brings the tables to the tree after its rename, the first time and again. -/
theorem Worker.Synced.applyRename (root : Normal w.config.watchDir)
    (h : Followed w.rules t₀ a b t₁) (synced : w.Synced objects t₀ ∨ w.Synced objects t₁)
    (host : Host) :
    (w.applyRename host ⟨w.config.watchDir ++ a, some (w.config.watchDir ++ b)⟩).2.Synced
      objects t₁ := by
  have after : ¬ w.engine.store.Rejected (text a) (some (text b))
        (fun name => !w.rules.isIgnored name) ∧
      (w.engine.store.afterMove w.watchKey (text a) (some (text b))
        fun name => !w.rules.isIgnored name).Shows w.watchKey t₁ := by
    rcases synced with first | again
    · exact ⟨not_rejected first.shows first.recorded h,
        shows_afterMove first.shows first.recorded h⟩
    · exact shows_again again.shows again.recorded h
  have recorded : w.engine.store.Recorded t₁ := by
    rcases synced with first | again
    · intro p id file
      obtain ⟨q, file⟩ := h.renames.file_from file
      exact first.recorded q id file
    · exact again.recorded
  have kept : w.engine.store.objects = objects := by
    rcases synced with first | again
    · exact first.objects
    · exact again.objects
  have requeues := h.applyRename root host after.1
  constructor
  · rw [requeues.engine, requeues.watchKey]
    exact after.2
  · rw [requeues.engine]
    intro p id file
    obtain ⟨record, found⟩ := recorded p id file
    exact ⟨record, (getObject_afterMove ..).trans found⟩
  · rw [requeues.engine]
    exact (MetadataStore.afterMove_objects ..).trans kept

/-- What the invariant says of the queue, when nothing else has changed. -/
theorem Worker.Follows.next {t' : DirTree ObjectId} (follows : w.Follows objects t)
    (config : w'.config = w.config) (rules : w'.rules = w.rules) (trackedFrom : w'.pending.trackedFrom = w.pending.trackedFrom)
    (untrackedFrom : w'.pending.untrackedFrom = w.pending.untrackedFrom)
    (queue : (∃ t₀, Chain w.config.watchDir w.rules t₀ w'.pending.renames t' ∧
        w'.Synced objects t₀) ∨
      ∃ t₀ t₁ a b rest, w'.pending.renames =
          ⟨w.config.watchDir ++ a, some (w.config.watchDir ++ b)⟩ :: rest ∧
        Followed w.rules t₀ a b t₁ ∧ Chain w.config.watchDir w.rules t₁ rest t' ∧
        w'.Synced objects t₁) :
    w'.Follows objects t' where
  root := config ▸ follows.root
  trackedFrom := trackedFrom.trans follows.trackedFrom
  untrackedFrom := untrackedFrom.trans follows.untrackedFrom
  queue := by
    rw [config, rules]
    exact queue

/-- An action that has been applied is followed, on the queue and taken off it. -/
theorem applyRename_follows (host : Host) {action : Rename} {rest : List Rename}
    (front : w.pending.renames = action :: rest) (follows : w.Follows objects t) :
    (w.applyRename host action).2.Follows objects t ∧
      ((w.applyRename host action).2.withRenames rest).Follows objects t := by
  obtain ⟨t₀, t₁, a, b, same, followed, chain, synced⟩ : ∃ t₀ t₁ a b,
      action = ⟨w.config.watchDir ++ a, some (w.config.watchDir ++ b)⟩ ∧
        Followed w.rules t₀ a b t₁ ∧ Chain w.config.watchDir w.rules t₁ rest t ∧
        (w.Synced objects t₀ ∨ w.Synced objects t₁) := by
    rcases follows.queue with ⟨t₀, chain, synced⟩ | ⟨t₀, t₁, a, b, later, front', followed, chain,
      synced⟩
    · rw [front] at chain
      cases chain with
      | cons step later => exact ⟨t₀, _, _, _, rfl, step, later, .inl synced⟩
    · rw [front] at front'
      cases front'
      exact ⟨t₀, t₁, a, b, rfl, followed, chain, .inr synced⟩
  subst same
  have applied := Worker.Synced.applyRename follows.root followed synced host
  obtain ⟨store, requeues⟩ := Worker.applyRename_requeues host w
    ⟨w.config.watchDir ++ a, some (w.config.watchDir ++ b)⟩
  constructor
  · apply follows.next
    · exact requeues.config
    · exact requeues.rules
    · exact requeues.trackedFrom
    · exact requeues.untrackedFrom
    · exact .inr ⟨t₀, t₁, a, b, rest, requeues.renames.trans front, followed, chain, applied⟩
  · apply follows.next
    · exact requeues.config
    · exact requeues.rules
    · exact requeues.trackedFrom
    · exact requeues.untrackedFrom
    · exact .inl ⟨t₁, chain, applied.shows, applied.recorded, applied.objects⟩

theorem renameRound_follows (host : Host) (follows : w.Follows objects t) :
    (w.renameRound host).Follows objects t := by
  unfold Worker.renameRound
  cases front : w.pending.renames with
  | nil => exact follows
  | cons action rest =>
    simp only
    split
    · exact (applyRename_follows host front follows).1
    · exact (applyRename_follows host front follows).2

/-- The loop follows the queue, and empties it if it returns without an error. -/
theorem renameLoop_follows (host : Host) (queue : List Rename) (w : Worker)
    (holds : w.pending.renames = queue) (follows : w.Follows objects t) :
    (Worker.renameLoop host queue w).2.Follows objects t ∧
      ((Worker.renameLoop host queue w).1 = .ok () →
        (Worker.renameLoop host queue w).2.pending.renames = []) := by
  induction queue generalizing w with
  | nil => exact ⟨follows, fun _ => holds⟩
  | cons action rest ih =>
    obtain ⟨kept, taken⟩ := applyRename_follows host holds follows
    cases result : (w.applyRename host action).1 with
    | error e =>
      rw [Worker.renameLoop_error host result]
      constructor
      · exact kept
      · intro ok
        cases ok
    | ok value =>
      rw [Worker.renameLoop_ok host result]
      exact ih _ rfl taken

theorem processRenames_follows (host : Host) (follows : w.Follows objects t) :
    (w.processRenames host).2.Follows objects t ∧
      (w.cancelled = false → (w.processRenames host).1 = .ok () →
        (w.processRenames host).2.pending.renames = []) := by
  unfold Worker.processRenames
  by_cases cancelled : w.cancelled
  · rw [if_pos cancelled]
    exact ⟨follows, fun running => by simp [cancelled] at running⟩
  · rw [if_neg cancelled,
      Pending.expireRenames_of_nil follows.trackedFrom follows.untrackedFrom]
    have loop := renameLoop_follows host w.pending.renames w rfl follows
    exact ⟨loop.1, fun _ => loop.2⟩

/-- The event of a rename. -/
def renameEvent (source target : String) (tracker : Option Nat) : Event :=
  ⟨.modifyName .both, [source, target], tracker⟩

theorem receive_follows (follows : w.Follows objects t) (step : Followed w.rules t a b t₁)
    (source target : String) (tracker : Option Nat) (now : Nat)
    (isSource : eventPath w.config.watchDir source = w.config.watchDir ++ a)
    (isTarget : eventPath w.config.watchDir target = w.config.watchDir ++ b) :
    (w.receive (renameEvent source target tracker) now).Follows objects t₁ := by
  have received : w.receive (renameEvent source target tracker) now =
      { w with
        pending :=
          { w.pending with
            generation := w.pending.generation + 1
            renames := w.pending.renames ++
              [⟨w.config.watchDir ++ a, some (w.config.watchDir ++ b)⟩] } } := by
    have expired := Pending.expireRenames_of_nil
      (p := { w.pending with generation := w.pending.generation + 1 }) follows.trackedFrom
      follows.untrackedFrom now
    unfold Worker.receive Pending.receiveEvent renameEvent
    simp [isSource, isTarget, expired]
  rw [received]
  apply follows.next
  · rfl
  · rfl
  · rfl
  · rfl
  · rcases follows.queue with ⟨t₀, chain, synced⟩ | ⟨t₀, t₁', a', b', rest, front, first, chain,
      synced⟩
    · exact .inl ⟨t₀, chain.snoc step, synced.shows, synced.recorded, synced.objects⟩
    · refine .inr ⟨t₀, t₁', a', b', rest ++ [⟨w.config.watchDir ++ a, some (w.config.watchDir ++ b)⟩],
        ?_, first, chain.snoc step, synced.shows, synced.recorded, synced.objects⟩
      simp [front]

end Apply

/-- The watcher is idle, and its tables show the directory. -/
structure Worker.Settled (w : Worker) (t : DirTree ObjectId) : Prop where
  root : Normal w.config.watchDir
  renames : w.pending.renames = []
  trackedFrom : w.pending.trackedFrom = []
  untrackedFrom : w.pending.untrackedFrom = []
  shows : w.engine.store.Shows w.watchKey t
  recorded : w.engine.store.Recorded t

/-- Files and directories are renamed, each rename is reported by an event, and the worker takes up
its queue from time to time, whatever it finds on disk. -/
inductive RenameRun (w₀ : Worker) (t₀ : DirTree ObjectId) : Worker → DirTree ObjectId → Prop
  | start : RenameRun w₀ t₀ w₀ t₀
  | rename {w : Worker} {t t' : DirTree ObjectId} {a b : FilePath} (source target : String)
      (tracker : Option Nat) (now : Nat) (run : RenameRun w₀ t₀ w t)
      (step : Followed w.rules t a b t')
      (isSource : eventPath w.config.watchDir source = w.config.watchDir ++ a)
      (isTarget : eventPath w.config.watchDir target = w.config.watchDir ++ b) :
      RenameRun w₀ t₀ (w.receive (renameEvent source target tracker) now) t'
  | round {w : Worker} {t : DirTree ObjectId} (host : Host) (run : RenameRun w₀ t₀ w t) :
      RenameRun w₀ t₀ (w.renameRound host) t
  | call {w : Worker} {t : DirTree ObjectId} (host : Host) (run : RenameRun w₀ t₀ w t) :
      RenameRun w₀ t₀ (w.processRenames host).2 t

section Runs

variable {w₀ w : Worker} {t₀ t : DirTree ObjectId}

theorem RenameRun.follows (run : RenameRun w₀ t₀ w t) (settled : w₀.Settled t₀) :
    w.Follows w₀.engine.store.objects t := by
  induction run with
  | start =>
    refine ⟨settled.root, settled.trackedFrom, settled.untrackedFrom, .inl ⟨t₀, ?_, ?_⟩⟩
    · rw [settled.renames]
      exact .nil t₀
    · exact ⟨settled.shows, settled.recorded, rfl⟩
  | rename source target tracker now run step isSource isTarget ih =>
    exact receive_follows ih step source target tracker now isSource isTarget
  | round host run ih => exact renameRound_follows host ih
  | call host run ih => exact (processRenames_follows host ih).1

/-- Once `process_renames` returns without an error, the names and the tracked files are those of
the directory, each file with the object it had at first, and all objects have their records. -/
theorem rename_queue_follows_disk (run : RenameRun w₀ t₀ w t) (settled : w₀.Settled t₀)
    (host : Host) (running : w.cancelled = false) (ok : (w.processRenames host).1 = .ok ()) :
    (w.processRenames host).2.engine.store.Shows (w.processRenames host).2.watchKey t ∧
      (w.processRenames host).2.engine.store.objects = w₀.engine.store.objects := by
  obtain ⟨follows, emptied⟩ := processRenames_follows host (run.follows settled)
  have empty := emptied running ok
  rcases follows.queue with ⟨t₁, chain, synced⟩ | ⟨_, _, _, _, _, front, _⟩
  · rw [empty] at chain
    cases chain
    exact ⟨synced.shows, synced.objects⟩
  · rw [empty] at front
    cases front

end Runs

/-! ## Renames, followed and not followed -/

namespace RenameSample

/-- The names of the files of a list, with their objects. -/
def filesOf (entries : List (FilePath × Node ObjectId)) : List (String × ObjectId) :=
  entries.filterMap fun e =>
    match e.2 with
    | .file id => some (text e.1, id)
    | .dir => none

theorem mem_filesOf {entries : List (FilePath × Node ObjectId)} {placed : WellPlaced entries}
    (distinct : (entries.map Prod.fst).Nodup) {name : String} {id : ObjectId} :
    (name, id) ∈ filesOf entries ↔
      ∃ p, (DirTree.ofList entries placed).entry p = some (.file id) ∧ name = text p := by
  simp only [DirTree.entry_ofList distinct]
  unfold filesOf
  rw [List.mem_filterMap]
  constructor
  · rintro ⟨⟨p, node⟩, there, same⟩
    cases node with
    | dir => cases same
    | file id' =>
      obtain ⟨rfl, rfl⟩ := Prod.mk.inj (Option.some.inj same)
      exact ⟨p, there, rfl⟩
  · rintro ⟨p, there, rfl⟩
    exact ⟨(p, .file id), there, rfl⟩

/-- A worker is settled if its tables list the files of the tree. -/
theorem settled_of_lists {w : Worker} {entries : List (FilePath × Node ObjectId)}
    {placed : WellPlaced entries} (distinct : (entries.map Prod.fst).Nodup)
    (root : Normal w.config.watchDir) (idle : w.pending = .empty)
    (bound : (w.engine.store.names.toList.filterMap fun e =>
      (MetadataStore.objectIdOf e.2).map fun id => (e.1, id)) = filesOf entries)
    (tracked : w.engine.store.listWatcherFiles w.watchKey = (filesOf entries).map Prod.fst)
    (recorded : ∀ file ∈ filesOf entries,
      (w.engine.store.getObject file.2).toOption.join.isSome) :
    w.Settled (DirTree.ofList entries placed) where
  root := root
  renames := by rw [idle]; rfl
  trackedFrom := by rw [idle]; rfl
  untrackedFrom := by rw [idle]; rfl
  shows := by
    constructor
    · intro name id
      rw [← mem_filesOf distinct, ← bound, List.mem_filterMap]
      unfold MetadataStore.resolveName
      rw [Option.bind_eq_some_iff]
      constructor
      · rintro ⟨value, there, isId⟩
        exact ⟨(name, value), Std.ExtTreeMap.mem_toList_iff_getElem?_eq_some.2 there, by rw [isId]; rfl⟩
      · rintro ⟨⟨name', value⟩, there, same⟩
        obtain ⟨id', isId, same⟩ := Option.map_eq_some_iff.1 same
        obtain ⟨rfl, rfl⟩ := Prod.mk.inj same
        exact ⟨value, Std.ExtTreeMap.mem_toList_iff_getElem?_eq_some.1 there, isId⟩
    · intro name
      rw [tracked, List.mem_map]
      constructor
      · rintro ⟨⟨name', id⟩, there, rfl⟩
        obtain ⟨p, file, same⟩ := (mem_filesOf distinct).1 there
        exact ⟨p, id, file, same⟩
      · rintro ⟨p, id, file, rfl⟩
        exact ⟨(text p, id), (mem_filesOf distinct).2 ⟨p, file, rfl⟩, rfl⟩
  recorded := by
    intro p id file
    have known := recorded _ ((mem_filesOf distinct).2 ⟨p, file, rfl⟩)
    obtain ⟨record, found⟩ := Option.isSome_iff_exists.1 known
    cases result : w.engine.store.getObject id with
    | error e =>
      rw [result] at found
      cases found
    | ok stored =>
      rw [result] at found
      exact ⟨record, congrArg Except.ok found⟩

/-- The directory `docs` with a file, and two files beside it. -/
def entries : List (FilePath × Node ObjectId) :=
  [(["a"], .file (idOf 1)), (["docs-old"], .file (idOf 3)), (["docs"], .dir),
    (["docs", "x"], .file (idOf 2))]

theorem wellPlaced : WellPlaced entries := by decide

def tree : DirTree ObjectId := .ofList entries wellPlaced

/-- The directory is renamed, the files `a` and `old/x` change places through a temporary name, and
`docs-old` is replaced by `a`. -/
theorem canRename₁ : CanRename tree ["docs"] ["old"] :=
  ⟨by decide, by decide, ⟨by decide, .inl (by decide)⟩, [], "old", rfl, rfl, by decide⟩

def tree₁ : DirTree ObjectId := tree.renamed canRename₁

theorem canRename₂ : CanRename tree₁ ["a"] ["tmp"] :=
  ⟨by decide, by decide, ⟨by decide, .inl (by decide)⟩, [], "tmp", rfl, rfl, by decide⟩

def tree₂ : DirTree ObjectId := tree₁.renamed canRename₂

theorem canRename₃ : CanRename tree₂ ["old", "x"] ["a"] :=
  ⟨by decide, by decide, ⟨by decide, .inl (by decide)⟩, [], "a", rfl, rfl, by decide⟩

def tree₃ : DirTree ObjectId := tree₂.renamed canRename₃

theorem canRename₄ : CanRename tree₃ ["tmp"] ["old", "x"] :=
  ⟨by decide, by decide, ⟨by decide, .inl (by decide)⟩, ["old"], "x", rfl, rfl, by decide⟩

def tree₄ : DirTree ObjectId := tree₃.renamed canRename₄

theorem canRename₅ : CanRename tree₄ ["a"] ["docs-old"] :=
  ⟨by decide, by decide, ⟨by decide, .inr (.inl ⟨idOf 2, idOf 3, by decide, by decide⟩)⟩, [],
    "docs-old", rfl, rfl, by decide⟩

def tree₅ : DirTree ObjectId := tree₄.renamed canRename₅

/-- A file that is renamed takes nothing along. -/
theorem followed_file {t : DirTree ObjectId} {a b : FilePath} {f : ObjectId} (can : CanRename t a b)
    (file : t.entry a = some (.file f)) (plainA : Plain a) (plainB : Plain b)
    (valid : (validateLogicalName (text b)).isOk = true) : Followed ⟨[]⟩ t a b (t.renamed can) where
  renames := renames_renamed can
  plainSource := plainA
  plainTarget := plainB
  source := rfl
  target := rfl
  moved := by
    intro q id there
    by_cases whole : q = []
    · rw [whole, List.append_nil]
      exact ⟨rfl, Result.eq_ok valid⟩
    · rw [t.below_file file whole] at there
      cases there

theorem followed₁ (valid : (validateLogicalName (text ["old", "x"])).isOk = true) :
    Followed ⟨[]⟩ tree ["docs"] ["old"] tree₁ where
  renames := renames_renamed canRename₁
  plainSource := by decide
  plainTarget := by decide
  source := rfl
  target := rfl
  moved := by
    intro q id there
    have listed := (DirTree.entry_ofList (by decide)).1 there
    obtain ⟨rfl, -⟩ : q = ["x"] ∧ id = idOf 2 := by simpa [entries] using listed
    exact ⟨rfl, Result.eq_ok valid⟩

/-- The tables list the three files. -/
def start : Worker := worker [("a", idOf 1), ("docs/x", idOf 2), ("docs-old", idOf 3)] []

/-- The directory with a file whose name has a backslash. -/
def backslashTree : DirTree ObjectId := .ofList [(["a\\b"], .file (idOf 1))] (by decide)

def backslashWorker : Worker := worker [("a\\b", idOf 1)] []

theorem settled_samples : start.Settled tree ∧ backslashWorker.Settled backslashTree := by
  constructor
  · exact settled_of_lists (by decide) (by decide) rfl (by decide +kernel) (by decide +kernel)
      (by decide +kernel)
  · exact settled_of_lists (by decide) (by decide) rfl (by decide +kernel) (by decide +kernel)
      (by decide +kernel)

/-- The event of a rename below the watched directory arrives. -/
def reported (w : Worker) (source target : String) : Worker :=
  w.receive (renameEvent ("/watched/" ++ source) ("/watched/" ++ target) none) 0

theorem reports {w : Worker} {t t' : DirTree ObjectId} {a b : FilePath} (source target : String)
    (run : RenameRun start tree w t) (step : Followed ⟨[]⟩ t a b t')
    (rules : w.rules.patterns.isEmpty = true) (root : w.config.watchDir = ["watched"])
    (isSource : eventPath ["watched"] ("/watched/" ++ source) = "watched" :: a)
    (isTarget : eventPath ["watched"] ("/watched/" ++ target) = "watched" :: b) :
    RenameRun start tree (reported w source target) t' := by
  have same : w.rules = ⟨[]⟩ := by
    cases rules' : w.rules with
    | mk patterns =>
      rw [rules', List.isEmpty_iff] at rules
      exact congrArg IgnoreRules.mk rules
  exact .rename _ _ none 0 run (same ▸ step) (by rw [root]; exact isSource) (by rw [root]; exact isTarget)

/-- The worker goes on after two events, and takes up its whole queue after the third. -/
def begun : Worker := (reported (reported start "docs" "old") "a" "tmp").renameRound host

def halfway : Worker := ((reported begun "old/x" "a").processRenames host).2

def finished : Worker := reported (reported halfway "tmp" "old/x") "a" "docs-old"

theorem run_finished : RenameRun start tree finished tree₅ := by
  have valid : ∀ p ∈ [["tmp"], ["a"], ["old", "x"], ["docs-old"]],
      (validateLogicalName (text p)).isOk = true := by decide +kernel
  have kept : ∀ w ∈ [begun, halfway], w.rules.patterns.isEmpty = true ∧ w.config.watchDir = ["watched"] := by
    decide +kernel
  have one := reports "docs" "old" .start (followed₁ (valid _ (by decide))) rfl rfl (by decide +kernel) (by decide +kernel)
  have two := reports "a" "tmp" one
    (followed_file canRename₂ (f := idOf 1) (by decide) (by decide) (by decide) (valid _ (by decide))) rfl rfl
    (by decide +kernel) (by decide +kernel)
  have three := reports "old/x" "a" (.round host two)
    (followed_file canRename₃ (f := idOf 2) (by decide) (by decide) (by decide) (valid _ (by decide)))
    (kept begun (by simp)).1 (kept begun (by simp)).2 (by decide +kernel) (by decide +kernel)
  have four := reports "tmp" "old/x" (.call host three)
    (followed_file canRename₄ (f := idOf 1) (by decide) (by decide) (by decide) (valid _ (by decide)))
    (kept halfway (by simp)).1 (kept halfway (by simp)).2 (by decide +kernel) (by decide +kernel)
  exact reports "a" "docs-old" four
    (followed_file canRename₅ (f := idOf 2) (by decide) (by decide) (by decide) (valid _ (by decide)))
    (kept halfway (by simp)).1 (kept halfway (by simp)).2 (by decide +kernel) (by decide +kernel)

theorem canRename_backslash : CanRename backslashTree ["a\\b"] ["c"] :=
  ⟨by decide, by decide, ⟨by decide, .inl (by decide)⟩, [], "c", rfl, rfl, by decide⟩

end RenameSample

open RenameSample in
/-- A directory, a swap of two files and a file that replaces another: each object is bound where its
file is, and the tables of the file that was replaced are kept. -/
theorem renamed_files_are_followed :
    (finished.processRenames host).2.engine.store.Shows "/watched" tree₅ ∧
      (finished.processRenames host).2.engine.store.resolveName "docs-old" = some (idOf 2) ∧
      (finished.processRenames host).2.engine.store.resolveName "old/x" = some (idOf 1) ∧
      (finished.processRenames host).2.engine.store.objects = start.engine.store.objects := by
  have done : finished.cancelled = false ∧ (finished.processRenames host).1.isOk = true ∧
      (finished.processRenames host).2.watchKey = "/watched" := by decide +kernel
  obtain ⟨running, ok, key⟩ := done
  obtain ⟨shows, objects⟩ := rename_queue_follows_disk run_finished settled_samples.1 host running
    (Result.eq_ok ok)
  refine ⟨key ▸ shows, (shows.bound _ _).2 ⟨["docs-old"], by decide, by decide⟩,
    (shows.bound _ _).2 ⟨["old", "x"], by decide, by decide⟩, objects⟩

open RenameSample in
/-- A file whose name has a backslash is renamed: its name does not follow. -/
theorem backslash_name_is_not_followed :
    backslashWorker.Settled backslashTree ∧
      Renames backslashTree ["a\\b"] ["c"] (backslashTree.renamed canRename_backslash) ∧
      validateLogicalName "a\\b" = .ok () ∧ validateLogicalName "c" = .ok () ∧
      ((reported backslashWorker "a\\b" "c").processRenames host).1 = .ok () ∧
      ((reported backslashWorker "a\\b" "c").processRenames host).2.engine.store.resolveName "c" =
        none := by
  refine ⟨settled_samples.2, renames_renamed _, ?_, ?_, ?_, ?_⟩
  · exact Result.eq_ok (by decide +kernel)
  · exact Result.eq_ok (by decide +kernel)
  · exact Result.eq_ok (by decide +kernel)
  · decide +kernel

end OosLite
