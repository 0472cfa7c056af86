import OosLite.Watcher.Proofs.Walk
import OosLite.Watcher.Proofs.Existing
import OosLite.Watcher.Proofs.RenameQueue
import OosLite.Reference

/-!
# What a scan unbinds

A scan that is disturbed unbinds nothing. Any other scan unbinds the tracked names below the logical
names of the paths that are gone, and these are gone too unless a name has a backslash or ends in a
separator.
-/

namespace OosLite

open Files (IoError)
open FilePath

namespace Worker

/-! ## The sweep -/

section Sweep

variable {host : Host}

/-- A name that is at or below the logical name of a path. -/
def Covers (w : Worker) (path : FilePath) (name : String) : Prop :=
  ∃ source, w.sourceName ⟨path, none⟩ = some source ∧ (suffixOf source name).isSome

theorem covers_congr {w w' : Worker} (config : w'.config = w.config) (rules : w'.rules = w.rules)
    (path : FilePath) (name : String) : w'.Covers path name ↔ w.Covers path name := by
  unfold Covers
  rw [sourceName_congr config rules]

/-- The deletion of a path that is gone: it is rejected, or it moves the names. -/
theorem applyRename_gone (w : Worker) {path : FilePath}
    (gone : host.metadata path = .error .notFound) :
    (w.MoveRejected ⟨path, none⟩ ∧ ∃ e, w.applyRename host ⟨path, none⟩ = (.error e, w)) ∨
      (¬ w.MoveRejected ⟨path, none⟩ ∧ (w.applyRename host ⟨path, none⟩).1 = .ok () ∧
        Requeues (w.withTables (w.movedTables ⟨path, none⟩))
          (w.applyRename host ⟨path, none⟩).2) := by
  have known : Visible host path := .inr gone
  have notBack : w.isBack host ⟨path, none⟩ = false := by
    unfold isBack
    simp [gone, Except.isOk, Except.toBool]
  rcases applyRename_cases host w ⟨path, none⟩ with
    ⟨_, back, _⟩ | ⟨unknown, _⟩ | ⟨_, _, result⟩
  · rw [notBack] at back
    cases back
  · exact absurd (fun _ _ => known) unknown
  · by_cases rejected : w.MoveRejected ⟨path, none⟩
    · obtain ⟨e, failed⟩ := applyMove_of_rejected host rejected
      exact .inl ⟨rejected, e, result.trans failed⟩
    · have passable : w.Passable host ⟨path, none⟩ := by
        refine ⟨fun _ _ => known, fun _ => rejected, ?_⟩
        intro target some
        cases some
      have tables := applyRename_tables host passable
      unfold tablesAfter at tables
      rw [notBack, if_neg (by simp)] at tables
      exact .inr ⟨rejected, (applyRename_ok host).2 passable, tables⟩

/-- The deletions of paths that are gone unbind the tracked names at and below the logical names of
these paths, if the records of all named objects can be read. -/
theorem renameLoop_gone (missing : List FilePath)
    (gone : ∀ path ∈ missing, host.metadata path = .error .notFound) (w : Worker)
    (name : String) (id : ObjectId) :
    (renameLoop host (missing.map fun path => ⟨path, none⟩) w).2.engine.store.resolveName name =
        some id ↔
      w.engine.store.resolveName name = some id ∧
        ¬ (w.engine.store.Readable ∧ w.engine.store.Listed name ∧
          name ∈ w.engine.store.listWatcherFiles w.watchKey ∧
          ∃ path ∈ missing, w.Covers path name) := by
  induction missing generalizing w with
  | nil => simp [renameLoop]
  | cons path rest ih =>
    rw [List.forall_mem_cons] at gone
    simp only [List.map_cons]
    rcases applyRename_gone w gone.1 with ⟨rejected, e, result⟩ | ⟨accepted, ok, requeues⟩
    · rw [renameLoop_error host (congrArg Prod.fst result), result]
      have unreadable := ((moveRejected_none_iff w path).1 rejected).2
      simp [unreadable]
    · rw [renameLoop_ok host ok]
      generalize next : (w.applyRename host ⟨path, none⟩).2.withRenames
        (rest.map fun path => ⟨path, none⟩) = w'
      have store : w'.engine.store = w.movedTables ⟨path, none⟩ := by
        subst next
        exact congrArg Engine.store requeues.engine
      have key : w'.watchKey = w.watchKey := by
        subst next
        exact requeues.watchKey
      have config : w'.config = w.config := by
        subst next
        exact requeues.config
      have rules : w'.rules = w.rules := by
        subst next
        exact requeues.rules
      have covers : ∀ path, w'.Covers path name ↔ w.Covers path name :=
        fun path => covers_congr config rules path name
      rw [ih gone.2, store, key]
      simp only [covers, List.exists_mem_cons_iff]
      cases source : w.sourceName ⟨path, none⟩ with
      | none =>
        have still : w.movedTables ⟨path, none⟩ = w.engine.store := by
          unfold movedTables
          rw [source]
        have uncovered : ¬ w.Covers path name := by
          intro h
          obtain ⟨f, named, _⟩ := h
          rw [source] at named
          cases named
        rw [still]
        simp [uncovered]
      | some f =>
        have readable : w.engine.store.Readable := by
          apply Classical.byContradiction
          intro unreadable
          exact accepted ((moveRejected_none_iff w path).2 ⟨by rw [source]; rfl, unreadable⟩)
        have moved : w.movedTables ⟨path, none⟩ =
            w.engine.store.afterMove w.watchKey f none fun name => !w.rules.isIgnored name := by
          unfold movedTables
          rw [source]
          rfl
        have here : w.Covers path name ↔ (suffixOf f name).isSome := by
          unfold Covers
          rw [source]
          simp
        rw [moved, MetadataStore.unbound_resolveName _ _ _ readable,
          MetadataStore.unbound_listed _ _ _ readable,
          MetadataStore.unbound_listWatcherFiles _ _ _ readable, here]
        have later := MetadataStore.unbound_readable w.watchKey f
          (fun name => !w.rules.isIgnored name) readable
        unfold MetadataStore.Goes
        simp only [later, readable, true_and]
        grind

/-- The paths of the tracked names that are gone, if this can be told of all of them. -/
theorem missingPaths_ok {root : FilePath} {seen names : List String} {missing : List FilePath} :
    missingPaths host root seen names = .ok missing →
      ∀ path, path ∈ missing ↔ ∃ name ∈ names, name ∉ seen ∧
        host.symlinkMetadata (root.join name) = .error .notFound ∧ path = root.join name := by
  induction names generalizing missing with
  | nil =>
    intro h
    cases h
    simp
  | cons name rest ih =>
    intro h
    unfold missingPaths at h
    simp only [List.exists_mem_cons_iff]
    split at h
    · rename_i known
      simpa [known] using ih h
    · rename_i unseen
      split at h
      · rename_i found
        simpa [unseen, found] using ih h
      · rename_i gone
        rw [Result.bind_eq_ok] at h
        obtain ⟨missing', result, same⟩ := h
        cases same
        intro path
        rw [List.mem_cons, ih result]
        simp [unseen, gone]
      · cases h

theorem missingPaths_error {root : FilePath} {seen names : List String} {error : OosLiteError} :
    missingPaths host root seen names = .error error →
      ∃ name ∈ names, name ∉ seen ∧
        ∃ e, host.symlinkMetadata (root.join name) = .error e ∧ e ≠ .notFound := by
  induction names with
  | nil =>
    intro h
    cases h
  | cons name rest ih =>
    intro h
    unfold missingPaths at h
    simp only [List.exists_mem_cons_iff]
    split at h
    · exact .inr (ih h)
    · rename_i unseen
      split at h
      · exact .inr (ih h)
      · apply Or.inr
        apply ih
        cases result : missingPaths host root seen rest with
        | ok missing =>
          rw [result] at h
          cases h
        | error e =>
          rw [result] at h
          exact h
      · rename_i e other failed
        exact .inl ⟨unseen, e, failed, other⟩

theorem missingPaths_not_ok {root : FilePath} {seen names : List String} {name : String}
    {e : IoError} {missing : List FilePath} (there : name ∈ names) (unseen : name ∉ seen)
    (failed : host.symlinkMetadata (root.join name) = .error e) (unknown : e ≠ .notFound) :
    missingPaths host root seen names ≠ .ok missing := by
  induction names generalizing missing with
  | nil => cases there
  | cons first rest ih =>
    intro h
    unfold missingPaths at h
    rcases List.mem_cons.1 there with rfl | there
    · rw [if_neg unseen, failed] at h
      cases e <;> first | exact unknown rfl | cases h
    · split at h
      · exact ih there h
      · split at h
        · exact ih there h
        · rw [Result.bind_eq_ok] at h
          obtain ⟨missing', result, _⟩ := h
          exact ih there result
        · cases h

end Sweep

/-! ## The scan -/

section Scan

variable (env : Env) (host : Host) (w : Worker) (meanwhile : Nat → Meanwhile)

/-- The watched directory can be told to be one. -/
def RootIsDir : Prop :=
  ∃ metadata, host.metadata w.config.watchDir = .ok metadata ∧ metadata.fileType = .dir

/-- An entry of the walk, or its metadata, cannot be read. -/
def EntryFails (item : FilePath × Except IoError FileType) : Prop :=
  item.2.isOk = false ∨ (host.metadata item.1).isOk = false

/-- What keeps a scan from unbinding names. -/
inductive Disturbed : Prop
  | root (noDir : ¬ RootIsDir host w)
  | entry (item : FilePath × Except IoError FileType)
      (there : item ∈ host.walkIncluded w.config.watchDir w.scanIncludes)
      (fails : EntryFails host item)
  | ingest (failed : (w.scanWalk env host meanwhile).2.ingestError ≠ none)
  | cancelled (stopped : (w.scanWalk env host meanwhile).1 ≠ .ok () ∨
      (w.scanWalk env host meanwhile).2.worker.cancelled = true)
  | rename (waiting : w.pending.hasRenames = true ∨
      (w.scanWalk env host meanwhile).2.worker.pending.hasRenames = true)
  | generation (changed : (w.scanWalk env host meanwhile).2.worker.pending.generation ≠
      w.pending.generation)
  | lookup (name : String) (e : IoError)
      (tracked : name ∈ (w.scanWalk env host meanwhile).2.worker.engine.store.listWatcherFiles
        w.watchKey)
      (unseen : name ∉ (w.scanWalk env host meanwhile).2.seen)
      (failed : host.symlinkMetadata (w.config.watchDir.join name) = .error e)
      (unknown : e ≠ .notFound)

end Scan

end Worker

namespace ScanState

variable {env : Env} {host : Host}

theorem takeIn_scanError (s : ScanState) (path : FilePath) (metadata : FileMetadata) :
    (s.takeIn env host path metadata).scanError = s.scanError := by
  unfold takeIn
  simp only
  split
  · rfl
  · split
    · rfl
    · rfl

/-- An entry that cannot be read is recorded, and nothing else is. -/
theorem entry_scanError (s : ScanState) (item : FilePath × Except IoError FileType) :
    (s.entry env host item).scanError ≠ none ↔
      s.scanError ≠ none ∨ Worker.EntryFails host item := by
  unfold entry Worker.EntryFails
  cases item.2 with
  | error e => simp [Except.isOk, Except.toBool]
  | ok kind =>
    simp only
    cases host.metadata item.1 with
    | error e => simp [Except.isOk, Except.toBool]
    | ok metadata =>
      simp only
      split
      · rw [takeIn_scanError]
        simp [Except.isOk, Except.toBool]
      · simp [Except.isOk, Except.toBool]

theorem loop_scanError (meanwhile : Nat → Meanwhile) (i : Nat)
    (items : List (FilePath × Except IoError FileType)) (s : ScanState)
    (ended : (loop env host meanwhile i items s).1 = .ok ()) :
    (loop env host meanwhile i items s).2.scanError ≠ none ↔
      s.scanError ≠ none ∨ ∃ item ∈ items, Worker.EntryFails host item := by
  induction items generalizing i s with
  | nil => simp [loop]
  | cons item rest ih =>
    unfold loop at ended ⊢
    simp only at ended ⊢
    split at ended
    · cases ended
    · rename_i running
      rw [if_neg running, ih _ _ ended, entry_scanError, List.exists_mem_cons_iff, or_assoc]

end ScanState

namespace Worker

section Scan

variable {env : Env} {host : Host} {w : Worker} {meanwhile : Nat → Meanwhile}

theorem scanWalk_scanError (ended : (w.scanWalk env host meanwhile).1 = .ok ()) :
    (w.scanWalk env host meanwhile).2.scanError ≠ none ↔
      ∃ item ∈ host.walkIncluded w.config.watchDir w.scanIncludes, EntryFails host item := by
  have loop := ScanState.loop_scanError meanwhile 0
    (host.walkIncluded w.config.watchDir w.scanIncludes) ⟨w, [], none, none⟩ ended
  unfold scanWalk
  simpa using loop

/-- The worker when the walk is over, or when there is none. -/
def walkEnd (env : Env) (host : Host) (w : Worker) (meanwhile : Nat → Meanwhile) : Worker :=
  match host.metadata w.config.watchDir with
  | .ok metadata =>
    if metadata.fileType = .dir then (w.scanWalk env host meanwhile).2.worker else w
  | .error _ => w

variable (env host w meanwhile) in
theorem gathers_walkEnd : Gathers w (w.walkEnd env host meanwhile) := by
  unfold walkEnd
  split
  · split
    · exact gathers_scanWalk env host w meanwhile
    · exact .refl w
  · exact .refl w

variable (env meanwhile) in
theorem scanInner_of_root (isDir : RootIsDir host w) :
    w.walkEnd env host meanwhile = (w.scanWalk env host meanwhile).2.worker ∧
      w.scanInner env host meanwhile =
        match (w.scanWalk env host meanwhile).1 with
        | .error e => (.error e, (w.scanWalk env host meanwhile).2.worker)
        | .ok () => finishScan host (w.scanWalk env host meanwhile).2 w.pending.generation := by
  obtain ⟨metadata, found, dir⟩ := isDir
  unfold walkEnd scanInner
  rw [found]
  constructor
  · exact if_pos dir
  · exact if_neg (not_not_intro dir)

variable (env meanwhile) in
theorem scanInner_of_not_root (noDir : ¬ RootIsDir host w) :
    w.walkEnd env host meanwhile = w ∧ (w.scanInner env host meanwhile).2 = w := by
  unfold walkEnd scanInner
  cases found : host.metadata w.config.watchDir with
  | error e => exact ⟨rfl, rfl⟩
  | ok metadata =>
    have other : metadata.fileType ≠ .dir := fun dir => noDir ⟨metadata, found, dir⟩
    simp only
    rw [if_neg other, if_pos other]
    exact ⟨rfl, rfl⟩

/-- The sweep of a worker that holds no rename. -/
theorem unbindMissing_of_idle {seen : List String} {missing : List FilePath}
    (idle : w.pending.hasRenames = false) (running : w.cancelled = false)
    (found : missingPaths host w.config.watchDir seen
      (w.engine.store.listWatcherFiles w.watchKey) = .ok missing) :
    w.unbindMissing host seen = renameLoop host (missing.map fun source => ⟨source, none⟩)
      (w.withRenames (missing.map fun source => ⟨source, none⟩)) := by
  obtain ⟨renames, tracked, untracked⟩ := Pending.hasRenames_eq_false.1 idle
  unfold unbindMissing
  rw [found]
  simp only
  rw [renames, List.nil_append]
  unfold processRenames
  rw [if_neg (by change ¬ w.cancelled = true; rw [running]; exact Bool.false_ne_true)]
  have kept : (w.withRenames (missing.map fun source => ⟨source, none⟩)).pending.expireRenames
      host.now = (w.withRenames (missing.map fun source => ⟨source, none⟩)).pending := by
    apply Pending.expireRenames_of_nil
    · exact tracked
    · exact untracked
  simp only [kept]
  rfl

/-- The worker with the ignore rules that a scan loads. -/
def withRules (w : Worker) (rules : IgnoreRules) : Worker := { w with rules }

theorem scan_worker (w : Worker) (rules : IgnoreRules) :
    (w.scan env host rules meanwhile).2 =
      ((w.withRules rules).scanInner env host meanwhile).2 := by
  unfold scan
  simp only
  split
  · rfl
  · rfl
  · rfl

/-- A scan that is disturbed leaves the worker as it was when the walk was over. -/
theorem scanInner_of_disturbed (disturbed : Disturbed env host w meanwhile) :
    (w.scanInner env host meanwhile).2 = w.walkEnd env host meanwhile := by
  by_cases isDir : RootIsDir host w
  · obtain ⟨same, inner⟩ := scanInner_of_root env meanwhile isDir
    rw [same, inner]
    have gathers := gathers_scanWalk env host w meanwhile
    cases ended : (w.scanWalk env host meanwhile).1 with
    | error e => rfl
    | ok value =>
      have unread := scanWalk_scanError ended
      simp only
      unfold finishScan
      split
      · rfl
      · rename_i running
        split
        · rfl
        · rfl
        · rename_i noScanError noIngestError
          split
          · rfl
          · rename_i idle
            rw [Bool.or_eq_true, not_or, decide_eq_true_eq, not_not] at idle
            cases disturbed with
            | root noDir => exact absurd isDir noDir
            | entry item there fails => exact absurd noScanError (unread.2 ⟨item, there, fails⟩)
            | ingest failed => exact absurd noIngestError failed
            | cancelled stopped =>
              rcases stopped with stopped | stopped
              · exact absurd ended stopped
              · exact absurd stopped running
            | rename waiting =>
              rcases waiting with waiting | waiting
              · exact absurd (gathers.renames waiting) idle.1
              · exact absurd waiting idle.1
            | generation changed => exact absurd idle.2 changed
            | lookup name e tracked unseen failed unknown =>
              unfold unbindMissing
              rw [gathers.config, gathers.watchKey]
              split
              · rfl
              · rename_i missing found
                exact absurd found (missingPaths_not_ok tracked unseen failed unknown)
  · obtain ⟨same, inner⟩ := scanInner_of_not_root env meanwhile isDir
    rw [same, inner]

/-- A scan that is not disturbed ends with the sweep. -/
theorem scanInner_of_not_disturbed (h : ¬ Disturbed env host w meanwhile) :
    RootIsDir host w ∧ ∃ missing,
      missingPaths host w.config.watchDir (w.scanWalk env host meanwhile).2.seen
        ((w.walkEnd env host meanwhile).engine.store.listWatcherFiles w.watchKey) = .ok missing ∧
      (w.scanInner env host meanwhile).2 =
        (renameLoop host (missing.map fun source => ⟨source, none⟩)
          ((w.walkEnd env host meanwhile).withRenames
            (missing.map fun source => ⟨source, none⟩))).2 := by
  have isDir : RootIsDir host w := by
    apply Classical.byContradiction
    intro noDir
    exact h (.root noDir)
  refine ⟨isDir, ?_⟩
  obtain ⟨same, inner⟩ := scanInner_of_root env meanwhile isDir
  have gathers := gathers_scanWalk env host w meanwhile
  have ended : (w.scanWalk env host meanwhile).1 = .ok () := by
    apply Classical.byContradiction
    intro stopped
    exact h (.cancelled (.inl stopped))
  have running : (w.scanWalk env host meanwhile).2.worker.cancelled = false := by
    apply Bool.eq_false_iff.2
    intro stopped
    exact h (.cancelled (.inr stopped))
  have noScanError : (w.scanWalk env host meanwhile).2.scanError = none := by
    apply Classical.byContradiction
    intro failed
    obtain ⟨item, there, fails⟩ := (scanWalk_scanError ended).1 failed
    exact h (.entry item there fails)
  have noIngestError : (w.scanWalk env host meanwhile).2.ingestError = none := by
    apply Classical.byContradiction
    intro failed
    exact h (.ingest failed)
  have idle : (w.scanWalk env host meanwhile).2.worker.pending.hasRenames = false := by
    apply Bool.eq_false_iff.2
    intro waiting
    exact h (.rename (.inr waiting))
  have quiet : (w.scanWalk env host meanwhile).2.worker.pending.generation =
      w.pending.generation := by
    apply Classical.byContradiction
    intro changed
    exact h (.generation changed)
  rw [same, inner, ended]
  simp only
  unfold finishScan
  rw [if_neg (by simp [running]), noScanError, noIngestError]
  simp only
  rw [if_neg (by simp [idle, quiet])]
  cases found : missingPaths host w.config.watchDir (w.scanWalk env host meanwhile).2.seen
      ((w.scanWalk env host meanwhile).2.worker.engine.store.listWatcherFiles w.watchKey) with
  | error e =>
    obtain ⟨name, tracked, unseen, e, failed, unknown⟩ := missingPaths_error found
    exact absurd (.lookup name e tracked unseen failed unknown) h
  | ok missing =>
    refine ⟨missing, rfl, ?_⟩
    rw [unbindMissing_of_idle idle running (by rw [gathers.config, gathers.watchKey]; exact found)]

end Scan

section Result

/-- A tracked file has this name. -/
def Tracks (w : Worker) (name : String) : Prop := name ∈ w.engine.store.listWatcherFiles w.watchKey

/-- The path of a name. -/
def pathOf (w : Worker) (name : String) : FilePath := w.config.watchDir.join name

/-- A tracked name that is gone when the walk is over and that the watcher does not call its path
by. -/
structure Misnamed (env : Env) (host : Host) (w : Worker) (meanwhile : Nat → Meanwhile)
    (name : String) : Prop where
  tracked : (w.walkEnd env host meanwhile).Tracks name
  unseen : name ∉ (w.scanWalk env host meanwhile).2.seen
  gone : host.symlinkMetadata (w.pathOf name) = .error .notFound
  inexact : ¬ Exact name

variable {env : Env} {host : Host} {onDisk : FilePath → Prop}

section Swept

variable {w : Worker} {meanwhile : Nat → Meanwhile}

/-- The tracked names that the sweep unbinds. -/
theorem sweep_resolveName (shows : host.ShowsDisk onDisk) {missing : List FilePath}
    (found : missingPaths host w.config.watchDir (w.scanWalk env host meanwhile).2.seen
      ((w.walkEnd env host meanwhile).engine.store.listWatcherFiles w.watchKey) = .ok missing)
    (name : String) (id : ObjectId) :
    (renameLoop host (missing.map fun source => ⟨source, none⟩)
        ((w.walkEnd env host meanwhile).withRenames
          (missing.map fun source => ⟨source, none⟩))).2.engine.store.resolveName name = some id ↔
      (w.walkEnd env host meanwhile).engine.store.resolveName name = some id ∧
        ¬ ((w.walkEnd env host meanwhile).engine.store.Readable ∧
          (w.walkEnd env host meanwhile).engine.store.Listed name ∧
          (w.walkEnd env host meanwhile).Tracks name ∧
          ∃ path ∈ missing, w.Covers path name) := by
  have gone : ∀ path ∈ missing, host.metadata path = .error .notFound := by
    intro path there
    obtain ⟨name, _, _, gone, rfl⟩ := (missingPaths_ok found path).1 there
    exact (shows.gone _ gone).1
  have gathers := gathers_walkEnd env host w meanwhile
  rw [renameLoop_gone missing gone]
  have covers : ∀ path, ((w.walkEnd env host meanwhile).withRenames
      (missing.map fun source => ⟨source, none⟩)).Covers path name ↔ w.Covers path name :=
    fun path => covers_congr gathers.config gathers.rules path name
  simp only [covers]
  rfl

/-- A path that is on disk is not below the path of an exact name that is gone. -/
theorem not_covers_of_exact (shows : host.ShowsDisk onDisk) (isDir : RootIsDir host w)
    {name other : String} (gone : host.symlinkMetadata (w.pathOf name) = .error .notFound)
    (exact : Exact name) (there : onDisk (w.pathOf other)) :
    ¬ w.Covers (w.pathOf name) other := by
  intro covers
  obtain ⟨source, named, below⟩ := covers
  have ends := getLast?_join w.config.watchDir exact.ends
  have absent := (shows.gone _ gone).2
  unfold sourceName at named
  rcases above_of_exact exact (Option.filter_eq_some_iff.1 named).1 below with above | same
  · exact absent (shows.above _ _ there above ends)
  · obtain ⟨metadata, found, _⟩ := isDir
    exact absent (shows.above _ _ (shows.found _ metadata found) (same ▸ List.prefix_rfl) ends)

end Swept

/-- The walk of a scan unbinds nothing; a scan that is disturbed unbinds nothing; and a scan unbinds
no tracked name whose path is on disk exactly if it is disturbed, or the record of a named object
cannot be read, or no such name is at or below the logical name of the path of a misnamed one. -/
theorem scan_keeps_existing_iff (shows : host.ShowsDisk onDisk) (w : Worker) (rules : IgnoreRules)
    (meanwhile : Nat → Meanwhile) :
    Gathers (w.withRules rules) ((w.withRules rules).walkEnd env host meanwhile) ∧
    (Disturbed env host (w.withRules rules) meanwhile → ∀ name id,
      w.engine.store.resolveName name = some id →
        (w.scan env host rules meanwhile).2.engine.store.resolveName name = some id) ∧
    ((∀ name id, ((w.withRules rules).walkEnd env host meanwhile).Tracks name →
      ((w.withRules rules).walkEnd env host meanwhile).engine.store.resolveName name = some id →
      onDisk (w.pathOf name) →
        (w.scan env host rules meanwhile).2.engine.store.resolveName name = some id) ↔
      Disturbed env host (w.withRules rules) meanwhile ∨
      ¬ ((w.withRules rules).walkEnd env host meanwhile).engine.store.Readable ∨
      ∀ name, Misnamed env host (w.withRules rules) meanwhile name → ∀ other,
        ((w.withRules rules).walkEnd env host meanwhile).Tracks other →
        ((w.withRules rules).walkEnd env host meanwhile).engine.store.Listed other →
        onDisk (w.pathOf other) → ¬ (w.withRules rules).Covers (w.pathOf name) other) := by
  rw [scan_worker]
  have paths : ∀ name, w.pathOf name = (w.withRules rules).pathOf name := fun _ => rfl
  have store : w.engine.store = (w.withRules rules).engine.store := rfl
  simp only [paths, store]
  generalize w.withRules rules = start
  have gathers := gathers_walkEnd env host start meanwhile
  refine ⟨gathers, ?_, ?_⟩
  · intro disturbed name id bound
    rw [scanInner_of_disturbed disturbed]
    exact gathers.tables.bound name id bound
  · by_cases disturbed : Disturbed env host start meanwhile
    · rw [scanInner_of_disturbed disturbed]
      simp only [disturbed, true_or, iff_true]
      intro name id _ bound _
      exact bound
    · obtain ⟨isDir, missing, found, swept⟩ := scanInner_of_not_disturbed disturbed
      rw [swept]
      simp only [sweep_resolveName shows found, disturbed, false_or]
      constructor
      · intro keeps
        rw [or_iff_not_imp_left, not_not]
        intro readable name misnamed other tracked listed there covers
        have bound := listed
        obtain ⟨id, record, bound, _⟩ := bound
        apply (keeps other id tracked bound there).2
        refine ⟨readable, listed, tracked, start.pathOf name, ?_, covers⟩
        refine (missingPaths_ok found _).2 ⟨name, ?_, misnamed.unseen, misnamed.gone, rfl⟩
        exact gathers.watchKey ▸ misnamed.tracked
      · intro condition name id tracked bound there
        refine ⟨bound, ?_⟩
        intro goes
        obtain ⟨readable, listed, _, path, isMissing, covers⟩ := goes
        rcases condition with unreadable | condition
        · exact unreadable readable
        · obtain ⟨name', tracked', unseen, gone, rfl⟩ := (missingPaths_ok found _).1 isMissing
          by_cases exact : Exact name'
          · exact not_covers_of_exact shows isDir gone exact there covers
          · have misnamed : Misnamed env host start meanwhile name' :=
              ⟨by unfold Tracks; rw [gathers.watchKey]; exact tracked', unseen, gone, exact⟩
            exact condition name' misnamed name tracked listed there covers

end Result

end Worker

/-! ## A scan with another tracked name that is gone -/

namespace ScanSample

/-- The watched directory, with one file. -/
def files : List (FilePath × FileType) :=
  [(["watched"], .dir), (["watched", "a"], .dir), (["watched", "a", "b"], .file)]

def stat (p : FilePath) : Except IoError FileMetadata :=
  match files.lookup p.components with
  | some kind => .ok ⟨kind, 0⟩
  | none => .error .notFound

def host : Host where
  now := 0
  seconds := 0
  metadata := stat
  symlinkMetadata := stat
  walk _ := files.map fun e => (e.1, .ok e.2)
  read path := if path.components = ["watched", "a", "b"] then .ok [] else .error .notFound
  fault _ := none

def OnDisk (p : FilePath) : Prop := p.components ∈ files.map Prod.fst

def idOf (n : UInt8) : ObjectId := FixedBytes.ofBytes 16 [n]

def record (n : UInt8) : ObjectRecord := ⟨idOf n, 1, [⟨1, "", 0, 0⟩]⟩

/-- The file, and another tracked file. -/
def stored (other : String) : MetadataStore :=
  let m := (MetadataStore.empty.putObject (record 1)).putObject (record 2)
  let m := (m.bindName "a/b" (idOf 1)).bindName other (idOf 2)
  (m.markWatcherFile "/watched" "a/b").markWatcherFile "/watched" other

/-- The file has changed, and is queued. -/
def worker (other : String) : Worker where
  engine := ⟨stored other, idOf ∘ UInt8.ofNat, 3⟩
  config := ⟨["watched"], 0, 0⟩
  rules := ⟨[]⟩
  watchKey := "/watched"
  running := true
  pending := Pending.empty.enqueue ["watched", "a", "b"] 0
  lastSynced := ∅
  cancellable := true

/-- The worker after a scan during which nothing happens. -/
def scanned (other : String) : Worker :=
  ((worker other).scan (Reference.env []) host ⟨[]⟩ fun _ => ⟨[], false⟩).2

theorem stat_of_onDisk {p : FilePath} (there : OnDisk p) : ∃ metadata, stat p = .ok metadata := by
  unfold OnDisk at there
  obtain ⟨e, inFiles, same⟩ := List.mem_map.1 there
  unfold stat
  cases found : files.lookup p.components with
  | some kind => exact ⟨_, rfl⟩
  | none =>
    have other := List.lookup_eq_none_iff.1 found e inFiles
    rw [same] at other
    simp at other

theorem stat_of_not_onDisk {p : FilePath} (gone : ¬ OnDisk p) : stat p = .error .notFound := by
  unfold stat
  cases found : files.lookup p.components with
  | none => rfl
  | some kind =>
    obtain ⟨front, rest, whole, _⟩ := List.lookup_eq_some_iff.1 found
    apply absurd _ gone
    unfold OnDisk
    rw [whole]
    simp

theorem showsDisk : host.ShowsDisk OnDisk where
  found := by
    intro p metadata found
    apply Classical.byContradiction
    intro gone
    have failed : host.metadata p = .error .notFound := stat_of_not_onDisk gone
    rw [found] at failed
    cases failed
  gone := by
    intro p gone
    refine ⟨gone, ?_⟩
    intro there
    obtain ⟨metadata, found⟩ := stat_of_onDisk there
    have failed : stat p = .error .notFound := gone
    rw [found] at failed
    cases failed
  above := by
    intro p q there above ends
    obtain ⟨part, last, noise⟩ := ends
    have nonempty : part ∈ q.components :=
      List.mem_filter.2 ⟨List.mem_of_getLast? last, by simp [noise]⟩
    have below : p.components <+: ["watched", "a", "b"] := by
      unfold OnDisk files at there
      simp only [List.map_cons, List.map_nil, List.mem_cons, List.not_mem_nil, or_false] at there
      rcases there with same | same | same
      · rw [same]
        exact ⟨["a", "b"], rfl⟩
      · rw [same]
        exact ⟨["b"], rfl⟩
      · rw [same]
    have front := (List.mem_inits _ _).2 (above.trans below)
    unfold OnDisk files
    simp only [List.inits, List.map_cons, List.map_nil, List.mem_cons, List.not_mem_nil,
      or_false] at front ⊢
    rcases front with empty | front
    · rw [empty] at nonempty
      cases nonempty
    · exact front

end ScanSample

/-- A tracked name with a backslash that is gone takes a file with it that exists. -/
theorem backslash_name_unbinds_existing_file :
    ScanSample.host.ShowsDisk ScanSample.OnDisk ∧
      ScanSample.OnDisk ((ScanSample.worker "a\\b").pathOf "a/b") ∧
      (ScanSample.worker "a\\b").Tracks "a/b" ∧
      (ScanSample.worker "a\\b").engine.store.resolveName "a/b" = some (ScanSample.idOf 1) ∧
      (ScanSample.scanned "a\\b").engine.store.resolveName "a/b" = none := by
  refine ⟨ScanSample.showsDisk, ?_, ?_, ?_, ?_⟩
  · unfold ScanSample.OnDisk
    decide +kernel
  · unfold Worker.Tracks
    decide +kernel
  · decide +kernel
  · decide +kernel

/-- A file that exists stays bound while another one that is gone is unbound. -/
theorem existing_file_stays_bound :
    (ScanSample.scanned "c").engine.store.resolveName "a/b" = some (ScanSample.idOf 1) ∧
      (ScanSample.scanned "c").engine.store.resolveName "c" = none := by
  constructor
  · apply (Worker.scan_keeps_existing_iff ScanSample.showsDisk (ScanSample.worker "c") ⟨[]⟩
      fun _ => ⟨[], false⟩).2.2.2
    · apply Or.inr
      apply Or.inr
      intro name misnamed
      have names : ((ScanSample.worker "c").walkEnd (Reference.env []) ScanSample.host
          fun _ => ⟨[], false⟩).engine.store.listWatcherFiles "/watched" = ["a/b", "c"] := by
        decide +kernel
      have tracked : name ∈ ["a/b", "c"] := names ▸ misnamed.tracked
      simp only [List.mem_cons, List.not_mem_nil, or_false] at tracked
      apply absurd _ misnamed.inexact
      rcases tracked with rfl | rfl
      · exact ⟨by decide, "b", by decide +kernel, by decide⟩
      · exact ⟨by decide, "c", by decide +kernel, by decide⟩
    · unfold Worker.Tracks
      decide +kernel
    · decide +kernel
    · unfold ScanSample.OnDisk
      decide +kernel
  · decide +kernel

end OosLite
