import OosLite.Watcher.Scan
import OosLite.Watcher.Proofs.Steps
import OosLite.Engine.Proofs.Storing

/-!
# What the walk of a scan leaves in place

Taking in the files of the watched directory only adds bindings and tracked files, and a queue that
holds a rename goes on holding one, whatever events arrive.
-/

namespace OosLite

open Files (IoError)

/-! ## Events -/

namespace Pending

variable {p : Pending}

theorem hasRenames_iff :
    p.hasRenames = true ↔ p.renames ≠ [] ∨ p.trackedFrom ≠ [] ∨ p.untrackedFrom ≠ [] := by
  unfold hasRenames
  simp [or_assoc]

theorem hasRenames_eq_false :
    p.hasRenames = false ↔ p.renames = [] ∧ p.trackedFrom = [] ∧ p.untrackedFrom = [] := by
  unfold hasRenames
  simp [and_assoc]

/-- A half of a rename that expires is a rename. -/
theorem expireRenames_hasRenames (now : Nat) (h : p.hasRenames = true) :
    (p.expireRenames now).hasRenames = true := by
  rw [hasRenames_iff]
  unfold expireRenames
  simp only [List.partition_eq_filter_filter, List.span_eq_takeWhile_dropWhile]
  rcases hasRenames_iff.1 h with renames | tracked | untracked
  · apply Or.inl
    simp [renames]
  · cases expired : p.trackedFrom.filter fun e => isExpired now e.2.2 with
    | cons e rest =>
      apply Or.inl
      simp
    | nil =>
      apply Or.inr
      apply Or.inl
      intro none
      apply tracked
      rw [List.filter_eq_nil_iff] at expired none
      rw [List.eq_nil_iff_forall_not_mem]
      intro e there
      have later := none e there
      have sooner := expired e there
      simp only [Function.comp_apply, Bool.not_eq_true', Bool.not_eq_false] at later
      exact sooner later
  · cases split : p.untrackedFrom.takeWhile fun e => isExpired now e.2 with
    | cons e rest =>
      apply Or.inl
      simp
    | nil =>
      apply Or.inr
      apply Or.inr
      have whole := List.takeWhile_append_dropWhile
        (p := fun e : FilePath × Nat => isExpired now e.2) (l := p.untrackedFrom)
      rw [split, List.nil_append] at whole
      rw [whole]
      exact untracked

theorem renameSource_hasRenames (path : FilePath) (tracker : Option Nat) (now : Nat) :
    (p.renameSource path tracker now).hasRenames = true := by
  rw [hasRenames_iff]
  unfold renameSource
  cases tracker with
  | some tracker => simp
  | none => simp

theorem renameTarget_hasRenames (target : FilePath) (tracker : Option Nat) (due : Nat)
    (h : p.hasRenames = true) : (p.renameTarget target tracker due).hasRenames = true := by
  unfold renameTarget
  cases tracker with
  | some tracker =>
    simp only
    cases p.trackedFrom.lookup tracker with
    | some e =>
      rw [hasRenames_iff]
      simp
    | none => exact h
  | none =>
    simp only
    cases p.untrackedFrom with
    | cons e rest =>
      rw [hasRenames_iff]
      simp
    | nil => exact h

theorem receiveEvent_hasRenames (event : Event) (root : FilePath) (debounce now : Nat)
    (h : p.hasRenames = true) : (p.receiveEvent event root debounce now).hasRenames = true := by
  unfold receiveEvent
  split
  · exact h
  · have waiting := expireRenames_hasRenames
      (p := { p with generation := p.generation + 1 }) now h
    simp only
    generalize Pending.expireRenames _ now = q at waiting
    split
    · rw [hasRenames_iff]
      simp
    · exact renameSource_hasRenames _ _ _
    · exact waiting
    · exact renameTarget_hasRenames _ _ _ waiting
    · exact waiting
    · rw [hasRenames_iff] at waiting ⊢
      rcases waiting with renames | halves
      · apply Or.inl
        simp [renames]
      · exact .inr halves
    · rename_i paths _ _ _ _ _ _
      generalize event.paths.map (eventPath root) = paths
      induction paths generalizing q with
      | nil => exact waiting
      | cons path rest ih => exact ih (q.enqueue path (now + debounce)) waiting

end Pending

/-! ## Taking in files -/

namespace Worker

variable {env : Env} {host : Host}

/-- Bindings and tracked files may have been added, renames may have been queued, and what the
worker is about is the same. -/
structure Gathers (w w' : Worker) : Prop where
  config : w'.config = w.config
  rules : w'.rules = w.rules
  watchKey : w'.watchKey = w.watchKey
  cancellable : w'.cancellable = w.cancellable
  renames : w.pending.hasRenames = true → w'.pending.hasRenames = true
  tables : w.engine.store.Grows w.watchKey w'.engine.store

namespace Gathers

theorem refl (w : Worker) : Gathers w w := ⟨rfl, rfl, rfl, rfl, fun h => h, .refl _⟩

theorem trans {w w' w'' : Worker} (h : Gathers w w') (h' : Gathers w' w'') : Gathers w w'' where
  config := h'.config.trans h.config
  rules := h'.rules.trans h.rules
  watchKey := h'.watchKey.trans h.watchKey
  cancellable := h'.cancellable.trans h.cancellable
  renames := fun waiting => h'.renames (h.renames waiting)
  tables := h.tables.trans (h.watchKey ▸ h'.tables)

end Gathers

theorem gathers_receive (w : Worker) (event : Event) (now : Nat) :
    Gathers w (w.receive event now) where
  config := rfl
  rules := rfl
  watchKey := rfl
  cancellable := rfl
  renames := Pending.receiveEvent_hasRenames event _ _ now
  tables := .refl _

theorem gathers_interfere (w : Worker) (meanwhile : Meanwhile) :
    Gathers w (w.interfere meanwhile) := by
  have received : ∀ (events : List (Event × Nat)) (w : Worker),
      Gathers w (events.foldl (fun w e => w.receive e.1 e.2) w) := by
    intro events
    induction events with
    | nil => exact Gathers.refl
    | cons e rest ih =>
      intro w
      exact (gathers_receive w e.1 e.2).trans (ih _)
  have both := received meanwhile.events w
  exact ⟨both.config, both.rules, both.watchKey, both.cancellable, both.renames, both.tables⟩

theorem gathers_mark (w : Worker) (name : String) : Gathers w (w.mark name) :=
  ⟨rfl, rfl, rfl, rfl, fun h => h, .markWatcherFile _ name⟩

theorem gathers_deferError (w : Worker) (path : FilePath) (previous : Nat) (error : OosLiteError) :
    Gathers w (w.deferError host path previous error) := by
  unfold deferError
  split
  · exact ⟨rfl, rfl, rfl, rfl, fun h => h, .refl _⟩
  · exact .refl w

theorem gathers_storeFile (w : Worker) (name : String) (path : FilePath) (cooldown : Bool) :
    Gathers w (w.storeFile env host name path cooldown).2 := by
  unfold storeFile
  simp only
  generalize stored : Engine.putFileNamed env w.engine name (host.read path) host.seconds _ = put
  have grows : w.engine.store.Grows w.watchKey put.2.store := by
    rw [← stored]
    exact Engine.putFileNamed_grows ..
  have stored : Gathers w { w with engine := put.2 } :=
    ⟨rfl, rfl, rfl, rfl, fun h => h, grows⟩
  generalize ({ w with engine := put.2 } : Worker) = next at stored ⊢
  cases put.1 with
  | error e => exact stored
  | ok value =>
    simp only
    have marked := stored.trans (gathers_mark next name)
    split
    · exact stored
    · split
      · exact marked
      · split
        · exact ⟨marked.config, marked.rules, marked.watchKey, marked.cancellable, marked.renames,
            marked.tables⟩
        · exact marked

variable (env host) in
theorem gathers_ingest (w : Worker) (path : FilePath) (metadata : FileMetadata) (cooldown : Bool) :
    Gathers w (w.ingest env host path metadata cooldown).2 := by
  unfold ingest
  cases w.logicalName path with
  | none => exact .refl w
  | some name =>
    simp only
    cases w.fileNeedsPut env host name path metadata with
    | error e => exact .refl w
    | ok needed =>
      cases needed with
      | false =>
        simp only
        split
        · exact .refl w
        · exact gathers_mark w name
      | true =>
        simp only
        cases w.lastSynced[path.components]? with
        | none => exact gathers_storeFile w name path cooldown
        | some last =>
          simp only
          split
          · exact ⟨rfl, rfl, rfl, rfl, fun h => h, .refl _⟩
          · exact gathers_storeFile w name path cooldown

end Worker

namespace ScanState

variable {env : Env} {host : Host}

theorem gathers_takeIn (s : ScanState) (path : FilePath) (metadata : FileMetadata) :
    Worker.Gathers s.worker (s.takeIn env host path metadata).worker := by
  unfold takeIn
  simp only
  split
  · exact ⟨rfl, rfl, rfl, rfl, fun h => h, .refl _⟩
  · generalize begun : (if s.worker.cancellable = true then s.worker
      else { s.worker with
        pending := { s.worker.pending with
          updates := s.worker.pending.updates.erase path.components } }) = w
    have begins : Worker.Gathers s.worker w := by
      subst begun
      split
      · exact .refl _
      · exact ⟨rfl, rfl, rfl, rfl, fun h => h, .refl _⟩
    have taken := begins.trans (Worker.gathers_ingest env host w path metadata false)
    cases (w.ingest env host path metadata false).1 with
    | ok value => exact taken
    | error e => exact taken.trans (Worker.gathers_deferError _ _ _ _)

variable (env host) in
theorem gathers_entry (s : ScanState) (item : FilePath × Except IoError FileType) :
    Worker.Gathers s.worker (s.entry env host item).worker := by
  unfold entry
  cases item.2 with
  | error e => exact .refl _
  | ok kind =>
    simp only
    cases host.metadata item.1 with
    | error e => exact .refl _
    | ok metadata =>
      simp only
      split
      · exact gathers_takeIn s item.1 metadata
      · exact .refl _

theorem gathers_loop (meanwhile : Nat → Meanwhile) (i : Nat)
    (items : List (FilePath × Except IoError FileType)) (s : ScanState) :
    Worker.Gathers s.worker (loop env host meanwhile i items s).2.worker := by
  induction items generalizing i s with
  | nil => exact .refl _
  | cons item rest ih =>
    unfold loop
    simp only
    have first := Worker.gathers_interfere s.worker (meanwhile i)
    split
    · exact first
    · have taken := gathers_entry env host
        { s with worker := s.worker.interfere (meanwhile i) } item
      exact (first.trans taken).trans (ih (i + 1) _)

end ScanState

theorem Worker.gathers_scanWalk (env : Env) (host : Host) (w : Worker)
    (meanwhile : Nat → Meanwhile) :
    Gathers w (w.scanWalk env host meanwhile).2.worker :=
  (ScanState.gathers_loop meanwhile 0 _ ⟨w, [], none, none⟩).trans (gathers_interfere _ _)

end OosLite
