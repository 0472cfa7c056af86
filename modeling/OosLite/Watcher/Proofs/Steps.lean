import OosLite.Watcher.Worker
import OosLite.Engine.Proofs.MovedNames

/-!
# What a step of the worker leaves alone

Taking queued updates along and queueing files changes only the queued updates and the times of the
last writes; the tables change in one transaction of `apply_rename`.
-/

namespace OosLite

open Files (IoError)

/-- Without halves of renames there is nothing to expire. -/
theorem Pending.expireRenames_of_nil {p : Pending} (tracked : p.trackedFrom = [])
    (untracked : p.untrackedFrom = []) (now : Nat) : p.expireRenames now = p := by
  cases p with
  | mk updates renames trackedFrom untrackedFrom generation =>
    simp only at tracked untracked
    subst tracked untracked
    simp [Pending.expireRenames, List.span, List.span.loop]

namespace Worker

/-- Only the queued updates and the times of the last writes may differ. -/
structure Requeues (w w' : Worker) : Prop where
  engine : w'.engine = w.engine
  config : w'.config = w.config
  rules : w'.rules = w.rules
  watchKey : w'.watchKey = w.watchKey
  running : w'.running = w.running
  cancellable : w'.cancellable = w.cancellable
  renames : w'.pending.renames = w.pending.renames
  trackedFrom : w'.pending.trackedFrom = w.pending.trackedFrom
  untrackedFrom : w'.pending.untrackedFrom = w.pending.untrackedFrom

namespace Requeues

theorem refl (w : Worker) : Requeues w w := ⟨rfl, rfl, rfl, rfl, rfl, rfl, rfl, rfl, rfl⟩

theorem trans {w w' w'' : Worker} (h : Requeues w w') (h' : Requeues w' w'') : Requeues w w'' where
  engine := h'.engine.trans h.engine
  config := h'.config.trans h.config
  rules := h'.rules.trans h.rules
  watchKey := h'.watchKey.trans h.watchKey
  running := h'.running.trans h.running
  cancellable := h'.cancellable.trans h.cancellable
  renames := h'.renames.trans h.renames
  trackedFrom := h'.trackedFrom.trans h.trackedFrom
  untrackedFrom := h'.untrackedFrom.trans h.untrackedFrom

/-- A loop each of whose rounds only requeues does no more. -/
theorem foldl {τ : Type} {step : Worker → τ → Worker} (h : ∀ w x, Requeues w (step w x))
    (w : Worker) (xs : List τ) : Requeues w (xs.foldl step w) := by
  induction xs generalizing w with
  | nil => exact refl w
  | cons x rest ih => exact (h w x).trans (ih (step w x))

end Requeues

variable {host : Host}

theorem requeues_queueFound (w : Worker) (path : FilePath) :
    Requeues w (w.queueFound host path) := by
  constructor <;> rfl

theorem requeues_remapUpdate (action : Rename) (w : Worker) (old : List String) :
    Requeues w (remapUpdate action w old) := by
  unfold remapUpdate
  cases w.pending.updates[old]? with
  | none => exact .refl w
  | some update =>
    cases action.target with
    | none => constructor <;> rfl
    | some target =>
      simp only
      split
      · unfold Pending.mergeUpdate
        split
        · constructor <;> rfl
        · constructor <;> rfl
      · constructor <;> rfl

theorem requeues_remapChange (w : Worker) (change : Change) :
    Requeues w (remapChange host w change) := by
  unfold remapChange
  cases change.2 with
  | none => constructor <;> rfl
  | some new => constructor <;> rfl

theorem requeues_enqueueEntries (w : Worker)
    (entries : List (FilePath × Except IoError FileType)) :
    Requeues w (w.enqueueEntries host entries).2 := by
  fun_induction enqueueEntries host w entries with
  | case1 w => exact .refl w
  | case2 w => exact .refl w
  | case3 w path rest ih => exact (requeues_queueFound w path).trans ih
  | case4 w _ _ rest _ ih => exact ih

theorem requeues_lookUpTarget (w : Worker) (action : Rename) :
    Requeues w (w.lookUpTarget host action).2 := by
  unfold lookUpTarget
  cases action.target with
  | none => exact .refl w
  | some target =>
    simp only
    split
    · cases host.metadata target with
      | error e => cases e <;> exact .refl w
      | ok metadata =>
        simp only
        cases metadata.fileType with
        | dir => exact requeues_enqueueEntries w _
        | file => exact requeues_queueFound w target
        | other => exact .refl w
    · exact .refl w

/-- The requeueing part of a move. -/
theorem requeues_remap (w : Worker) (action : Rename) (changes : List Change) :
    Requeues w (changes.foldl (remapChange host) (w.remapUpdates action)) :=
  (Requeues.foldl (requeues_remapUpdate action) w _).trans
    (Requeues.foldl requeues_remapChange _ _)

end Worker

end OosLite
