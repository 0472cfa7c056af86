import OosLite.Watcher.Worker

/-!
# The halves of renames

Runs of the queues, in which events arrive and the worker lets halves expire and applies actions, and
the halves that the events of a run bring, each told by the number of its event.
-/

namespace OosLite

/-! ## Runs -/

/-- What happens to the queues, one lock after the other. -/
inductive PendingStep where
  /-- `receive_event`. -/
  | receive (event : Event) (now : Nat)
  /-- `expire_renames`, as `process_renames` calls it. -/
  | expire (now : Nat)
  /-- `process_renames` takes the action off the queue that it has applied. -/
  | applied
  /-- A hash map may list its entries in any order. -/
  | rehash (order : List (Nat × FilePath × Nat))

namespace PendingStep

/-- What the event of a step is about. -/
def kind : PendingStep → EventKind
  | receive event _ => event.kind
  | _ => .other

/-- The time at which halves expire in a step. -/
def clock : PendingStep → Option Nat
  | receive event now => if event.kind = .other then none else some now
  | expire now => some now
  | _ => none

end PendingStep

/-- The queues, and the actions that have been taken off them. -/
structure PendingRun where
  pending : Pending
  applied : List Rename

namespace PendingRun

variable (root : FilePath) (debounce : Nat)

/-- One step of a run. -/
def step (s : PendingRun) : PendingStep → PendingRun
  | .receive event now => { s with pending := s.pending.receiveEvent event root debounce now }
  | .expire now => { s with pending := s.pending.expireRenames now }
  | .applied =>
    match s.pending.renames with
    | [] => s
    | action :: renames => ⟨{ s.pending with renames }, s.applied ++ [action]⟩
  | .rehash order =>
    if order.Perm s.pending.trackedFrom then
      { s with pending := { s.pending with trackedFrom := order } }
    else s

/-- A run from empty queues. -/
def run (steps : List PendingStep) : PendingRun :=
  steps.foldl (step root debounce) ⟨Pending.empty, []⟩

/-- All actions that there have been. -/
def actions (s : PendingRun) : List Rename := s.applied ++ s.pending.renames

end PendingRun

/-! ## Halves -/

/-- A path of an event: the number of the event in its run, and of the path in its event. -/
structure Half where
  step : Nat
  place : Nat
  path : FilePath
  tracker : Option Nat
  time : Nat
  deriving DecidableEq

namespace PendingStep

variable (root : FilePath) (n : Nat) (step : PendingStep)

/-- The paths of the event of step `n`. -/
def halves : List Half :=
  match step with
  | receive event now => event.paths.zipIdx.map fun e =>
    ⟨n, e.2, eventPath root e.1, event.tracker, now⟩
  | _ => []

/-- The `From` half that step `n` brings. -/
def fromHalf : Option Half :=
  if step.kind = .modifyName .source then (step.halves root n).head? else none

/-- The `To` half that step `n` brings. -/
def toHalf : Option Half :=
  if step.kind = .modifyName .target then (step.halves root n).head? else none

/-- The renames and removals that step `n` tells in one. -/
def wholes : List (Half × Option Half) :=
  match step.kind, step.halves root n with
  | .modifyName .both, [source, target] => [(source, some target)]
  | .remove, halves => halves.map fun half => (half, none)
  | _, _ => []

end PendingStep

section

variable (root : FilePath) (steps : List PendingStep)

/-- All `From` halves of a run. -/
def fromHalves : List Half := steps.zipIdx.filterMap fun e => e.1.fromHalf root e.2

/-- All `To` halves of a run. -/
def toHalves : List Half := steps.zipIdx.filterMap fun e => e.1.toHalf root e.2

/-- All renames and removals that a run tells in one. -/
def wholeRenames : List (Half × Option Half) := steps.zipIdx.flatMap fun e => e.1.wholes root e.2

end

/-- The half is held back for its second half. -/
def Half.Waits (half : Half) (p : Pending) : Prop :=
  match half.tracker with
  | some tracker => (tracker, half.path, half.time) ∈ p.trackedFrom
  | none => (half.path, half.time) ∈ p.untrackedFrom

/-! ## Where actions come from -/

/-- What an action is made of, with the number of the step that makes it. -/
inductive Origin where
  /-- Two halves. -/
  | paired (source target : Half)
  /-- A half that has waited too long. -/
  | lapsed (source : Half) (step : Nat)
  /-- A half whose tracker is used again. -/
  | replaced (source : Half) (step : Nat)
  /-- An event that tells the whole. -/
  | whole (source : Half) (target : Option Half)
  deriving DecidableEq

namespace Origin

def action : Origin → Rename
  | paired source target => ⟨source.path, some target.path⟩
  | lapsed source _ => ⟨source.path, none⟩
  | replaced source _ => ⟨source.path, none⟩
  | whole source target => ⟨source.path, target.map Half.path⟩

/-- The `From` half that is used. -/
def first : Origin → Option Half
  | paired source _ => some source
  | lapsed source _ => some source
  | replaced source _ => some source
  | whole _ _ => none

/-- The `To` half that is used. -/
def second : Origin → Option Half
  | paired _ target => some target
  | _ => none

/-- The rename that was told in one. -/
def told : Origin → Option (Half × Option Half)
  | whole source target => some (source, target)
  | _ => none

def step : Origin → Nat
  | paired _ target => target.step
  | lapsed _ step => step
  | replaced _ step => step
  | whole source _ => source.step

/-- A pair has one tracker, which no other half uses in between, and is made in time. A half lapses when
its time is over, and is replaced when its tracker comes again. -/
def Sound (steps : List PendingStep) (froms tos : List Half) : Origin → Prop
  | paired source target =>
    source ∈ froms ∧ target ∈ tos ∧ source.step < target.step ∧ source.tracker = target.tracker ∧
      target.time < source.time + renameTimeout ∧
      (source.tracker ≠ none → ∀ half ∈ froms, half.tracker = source.tracker →
        half.step ≤ source.step ∨ target.step ≤ half.step)
  | lapsed source n =>
    source ∈ froms ∧ source.step < n ∧ ∃ step now, steps[n]? = some step ∧
      step.clock = some now ∧ source.time + renameTimeout ≤ now
  | replaced source n =>
    source ∈ froms ∧ source.tracker ≠ none ∧ source.step < n ∧
      ∃ half ∈ froms, half.step = n ∧ half.tracker = source.tracker
  | whole _ _ => True

end Origin

/-! ## The account of a run -/

/-- The log says what every action of a run is made of, and nothing is lost or used twice. -/
structure Accounted (root : FilePath) (debounce : Nat) (steps : List PendingStep)
    (log : List Origin) : Prop where
  /-- The actions are made of what the log says, in its order. -/
  actions : (PendingRun.run root debounce steps).actions = log.map Origin.action
  /-- They are made step by step. -/
  ordered : log.Pairwise fun o o' => o.step ≤ o'.step
  /-- They are made of what has come. -/
  sound : ∀ o ∈ log, o.Sound steps (fromHalves root steps) (toHalves root steps)
  /-- What is told in one is one action. -/
  told : log.filterMap Origin.told = wholeRenames root steps
  /-- A `From` half becomes one action, until which it is held back. -/
  firsts : ∀ half ∈ fromHalves root steps,
    (log.filterMap Origin.first).count half = 1 ∨
      (log.filterMap Origin.first).count half = 0 ∧
        half.Waits (PendingRun.run root debounce steps).pending
  /-- It does so when it and those before it have waited long enough. -/
  settled : ∀ before step after now, steps = before ++ step :: after → step.clock = some now →
    (∀ half ∈ fromHalves root before, half.time + renameTimeout ≤ now) →
    ∀ half ∈ fromHalves root before, (log.filterMap Origin.first).count half = 1
  /-- The halves without trackers leave in the order in which they have come. -/
  inOrder : (log.filterMap Origin.first).filter (fun half => half.tracker = none) <+:
    (fromHalves root steps).filter fun half => half.tracker = none
  /-- A `To` half is used in one action, or it is enqueued because no half waits for it. -/
  seconds : ∀ half ∈ toHalves root steps,
    let before := (PendingRun.run root debounce (steps.take half.step)).pending
    let after := (PendingRun.run root debounce (steps.take (half.step + 1))).pending
    (log.filterMap Origin.second).count half = 1 ∧ after.updates = before.updates ∨
      (log.filterMap Origin.second).count half = 0 ∧
        after.updates = (before.enqueue half.path (half.time + debounce)).updates ∧
        half.path.components ∈ (PendingRun.run root debounce steps).pending.updates ∧
        ∀ first ∈ fromHalves root steps, first.tracker = half.tracker → first.step < half.step →
          ∃ o ∈ log, o.first = some first ∧ o.step ≤ half.step
  /-- There are renames while something that has come is not in an action that has been applied. -/
  hasRenames : (PendingRun.run root debounce steps).pending.hasRenames = true ↔
    let applied := log.take (PendingRun.run root debounce steps).applied.length
    (∃ half ∈ fromHalves root steps, half ∉ applied.filterMap Origin.first) ∨
      ∃ w ∈ wholeRenames root steps, w ∉ applied.filterMap Origin.told

end OosLite
