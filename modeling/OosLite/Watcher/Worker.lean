import OosLite.Watcher.Paths

/-!
# The watcher

The queues of the watcher, the events that fill them, and the steps of the worker that empty them.
A time stamp is a number of milliseconds.
-/

namespace OosLite

open Files (IoError)

/-! ## Queues -/

/-- `PendingUpdate`, with the path it is queued under. -/
structure PendingUpdate where
  path : FilePath
  due : Nat
  retryDelay : Nat
  deriving DecidableEq

/-- `Rename`: without a target, the path is gone. -/
structure Rename where
  source : FilePath
  target : Option FilePath
  deriving DecidableEq

/-- `Pending`. Updates are found by the components of their paths. -/
structure Pending where
  updates : Std.ExtTreeMap (List String) PendingUpdate
  renames : List Rename
  trackedFrom : List (Nat × FilePath × Nat)
  untrackedFrom : List (FilePath × Nat)
  generation : UInt64

/-- `RENAME_TIMEOUT`. -/
def renameTimeout : Nat := 2000

namespace Pending

variable (p : Pending)

def empty : Pending := ⟨∅, [], [], [], 0⟩

/-- `has_renames`. -/
def hasRenames : Bool :=
  !p.renames.isEmpty || !p.trackedFrom.isEmpty || !p.untrackedFrom.isEmpty

/-- `enqueue`. -/
def enqueue (path : FilePath) (due : Nat) : Pending :=
  let held := (p.updates[path.components]?.map PendingUpdate.path).getD path
  { p with updates := p.updates.insert path.components ⟨held, due, 0⟩ }

/-- `entry(path).or_insert(update)`. -/
def orInsert (update : PendingUpdate) : Pending :=
  { p with updates := p.updates.insertIfNew update.path.components update }

/-- `entry(path).and_modify(..).or_insert(update)` of `apply_rename`. -/
def mergeUpdate (update : PendingUpdate) : Pending :=
  match p.updates[update.path.components]? with
  | some existing =>
    let merged : PendingUpdate :=
      { path := existing.path
        due := max existing.due update.due
        retryDelay := max existing.retryDelay update.retryDelay }
    { p with updates := p.updates.insert update.path.components merged }
  | none => p.orInsert update

def isExpired (now time : Nat) : Bool := now - time ≥ renameTimeout

/-- `expire_renames`. -/
def expireRenames (now : Nat) : Pending :=
  let tracked := p.trackedFrom.partition fun e => isExpired now e.2.2
  let untracked := p.untrackedFrom.span fun e => isExpired now e.2
  let expired := tracked.1.map (fun e => e.2.1) ++ untracked.1.map Prod.fst
  { p with
    renames := p.renames ++ expired.map fun source => ⟨source, none⟩
    trackedFrom := tracked.2
    untrackedFrom := untracked.2 }

end Pending

/-! ## Events -/

inductive RenameMode where
  | both
  | source
  | target
  | other
  deriving DecidableEq

/-- `EventKind`, as far as `receive_event` tells them apart. -/
inductive EventKind where
  | create
  | modify
  | modifyName (mode : RenameMode)
  | remove
  | other
  deriving DecidableEq

/-- `notify::Event`. -/
structure Event where
  kind : EventKind
  paths : List String
  tracker : Option Nat
  deriving DecidableEq

/-- The path of an event, made absolute and normal. -/
def eventPath (root : FilePath) (path : String) : FilePath := (root.join path).lexical

namespace Pending

variable (p : Pending)

/-- The `From` half of a rename. -/
def renameSource (path : FilePath) (tracker : Option Nat) (now : Nat) : Pending :=
  match tracker with
  | some tracker =>
    let old := (p.trackedFrom.lookup tracker).map fun e => (⟨e.1, none⟩ : Rename)
    { p with
      renames := p.renames ++ old.toList
      trackedFrom := (p.trackedFrom.filter fun e => e.1 ≠ tracker) ++ [(tracker, path, now)] }
  | none => { p with untrackedFrom := p.untrackedFrom ++ [(path, now)] }

/-- The `To` half of a rename. -/
def renameTarget (target : FilePath) (tracker : Option Nat) (due : Nat) : Pending :=
  match tracker with
  | some tracker =>
    match p.trackedFrom.lookup tracker with
    | some (source, _) =>
      { p with
        trackedFrom := p.trackedFrom.filter fun e => e.1 ≠ tracker
        renames := p.renames ++ [⟨source, some target⟩] }
    | none => p.enqueue target due
  | none =>
    match p.untrackedFrom with
    | (source, _) :: rest =>
      { p with untrackedFrom := rest, renames := p.renames ++ [⟨source, some target⟩] }
    | [] => p.enqueue target due

/-- `receive_event`. -/
def receiveEvent (event : Event) (root : FilePath) (debounce now : Nat) : Pending :=
  if event.kind = .other then p
  else
    let paths := event.paths.map (eventPath root)
    let p := { p with generation := p.generation + 1 }
    let p := p.expireRenames now
    match event.kind, paths with
    | .modifyName .both, [source, target] =>
      { p with renames := p.renames ++ [⟨source, some target⟩] }
    | .modifyName .source, source :: _ => p.renameSource source event.tracker now
    | .modifyName .source, [] => p
    | .modifyName .target, target :: _ => p.renameTarget target event.tracker (now + debounce)
    | .modifyName .target, [] => p
    | .remove, paths => { p with renames := p.renames ++ paths.map fun source => ⟨source, none⟩ }
    | _, paths => paths.foldl (fun p path => p.enqueue path (now + debounce)) p

end Pending

/-! ## The worker -/

/-- `WatcherConfig`, with the durations that decide something. -/
structure WatcherConfig where
  watchDir : FilePath
  debounceDuration : Nat
  cooldownWindow : Nat

/-- `Worker`, with the engine it works on. -/
structure Worker where
  engine : Engine
  config : WatcherConfig
  rules : IgnoreRules
  watchKey : String
  running : Bool
  pending : Pending
  lastSynced : Std.ExtTreeMap (List String) Nat
  cancellable : Bool

namespace Worker

variable (env : Env) (host : Host) (w : Worker)

/-- `cancelled`. -/
def cancelled : Bool := w.cancellable && !w.running

/-- An event arrives. -/
def receive (event : Event) (now : Nat) : Worker :=
  let pending := w.pending.receiveEvent event w.config.watchDir w.config.debounceDuration now
  { w with pending }

/-- `logical_name`. -/
def logicalName (path : FilePath) : Option String :=
  (path.stripPrefix w.config.watchDir).map fun relative => withSlashes relative.text

/-- `included`. -/
def included (path : FilePath) : Bool :=
  (w.logicalName path).any fun name => !w.rules.isIgnored name

/-- `retry_delay`. -/
def retryDelay (previous : Nat) : Nat :=
  if previous = 0 then min (max w.config.debounceDuration 50) 30000
  else min (previous * 2) 30000

/-- `defer_error`; there are no sharing violations on Unix. -/
def deferError (path : FilePath) (previous : Nat) (error : OosLiteError) : Worker :=
  match error with
  | .io .wouldBlock _ =>
    let delay := w.retryDelay previous
    { w with pending := w.pending.orInsert ⟨path, host.now + delay, delay⟩ }
  | _ => w

/-- `file_needs_put`. -/
def fileNeedsPut (name : String) (path : FilePath) (metadata : FileMetadata) : Result Bool := do
  if host.fault path = some .lookup then throw (.redb "")
  match w.engine.store.resolveName name with
  | none => return true
  | some id =>
    match ← w.engine.store.getObject id with
    | none => return true
    | some record =>
      match ← w.engine.store.getManifest env record.latestManifestId with
      | none => return true
      | some manifest =>
        if metadata.len ≠ manifest.totalSize then return true
        match host.read path with
        | .error e => throw (.ofIo e)
        | .ok content =>
          if w.cancelled then throw (.io .other "Watcher stopped during file read")
          return env.blake3 content ≠ manifest.contentHash

/-- Mark a file as tracked. -/
def mark (name : String) : Worker :=
  { w with engine := { w.engine with store := w.engine.store.markWatcherFile w.watchKey name } }

/-- The part of `ingest` that stores the file. -/
def storeFile (name : String) (path : FilePath) (cooldown : Bool) : Result Unit × Worker :=
  let fault := match host.fault path with
    | some (.put stage) => some stage
    | _ => none
  let put := w.engine.putFileNamed env name (host.read path) host.seconds fault
  let w := { w with engine := put.2 }
  match put.1 with
  | .error e => (.error e, w)
  | .ok () =>
    if host.fault path = some .mark then (.error (.redb ""), w)
    else
      let w := w.mark name
      if host.fault path = some .flush then (.error (.redb ""), w)
      else if cooldown then
        (.ok (), { w with lastSynced := w.lastSynced.insert path.components host.now })
      else (.ok (), w)

/-- `ingest`. -/
def ingest (path : FilePath) (metadata : FileMetadata) (cooldown : Bool) : Result Unit × Worker :=
  match w.logicalName path with
  | none => (.ok (), w)
  | some name =>
    match w.fileNeedsPut env host name path metadata with
    | .error e => (.error e, w)
    | .ok false =>
      if host.fault path = some .mark then (.error (.redb ""), w) else (.ok (), w.mark name)
    | .ok true =>
      match w.lastSynced[path.components]? with
      | some last =>
        if cooldown ∧ host.now - last < w.config.cooldownWindow then
          (.ok (), { w with
            pending := w.pending.orInsert ⟨path, last + w.config.cooldownWindow, 0⟩ })
        else w.storeFile env host name path cooldown
      | none => w.storeFile env host name path cooldown

/-- Queue a file that has been found, unless it is queued. -/
def queueFound (path : FilePath) : Worker :=
  { w with pending := w.pending.orInsert ⟨path, host.now + w.config.debounceDuration, 0⟩ }

/-- The loop of `enqueue_tree`. -/
def enqueueEntries : Worker → List (FilePath × Except IoError FileType) → Result Unit × Worker
  | w, [] => (.ok (), w)
  | w, (_, .error _) :: _ => (.error (.ofIo .other), w)
  | w, (path, .ok .file) :: rest => enqueueEntries (w.queueFound host path) rest
  | w, (_, .ok _) :: rest => enqueueEntries w rest

/-- `enqueue_tree`. -/
def enqueueTree (root : FilePath) : Result Unit × Worker :=
  w.enqueueEntries host (host.walkIncluded root w.included)

/-! ## Renames -/

/-- The path below another path of what is left of it behind a prefix. -/
def movedPath (source target old : FilePath) : FilePath :=
  match old.stripPrefix source with
  | some suffix => if suffix = [] then target else target ++ suffix
  | none => target

/-- The loop body of `apply_rename` over the queued updates below the source. -/
def remapUpdate (action : Rename) (w : Worker) (old : List String) : Worker :=
  match w.pending.updates[old]? with
  | none => w
  | some update =>
    let pending := { w.pending with updates := w.pending.updates.erase old }
    match action.target with
    | none => { w with pending }
    | some target =>
      let new := movedPath action.source target update.path
      if w.included new then
        { w with pending := pending.mergeUpdate { update with path := new } }
      else { w with pending }

/-- Take the queued updates below the source along. -/
def remapUpdates (action : Rename) : Worker :=
  (w.pending.updates.keys.filter action.source.components.isPrefixOf).foldl (remapUpdate action) w

/-- The loop body of `apply_rename` over the names that changed. -/
def remapChange (w : Worker) (change : Change) : Worker :=
  let oldPath := (w.config.watchDir.join change.1).components
  let lastSynced := w.lastSynced.erase oldPath
  match change.2 with
  | none => { w with lastSynced }
  | some new =>
    let newPath := w.config.watchDir.join new
    let lastSynced := match w.lastSynced[oldPath]? with
      | some last => lastSynced.insert newPath.components last
      | none => lastSynced
    { w with lastSynced }.queueFound host newPath

/-- The end of `apply_rename`: queue what is at the target. -/
def lookUpTarget (action : Rename) : Result Unit × Worker :=
  match action.target with
  | none => (.ok (), w)
  | some target =>
    if w.included target then
      match host.metadata target with
      | .ok metadata =>
        match metadata.fileType with
        | .dir => w.enqueueTree host target
        | .file => (.ok (), w.queueFound host target)
        | .other => (.ok (), w)
      | .error .notFound => (.ok (), w)
      | .error e => (.error (.ofIo e), w)
    else (.ok (), w)

/-- The name of the source, if the watcher looks after it. -/
def sourceName (action : Rename) : Option String :=
  (w.logicalName action.source).filter fun _ => w.included action.source

/-- The name of the target, if the watcher looks after it. -/
def targetName (action : Rename) : Option String :=
  (action.target.bind w.logicalName).filter fun name => !w.rules.isIgnored name

/-- The tables once the names below the source are moved. -/
def moveNames (action : Rename) : Result (List Change × MetadataStore) :=
  match w.sourceName action with
  | some source =>
    w.engine.store.updateWatchedPrefix w.watchKey source (w.targetName action)
      fun name => !w.rules.isIgnored name
  | none => .ok ([], w.engine.store)

/-- `apply_rename`, once its source is known to be gone. -/
def applyMove (action : Rename) : Result Unit × Worker :=
  match w.moveNames action with
  | .error e => (.error e, w)
  | .ok (changes, store) =>
    let w := { w with engine := { w.engine with store } }
    let w := w.remapUpdates action
    let w := changes.foldl (remapChange host) w
    w.lookUpTarget host action

/-- `apply_rename`. -/
def applyRename (action : Rename) : Result Unit × Worker :=
  if action.target = none ∧ (w.sourceName action).isSome then
    match host.metadata action.source with
    | .ok _ =>
      (.ok (), { w with
        pending := w.pending.enqueue action.source (host.now + w.config.debounceDuration) })
    | .error .notFound => w.applyMove host action
    | .error e => (.error (.ofIo e), w)
  else w.applyMove host action

/-- A worker whose queue is so. -/
def withRenames (w : Worker) (renames : List Rename) : Worker :=
  { w with pending := { w.pending with renames } }

/-- One round of `process_renames`, between whose rounds events may arrive. -/
def renameRound : Worker :=
  match w.pending.renames with
  | [] => w
  | action :: rest =>
    let applied := w.applyRename host action
    match applied.1 with
    | .error _ => applied.2
    | .ok () => applied.2.withRenames rest

/-- The loop of `process_renames`: an action is taken off the queue once it is applied. -/
def renameLoop : List Rename → Worker → Result Unit × Worker
  | [], w => (.ok (), w)
  | action :: rest, w =>
    let applied := w.applyRename host action
    match applied.1 with
    | .error e => (.error e, applied.2)
    | .ok () => renameLoop rest (applied.2.withRenames rest)

/-- `process_renames`, when no event arrives meanwhile. -/
def processRenames : Result Unit × Worker :=
  if w.cancelled then (.ok (), w)
  else
    let pending := w.pending.expireRenames host.now
    renameLoop host pending.renames { w with pending }

/-! ## Updates -/

/-- `process_updates`, of the update under this key. -/
def processUpdate (key : List String) : Option Worker :=
  if w.cancelled || w.pending.hasRenames then none
  else
    match w.pending.updates[key]? with
    | none => none
    | some update =>
      if host.now < update.due then none
      else
        let path := update.path
        let w := { w with pending := { w.pending with updates := w.pending.updates.erase key } }
        if w.included path then
          let result := match host.metadata path with
            | .ok metadata =>
              match metadata.fileType with
              | .file => w.ingest env host path metadata true
              | .dir => w.enqueueTree host path
              | .other => (.ok (), w)
            | .error .notFound => (.ok (), w)
            | .error e => (.error (.ofIo e), w)
          match result.1 with
          | .ok () => some result.2
          | .error e => some (result.2.deferError host path update.retryDelay e)
        else some w

end Worker

end OosLite
