import OosLite.Watcher.Worker

/-!
# The reconciliation scan

`Worker::scan`: every file below the watched directory is taken in, and the tracked names whose
files are gone are unbound. Events may arrive, and the worker may be stopped, before each entry of
the walk and before its end.
-/

namespace OosLite

open Files (IoError)

/-- What happens between two entries of the walk. -/
structure Meanwhile where
  events : List (Event × Nat)
  stop : Bool

/-- The state of the loop of `scan_inner`. -/
structure ScanState where
  worker : Worker
  seen : List String
  scanError : Option OosLiteError
  ingestError : Option OosLiteError

namespace Worker

variable (env : Env) (host : Host)

/-- Events arrive, and the worker may be stopped. -/
def interfere (w : Worker) (meanwhile : Meanwhile) : Worker :=
  let w := meanwhile.events.foldl (fun w e => w.receive e.1 e.2) w
  { w with running := w.running && !meanwhile.stop }

/-- The `filter_entry` of `scan_inner`. -/
def scanIncludes (w : Worker) (path : FilePath) : Bool :=
  match path.stripPrefix w.config.watchDir with
  | some relative => relative.isEmpty || !w.rules.isIgnored relative.text
  | none => false

end Worker

namespace ScanState

variable (env : Env) (host : Host)

/-- A file of the walk. -/
def takeIn (s : ScanState) (path : FilePath) (metadata : FileMetadata) : ScanState :=
  let s := { s with seen := s.seen ++ (s.worker.logicalName path).toList }
  let w := s.worker
  if w.pending.hasRenames || (w.cancellable && w.pending.updates.contains path.components) then
    { s with worker := w.queueFound host path }
  else
    let w :=
      if w.cancellable then w
      else { w with
        pending := { w.pending with updates := w.pending.updates.erase path.components } }
    let ingested := w.ingest env host path metadata false
    match ingested.1 with
    | .ok () => { s with worker := ingested.2 }
    | .error e =>
      { s with
        worker := ingested.2.deferError host path 0 e
        ingestError := s.ingestError.or (some e) }

/-- The loop body of `scan_inner`. -/
def entry (s : ScanState) (item : FilePath × Except IoError FileType) : ScanState :=
  match item.2 with
  | .error _ => { s with scanError := s.scanError.or (some (.ofIo .other)) }
  | .ok _ =>
    match host.metadata item.1 with
    | .error e => { s with scanError := s.scanError.or (some (.ofIo e)) }
    | .ok metadata => if metadata.fileType = .file then s.takeIn env host item.1 metadata else s

/-- The loop of `scan_inner`. -/
def loop (meanwhile : Nat → Meanwhile) :
    Nat → List (FilePath × Except IoError FileType) → ScanState → Result Unit × ScanState
  | _, [], s => (.ok (), s)
  | i, item :: rest, s =>
    let s := { s with worker := s.worker.interfere (meanwhile i) }
    if s.worker.cancelled then (.error (.io .other "Reconciliation scan cancelled"), s)
    else loop meanwhile (i + 1) rest (s.entry env host item)

end ScanState

namespace Worker

variable (env : Env) (host : Host)

/-- The paths of the tracked names that are gone. -/
def missingPaths (root : FilePath) (seen : List String) : List String → Result (List FilePath)
  | [] => .ok []
  | name :: rest => do
    if name ∈ seen then missingPaths root seen rest
    else
      match host.symlinkMetadata (root.join name) with
      | .ok _ => missingPaths root seen rest
      | .error .notFound => return root.join name :: (← missingPaths root seen rest)
      | .error e => throw (.ofIo e)

/-- The end of `scan_inner`: unbind what is gone. -/
def unbindMissing (w : Worker) (seen : List String) : Result Unit × Worker :=
  match missingPaths host w.config.watchDir seen (w.engine.store.listWatcherFiles w.watchKey) with
  | .error e => (.error e, w)
  | .ok missing =>
    (w.withRenames (w.pending.renames ++ missing.map fun source => ⟨source, none⟩)).processRenames
      host

/-- `scan_inner` once the walk is over. -/
def finishScan (s : ScanState) (generation : UInt64) : Result (Option OosLiteError) × Worker :=
  if s.worker.cancelled then (.error (.io .other "Reconciliation scan cancelled"), s.worker)
  else
    match s.scanError, s.ingestError with
    | some e, _ => (.error e, s.worker)
    | none, some e => (.ok (some e), s.worker)
    | none, none =>
      if s.worker.pending.hasRenames || s.worker.pending.generation ≠ generation then
        (.ok none, s.worker)
      else
        let swept := s.worker.unbindMissing host s.seen
        (swept.1.map fun _ => none, swept.2)

/-- The walk of `scan_inner`, and what happens before it is looked at. -/
def scanWalk (w : Worker) (meanwhile : Nat → Meanwhile) : Result Unit × ScanState :=
  let items := host.walkIncluded w.config.watchDir w.scanIncludes
  let walked := ScanState.loop env host meanwhile 0 items ⟨w, [], none, none⟩
  (walked.1,
    { walked.2 with worker := walked.2.worker.interfere (meanwhile items.length) })

/-- `scan_inner`. -/
def scanInner (w : Worker) (meanwhile : Nat → Meanwhile) :
    Result (Option OosLiteError) × Worker :=
  match host.metadata w.config.watchDir with
  | .error e => (.error (.ofIo e), w)
  | .ok metadata =>
    if metadata.fileType ≠ .dir then
      (.error (.io .other "Watched root is no longer a directory"), w)
    else
      let walked := w.scanWalk env host meanwhile
      match walked.1 with
      | .error e => (.error e, walked.2.worker)
      | .ok () => finishScan host walked.2 w.pending.generation

/-- `scan`, with the ignore rules that it loads. -/
def scan (w : Worker) (rules : IgnoreRules) (meanwhile : Nat → Meanwhile) : Result Unit × Worker :=
  let result := { w with rules }.scanInner env host meanwhile
  match result.1 with
  | .ok (some fileError) => (.error fileError, result.2)
  | .ok none => (.ok (), result.2)
  | .error e => (.error e, result.2)

end Worker

end OosLite
