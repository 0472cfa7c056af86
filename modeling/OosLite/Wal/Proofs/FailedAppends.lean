import OosLite.Wal.Proofs.Operations
import OosLite.Lib.Execution
import OosLite.Reference

/-!
# A log whose appends may fail

A process appends records and takes checkpoints; an append may fail with any part of its record
written, and the process goes on. Which acknowledged records are still read back then?
-/

namespace OosLite.Wal

open Files Effect

/-- A process over a log, with what it remembers: the records whose append returned, in order,
and the number of the last checkpoint. -/
structure LogRun where
  state : WalState
  acked : List WalRecord
  last : UInt64

/-- The operations in which an append fails. -/
def appendFaults : FsOp WalPath → Bool
  | .write .log _ | .sync .log => true
  | _ => false

/-- Nothing fails. -/
def noFaults : FsOp WalPath → Bool := fun _ => false

/-- The machine in which so many operations may fail. -/
abbrev faultyWal (faulty : FsOp WalPath → Bool) := walMachine fun o => faulty o = true

/-- What the process does next. -/
inductive LogAct where
  | append (put : WalPutPayload)
  | appendFails (put : WalPutPayload)
  | checkpoint (lsn : UInt64)
  | reopen

/-- Another process, or the same one later, over the files of a state. -/
def SameFiles (s s' : WalState) : Prop := s'.fs.files = s.fs.files

section Runs

variable (env : Env)

inductive LogStep : LogRun → LogAct → LogRun → Prop where
  | append {run : LogRun} {put lsn s'} :
      Returns (faultyWal appendFaults) (appendPutAndSync env put) run.state (.ok lsn) s' →
      LogStep run (.append put) ⟨s', run.acked ++ [⟨lsn, .putObject put⟩], run.last⟩
  | appendFails {run : LogRun} {put e s'} :
      Returns (faultyWal appendFaults) (appendPutAndSync env put) run.state (.error e) s' →
      LogStep run (.appendFails put) ⟨s', run.acked, run.last⟩
  | checkpoint {run : LogRun} {lsn s'} :
      Returns (faultyWal noFaults) (checkpoint lsn) run.state (.ok ()) s' →
      LogStep run (.checkpoint lsn) ⟨s', run.acked, lsn⟩
  | reopen {run : LogRun} {s s'} :
      SameFiles run.state s → Returns (faultyWal noFaults) (openWithVault env) s (.ok ()) s' →
      LogStep run .reopen ⟨s', run.acked, run.last⟩

/-- The process starts by opening the log of any directory. -/
inductive LogStart : LogRun → Prop where
  | opened {s s' : WalState} :
      Returns (faultyWal noFaults) (openWithVault env) s (.ok ()) s' →
      LogStart ⟨s', [], metaLsn s⟩

namespace LogRun

variable (run : LogRun)

/-- The acknowledged records above a number. -/
def above (lsn : UInt64) : List WalRecord := run.acked.filter fun r => lsn < r.lsn

/-- The acknowledged records above the last checkpoint. -/
def pending : List WalRecord := run.above run.last

/-- The records at the front of the log. -/
def records : List WalRecord := (scan env (logContent run.state)).items.map Prod.snd

/-- The bytes behind the last whole record. -/
def torn : Bytes := (logContent run.state).drop (scan env (logContent run.state)).stop

/-- A record torn so early that a reader takes it for the end of the log: there is not even a
whole header, or it does not begin with the magic bytes. -/
def EndsQuietly : Prop :=
  (run.torn env).length < walHeaderSize ∨ Bytes.slice (run.torn env) 0 4 ≠ walMagic

/-- The records a reader must return are among those it returns, in order. -/
def Delivered : Result (List WalRecord) → Prop
  | .ok records => run.pending.Sublist records
  | .error _ => run.pending = []

end LogRun

/-- Every acknowledged record above the last checkpoint is read back, in the order of the appends:
by the process itself, and by a process that opens the log anew. -/
structure AckedReturned (run : LogRun) : Prop where
  here : Ends (faultyWal noFaults) (readUncheckpointedRecords env) run.state
    fun r _ => run.Delivered r
  reopened : ∀ s, SameFiles run.state s →
    Ends (faultyWal noFaults) (do openWithVault env; readUncheckpointedRecords env) s
      fun r _ => run.Delivered r

/-- When a step keeps what was acknowledged: an append that succeeds finds no torn record at the
end of the log, one that fails leaves a torn record only where a reader passes over it or
nothing is pending, and a checkpoint asks for no record back that is no longer in the log, nor
truncates one that is above its number. -/
def Keeps (run : LogRun) : LogAct → LogRun → Prop
  | .append _, _ => run.torn env = []
  | .appendFails _, run' => run'.EndsQuietly env ∨ run'.pending = []
  | .checkpoint lsn, _ => run.above lsn = [] ∨
      lsn < run.state.mem.currentLsn ∧ (run.above lsn).Sublist (run.records env) ∧
        run.EndsQuietly env
  | .reopen, _ => True

/-- The runs all of whose steps satisfy a condition. -/
inductive LogReachable (ok : LogRun → LogAct → LogRun → Prop) : LogRun → Prop where
  | start {run} : LogStart env run → LogReachable ok run
  | step {run act run'} :
      LogReachable ok run → LogStep env run act run' → ok run act run' → LogReachable ok run'

/-! ## The invariant -/

/-- What holds between the steps. -/
structure LogInv (run : LogRun) : Prop where
  log : ∃ durable, LogIs run.state ⟨durable, logContent run.state⟩ (logContent run.state).length
  last : run.state.mem.checkpointLsn = run.last
  saved : metaLsn run.state = run.last
  pending : run.pending.Sublist (run.records env)
  quiet : run.EndsQuietly env ∨ run.pending = []

variable {env}

namespace LogRun

theorem records_eq {run : LogRun} {frames tail}
    (p : Parsed env (logContent run.state) frames tail) :
    run.records env = frames.map Prod.snd := p.items

theorem torn_eq {run : LogRun} {frames tail}
    (p : Parsed env (logContent run.state) frames tail) : run.torn env = tail := p.drop_stop

theorem endsQuietly_of_torn {run : LogRun} (h : run.torn env = []) : run.EndsQuietly env := by
  left
  rw [h]
  decide

/-- A log that ends quietly gives no reason to stop that a reader complains about. -/
theorem reason_of_endsQuietly {run : LogRun} (h : run.EndsQuietly env) :
    (scan env (logContent run.state)).reason = none ∨
      (scan env (logContent run.state)).reason = some .partialHeader ∨
      (scan env (logContent run.state)).reason = some .badMagic := by
  obtain ⟨frames, tail, p⟩ := exists_parsed env (logContent run.state)
  rw [EndsQuietly, torn_eq p] at h
  rw [p.scan_eq]
  simp only [Framing.tailReason]
  by_cases empty : tail.isEmpty
  · exact .inl (if_pos empty)
  rw [if_neg empty, WalRecord.next]
  by_cases header : tail.length < walHeaderSize
  · rw [if_pos header]
    exact .inr (.inl rfl)
  · rw [if_neg header, if_pos (h.resolve_left header)]
    exact .inr (.inr rfl)

/-- What a process reads when the log ends quietly. -/
theorem uncheckpointed_eq {run : LogRun} (h : run.EndsQuietly env) (lsn : UInt64) :
    uncheckpointed env lsn (logContent run.state) =
      .ok ((run.records env).filter fun r => lsn < r.lsn) := by
  rcases reason_of_endsQuietly h with h | h | h <;> simp only [uncheckpointed, h] <;> rfl

end LogRun

open LogRun

theorem noFaults_sound (o : FsOp WalPath) : ¬ noFaults o = true := by simp [noFaults]

/-- The invariant of a log that ends with a whole record. -/
theorem LogInv.whole {run : LogRun} {durable : Bytes} {frames}
    (p : Parsed env (logContent run.state) frames [])
    (log : LogIs run.state ⟨durable, logContent run.state⟩ (logContent run.state).length)
    (last : run.state.mem.checkpointLsn = run.last) (saved : metaLsn run.state = run.last)
    (sub : run.pending.Sublist (frames.map Prod.snd)) : LogInv env run where
  log := ⟨durable, log⟩
  last := last
  saved := saved
  pending := by rwa [records_eq p]
  quiet := .inl (endsQuietly_of_torn (torn_eq p))

/-- Opening a log keeps its whole records. -/
theorem LogInv.opened {s s' : WalState} {acked : List WalRecord} {last : UInt64}
    (start : Returns (faultyWal noFaults) (openWithVault env) s (.ok ()) s')
    (saved : metaLsn s = last)
    (sub : (acked.filter fun r => last < r.lsn).Sublist
      ((scan env (logFile s).data).items.map Prod.snd)) :
    LogInv env ⟨s', acked, last⟩ := by
  obtain ⟨-, sameMeta, log, mem⟩ := (safe_openWithVault s noFaults_sound).returns start
  obtain ⟨frames, tail, p⟩ := exists_parsed env (logFile s).data
  have stop : (scan env (logFile s).data).stop = (Framing.join frames).length := by
    rw [p.scan_eq]
  rw [p.take_stop, stop] at log
  have content : logContent s' = Framing.join frames := log.content
  have checkpoint : s'.mem.checkpointLsn = last := by rw [mem, ← saved]
  have meta' : metaLsn s' = last := (metaLsn_congr sameMeta).trans saved
  have front := p.front
  rw [← content] at log front
  rw [p.items] at sub
  exact LogInv.whole front log checkpoint meta' sub

theorem LogInv.append {run : LogRun} {put lsn s'} (inv : LogInv env run)
    (whole : run.torn env = [])
    (returned : Returns (faultyWal appendFaults) (appendPutAndSync env put) run.state (.ok lsn) s') :
    LogInv env ⟨s', run.acked ++ [⟨lsn, .putObject put⟩], run.last⟩ := by
  obtain ⟨durable, log⟩ := inv.log
  obtain ⟨-, mem, sameMeta, nonce, bytes, encoded, log'⟩ :=
    (safe_appendPutAndSync log put).returns returned
  obtain ⟨frames, tail, p⟩ := exists_parsed env (logContent run.state)
  obtain rfl : tail = [] := (torn_eq p).symm.trans whole
  have content : logContent s' = logContent run.state ++ bytes := log'.content
  have both : Parsed env (logContent s') (frames ++ [(bytes, ⟨lsn, .putObject put⟩)]) [] := by
    rw [content]
    exact p.append (Parsed.single encoded)
  rw [← content] at log'
  refine LogInv.whole both log' ?_ ?_ ?_
  · rw [mem]
    exact inv.last
  · exact (metaLsn_congr sameMeta).trans inv.saved
  · have old := inv.pending
    rw [records_eq p] at old
    rw [LogRun.pending, LogRun.above, List.filter_append, List.map_append]
    exact old.append List.filter_sublist

theorem LogInv.appendFails {run : LogRun} {put e s'} (inv : LogInv env run)
    (quiet : EndsQuietly env ⟨s', run.acked, run.last⟩ ∨ run.pending = [])
    (returned : Returns (faultyWal appendFaults) (appendPutAndSync env put) run.state (.error e) s') :
    LogInv env ⟨s', run.acked, run.last⟩ := by
  obtain ⟨durable, log⟩ := inv.log
  obtain ⟨mem, sameMeta, written, log', -⟩ := (safe_appendPutAndSync log put).returns returned
  obtain ⟨frames, tail, p⟩ := exists_parsed env (logContent run.state)
  obtain ⟨frames', tail', q⟩ := exists_parsed env (tail ++ written)
  have content : logContent s' = logContent run.state ++ written := log'.content
  have both : Parsed env (logContent s') (frames ++ frames') tail' := by
    rw [content]
    exact p.append q
  rw [← content] at log'
  have old := inv.pending
  rw [records_eq p] at old
  exact
    { log := ⟨durable, log'⟩
      last := by rw [mem]; exact inv.last
      saved := (metaLsn_congr sameMeta).trans inv.saved
      pending := by
        rw [records_eq both, List.map_append]
        exact old.trans (List.sublist_append_left _ _)
      quiet := quiet }

theorem metaLsn_checkpoint {s : WalState} {lsn : UInt64}
    (h : s.fs.file .meta = some ⟨Bytes.ofU64 lsn, Bytes.ofU64 lsn⟩) : metaLsn s = lsn := by
  have eight : ¬ (Bytes.ofU64 lsn).length < 8 := by simp
  simp only [metaLsn, Fs.data, h, Option.map_some, Option.elim_some, checkpointOf]
  rw [if_pos (by simp), List.take_of_length_le (by simp), Bytes.toU64_ofU64]

theorem LogInv.checkpoint {run : LogRun} {lsn s'} (inv : LogInv env run)
    (keeps : run.above lsn = [] ∨ lsn < run.state.mem.currentLsn ∧
      (run.above lsn).Sublist (run.records env) ∧ run.EndsQuietly env)
    (returned : Returns (faultyWal noFaults) (checkpoint lsn) run.state (.ok ()) s') :
    LogInv env ⟨s', run.acked, lsn⟩ := by
  obtain ⟨durable, log⟩ := inv.log
  obtain ⟨mem, saved, log'⟩ := (safe_checkpoint log lsn).returns returned
  have last : s'.mem.checkpointLsn = lsn := by rw [mem]
  have meta' := metaLsn_checkpoint saved
  by_cases covers : lsn ≥ run.state.mem.currentLsn
  · rw [if_pos covers] at log'
    have none : run.above lsn = [] := keeps.resolve_right fun h => absurd h.1 (UInt64.not_lt.2 covers)
    have content : logContent s' = [] := log'.content
    have empty : Parsed env (logContent s') [] [] := by
      rw [content]
      exact Parsed.nil
    have log'' : LogIs s' ⟨[], logContent s'⟩ (logContent s').length := by
      rw [content]
      exact log'
    refine LogInv.whole empty log'' last meta' ?_
    have nothing : LogRun.pending ⟨s', run.acked, lsn⟩ = [] := none
    rw [nothing]
    exact List.nil_sublist _
  · rw [if_neg covers] at log'
    have content : logContent s' = logContent run.state := log'.content
    have records : records env ⟨s', run.acked, lsn⟩ = run.records env := by
      simp only [LogRun.records, content]
    have quiet : EndsQuietly env ⟨s', run.acked, lsn⟩ ↔ run.EndsQuietly env := by
      simp only [LogRun.EndsQuietly, LogRun.torn, content]
    refine ⟨⟨durable, ?_⟩, last, meta', ?_, ?_⟩
    · rw [content]
      exact log'
    · rcases keeps with none | ⟨-, sub, -⟩
      · have nothing : LogRun.pending ⟨s', run.acked, lsn⟩ = [] := none
        rw [nothing]
        exact List.nil_sublist _
      · rw [records]
        exact sub
    · exact keeps.symm.imp (fun h => quiet.2 h.2.2) id

theorem SameFiles.file {s s' : WalState} (h : SameFiles s s') (p : WalPath) :
    s'.fs.file p = s.fs.file p := by
  simp only [Fs.file, show s'.fs.files = s.fs.files from h]

theorem SameFiles.content {s s' : WalState} (h : SameFiles s s') :
    (logFile s').data = logContent s := by
  simp only [logFile, logContent, Fs.data, h.file]
  cases s.fs.file .log <;> rfl

theorem LogInv.step {run act run'} (inv : LogInv env run) (step : LogStep env run act run')
    (keeps : Keeps env run act run') : LogInv env run' := by
  cases step with
  | append returned => exact inv.append keeps returned
  | appendFails returned => exact inv.appendFails keeps returned
  | checkpoint returned => exact inv.checkpoint keeps returned
  | reopen same returned =>
    refine LogInv.opened returned ?_ ?_
    · rw [← inv.saved]
      exact metaLsn_congr (same.file .meta)
    · rw [same.content]
      exact inv.pending

theorem logInv {run : LogRun} (h : LogReachable env (Keeps env) run) : LogInv env run := by
  induction h with
  | start h =>
    cases h with
    | opened returned => exact LogInv.opened returned rfl (List.nil_sublist _)
  | step _ step keeps ih => exact ih.step step keeps

/-- The records a reader returns, when the log holds the pending ones in order. -/
theorem LogInv.delivered {run : LogRun} (inv : LogInv env run) :
    run.Delivered (uncheckpointed env run.last (logContent run.state)) := by
  rcases inv.quiet with quiet | nothing
  · rw [uncheckpointed_eq quiet]
    have above : run.pending.filter (fun r => run.last < r.lsn) = run.pending := by
      simp [LogRun.pending, LogRun.above]
    have sub := inv.pending.filter fun r => run.last < r.lsn
    rwa [above] at sub
  · cases uncheckpointed env run.last (logContent run.state) with
    | ok records =>
      rw [Delivered, nothing]
      exact List.nil_sublist _
    | error e => exact nothing

theorem LogInv.here {run : LogRun} (inv : LogInv env run) {r s'}
    (read : Returns (faultyWal noFaults) (readUncheckpointedRecords env) run.state r s') :
    run.Delivered r := by
  obtain ⟨durable, log⟩ := inv.log
  obtain ⟨-, rfl⟩ := (safe_readUncheckpointedRecords log.file noFaults_sound).returns read
  rw [inv.last]
  exact inv.delivered

theorem total_faultyWal (faulty : FsOp WalPath → Bool) : (faultyWal faulty).Total :=
  Proc.machine_total _ _ _ _ fun q => by cases q; exact ⟨FixedBytes.ofBytes 24 [], trivial⟩

/-- In a run whose steps all keep what was acknowledged, every acknowledged record above the last
checkpoint is read back in every state reached. -/
theorem acked_returned (env : Env) (run : LogRun) (h : LogReachable env (Keeps env) run) :
    AckedReturned env run where
  here := ⟨(total_faultyWal _).returns _ _, fun _ _ read => (logInv h).here read⟩
  reopened s same := by
    refine ⟨(total_faultyWal _).returns _ _, fun r s' read => ?_⟩
    rcases returns_bind.1 read with ⟨_, middle, opened, read⟩ | ⟨e, failed, rfl⟩
    · have step : LogStep env run .reopen ⟨middle, run.acked, run.last⟩ := .reopen same opened
      exact ((logInv h).step step trivial).here read
    · -- a log that does not end quietly may not open at all, but then nothing is pending
      refine (logInv h).quiet.resolve_left fun quiet => ?_
      have fails : fatal (scan env (logFile s).data).reason = .error e :=
        (safe_openWithVault s noFaults_sound).returns failed
      rw [same.content] at fails
      rcases reason_of_endsQuietly quiet with h | h | h <;> rw [h] at fails <;> cases fails

end Runs

/-! ## Two runs from an empty directory -/

namespace Sample

def env : Env := Reference.env []

/-- A put without chunks. -/
def put (name : String) : WalPutPayload where
  name := name
  objectId := FixedBytes.ofBytes 16 []
  version := 1
  manifest := { totalSize := 0, contentHash := FixedBytes.ofBytes 32 [], createdAt := 0, chunks := [] }
  chunks := []

def answer : ∀ q : WalQuestion, q.Ans
  | .nonce => FixedBytes.ofBytes 24 []

def empty : WalState := ⟨⟨∅, fun _ => 0⟩, ⟨0, 0⟩⟩

/-- What a program gives when its operations fail as planned. -/
def run {α : Type} (faulty : FsOp WalPath → Bool) (p : WalProg α) (plan : List (Option Nat))
    (s : WalState) : Result α × WalState :=
  Proc.exec OosLiteError.ofIo faulty answer p plan s

theorem returns_run {α : Type} (faulty : FsOp WalPath → Bool) (p : WalProg α)
    (plan : List (Option Nat)) (s : WalState) :
    Returns (faultyWal faulty) p s (run faulty p plan s).1 (run faulty p plan s).2 :=
  Proc.returns_exec (fun _ => trivial) p plan s

def opened : WalState := (run noFaults (openWithVault env) [] empty).2

theorem start : LogStart env ⟨opened, [], 0⟩ := by
  have returned := returns_run noFaults (openWithVault env) [] empty
  rw [show (run noFaults (openWithVault env) [] empty).1 = .ok () by decide +kernel] at returned
  exact .opened returned

/-- The state after a first append. -/
def appended : WalState := (run appendFaults (appendPutAndSync env (put "a")) [] opened).2

/-- The state after an append of which one byte is written. -/
def torn : WalState := (run appendFaults (appendPutAndSync env (put "a")) [some 1] opened).2

/-- The state after another append, which succeeds. -/
def later : WalState := (run appendFaults (appendPutAndSync env (put "b")) [] torn).2

/-- The first append, one of which one byte is written, the next process and its append. -/
def halfAppended : WalState := (run appendFaults (appendPutAndSync env (put "b")) [some 1] appended).2

def reopened : WalState := (run noFaults (openWithVault env) [] halfAppended).2

def resumed : WalState := (run appendFaults (appendPutAndSync env (put "c")) [] reopened).2

/-- The records of the appends that returned. -/
def acked : List WalRecord := [⟨1, .putObject (put "a")⟩, ⟨2, .putObject (put "c")⟩]

theorem results : (run appendFaults (appendPutAndSync env (put "a")) [] opened).1 = .ok 1 ∧
    (run appendFaults (appendPutAndSync env (put "b")) [some 1] appended).1 =
      .error (.io .other "") ∧
    (run noFaults (openWithVault env) [] halfAppended).1 = .ok () ∧
    (run appendFaults (appendPutAndSync env (put "c")) [] reopened).1 = .ok 2 ∧
    LogRun.torn env ⟨opened, [], 0⟩ = [] ∧
    LogRun.torn env ⟨halfAppended, [⟨1, .putObject (put "a")⟩], 0⟩ = [79] ∧
    LogRun.torn env ⟨reopened, [⟨1, .putObject (put "a")⟩], 0⟩ = [] ∧
    LogRun.pending ⟨resumed, acked, 0⟩ = acked ∧
    (run noFaults (readUncheckpointedRecords env) [] resumed).1 = .ok acked := by
  decide +kernel

end Sample

/-- An append, one that fails after a byte, the next process and an append of it: the log gives back
the two that returned. -/
theorem acked_returned_appended :
    (Sample.run noFaults (readUncheckpointedRecords Sample.env) [] Sample.resumed).1 =
        .ok Sample.acked ∧
      LogRun.pending ⟨Sample.resumed, Sample.acked, 0⟩ = Sample.acked ∧
      AckedReturned Sample.env ⟨Sample.resumed, Sample.acked, 0⟩ := by
  obtain ⟨first, fails, opens, second, whole, half, repaired, pending, read⟩ := Sample.results
  have appended := Sample.returns_run appendFaults
    (appendPutAndSync Sample.env (Sample.put "a")) [] Sample.opened
  have failed := Sample.returns_run appendFaults
    (appendPutAndSync Sample.env (Sample.put "b")) [some 1] Sample.appended
  have reopened := Sample.returns_run noFaults (openWithVault Sample.env) [] Sample.halfAppended
  have resumed := Sample.returns_run appendFaults
    (appendPutAndSync Sample.env (Sample.put "c")) [] Sample.reopened
  rw [first] at appended
  rw [fails] at failed
  rw [opens] at reopened
  rw [second] at resumed
  have quiet : LogRun.EndsQuietly Sample.env
      ⟨Sample.halfAppended, [⟨1, .putObject (Sample.put "a")⟩], 0⟩ := by
    refine .inl ?_
    rw [half]
    decide
  have reached : LogReachable Sample.env (Keeps Sample.env)
      ⟨Sample.reopened, [⟨1, .putObject (Sample.put "a")⟩], 0⟩ :=
    .step (.step (.step (.start Sample.start) (.append appended) whole) (.appendFails failed)
      (.inl quiet)) (.reopen rfl reopened) trivial
  have last : LogStep Sample.env ⟨Sample.reopened, [⟨1, .putObject (Sample.put "a")⟩], 0⟩
      (.append (Sample.put "c")) ⟨Sample.resumed, [⟨1, .putObject (Sample.put "a")⟩] ++
        [⟨2, .putObject (Sample.put "c")⟩], 0⟩ := by
    apply LogStep.append
    dsimp only
    exact resumed
  exact ⟨read, pending, acked_returned Sample.env _ (reached.step last repaired)⟩

/-- One byte of a failed append hides every record that is appended and acknowledged after it. -/
theorem torn_append_hides_record :
    ¬ ∀ run, LogReachable Sample.env (fun _ _ _ => True) run → AckedReturned Sample.env run := by
  intro all
  have failed := Sample.returns_run appendFaults
    (appendPutAndSync Sample.env (Sample.put "a")) [some 1] Sample.opened
  rw [show (Sample.run appendFaults (appendPutAndSync Sample.env (Sample.put "a")) [some 1]
    Sample.opened).1 = .error (.io .other "") by decide +kernel] at failed
  have acked := Sample.returns_run appendFaults
    (appendPutAndSync Sample.env (Sample.put "b")) [] Sample.torn
  rw [show (Sample.run appendFaults (appendPutAndSync Sample.env (Sample.put "b")) []
    Sample.torn).1 = .ok 2 by decide +kernel] at acked
  have read := Sample.returns_run noFaults (readUncheckpointedRecords Sample.env) [] Sample.later
  rw [show (Sample.run noFaults (readUncheckpointedRecords Sample.env) []
    Sample.later).1 = .ok [] by decide +kernel] at read
  have reached : LogReachable Sample.env (fun _ _ _ => True)
      ⟨Sample.later, [⟨2, .putObject (Sample.put "b")⟩], 0⟩ :=
    .step (.step (.start Sample.start) (.appendFails failed) trivial) (.append acked) trivial
  have delivered : (LogRun.pending ⟨Sample.later, [⟨2, .putObject (Sample.put "b")⟩], 0⟩).Sublist
      [] := (all _ reached).here.all _ _ read
  exact absurd delivered (by decide)

end OosLite.Wal
