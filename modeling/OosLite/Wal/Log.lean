import OosLite.Wal.Format
import OosLite.Lib.Process

/-!
# The write-ahead log

`wal.log` and `checkpoint.meta`, and the operations on them.
-/

namespace OosLite

open Files Effect

inductive WalPath where
  | log
  | «meta»
  deriving DecidableEq, Ord

instance : Std.TransOrd WalPath where
  eq_swap {a b} := by cases a <;> cases b <;> rfl
  isLE_trans {a b c} := by cases a <;> cases b <;> cases c <;> decide

instance : Std.LawfulEqOrd WalPath where
  compare_self {a} := by cases a <;> rfl
  eq_of_compare {a b} := by cases a <;> cases b <;> decide

/-- What the log asks the system for. -/
inductive WalQuestion where
  | nonce

@[reducible] def WalQuestion.Ans : WalQuestion → Type
  | .nonce => Nonce

/-- `Wal`: the counters it keeps in memory. -/
structure Wal where
  currentLsn : UInt64
  checkpointLsn : UInt64
  deriving DecidableEq

abbrev WalProg (α : Type) := ProcProg WalPath Wal WalQuestion WalQuestion.Ans OosLiteError α

abbrev WalState := Proc WalPath Wal

/-- The machine of the log, with the file operations that may fail. -/
abbrev walMachine (faulty : FsOp WalPath → Prop) :
    Machine (ProcOp WalPath Wal WalQuestion) (ProcOp.Res WalQuestion.Ans) OosLiteError WalState :=
  Proc.machine WalQuestion.Ans OosLiteError.ofIo faulty fun _ _ => True

namespace Wal

variable (env : Env)

/-- The checkpoint that the contents of `checkpoint.meta` give. -/
def checkpointOf (bytes : Bytes) : UInt64 :=
  if 8 ≤ bytes.length then Bytes.toU64 (bytes.take 8) else 0

/-- Both loops over the log. -/
def scan (content : Bytes) : Framing.Scan WalRecord WalStop :=
  Framing.scan (WalRecord.next env) (content.length + 1) 0 content

/-- The errors `open_with_vault` takes for the end of the log. -/
def tolerated : WalStop → Bool
  | .partialHeader | .badMagic => true
  | .failed (.checksumMismatch ..) | .failed (.walRecovery _) => true
  | .failed _ => false

/-- The highest number among a start value and the records of a log. -/
def maxLsn (start : UInt64) (records : List WalRecord) : UInt64 :=
  records.foldl (fun current record => if record.lsn > current then record.lsn else current) start

/-- The part of `open_with_vault` that reads `checkpoint.meta`. -/
def readCheckpoint : WalProg UInt64 := do
  if ← Proc.exists? .meta then return checkpointOf (← Proc.read .meta) else return 0

/-- An error in the middle of the log that `open_with_vault` gives up on. -/
def fatal : Option WalStop → Result Unit
  | some (.failed e) => if tolerated (.failed e) then .ok () else .error e
  | _ => .ok ()

/-- `open_with_vault`. -/
def openWithVault : WalProg Unit := do
  let checkpointLsn ← readCheckpoint
  Proc.create .log
  let content ← Proc.read .log
  let found := scan env content
  Prog.ofExcept (fatal found.reason)
  Prog.when (found.stop < content.length) (Proc.setLen .log found.stop)
  Proc.seekEnd .log
  Proc.save { currentLsn := maxLsn checkpointLsn (found.items.map Prod.snd), checkpointLsn }

/-- The nonce of the next record, if records are encrypted. -/
def freshNonce : WalProg Nonce :=
  if env.vaultKey.isSome then Proc.ask .nonce else pure (FixedBytes.ofBytes 24 [])

/-- `append_put_and_sync`. -/
def appendPutAndSync (payload : WalPutPayload) : WalProg UInt64 := do
  let wal ← Proc.load
  let lsn := wal.currentLsn + 1
  Proc.save { wal with currentLsn := lsn }
  let nonce ← freshNonce env
  let encoded ← Prog.ofExcept (WalRecord.encodePut env lsn payload nonce)
  Proc.write .log encoded
  Proc.sync .log
  return lsn

/-- What `read_uncheckpointed_records` makes of the contents of the log. -/
def uncheckpointed (checkpointLsn : UInt64) (content : Bytes) : Result (List WalRecord) :=
  let found := scan env content
  match found.reason with
  | some (.failed e) => .error e
  | _ => .ok ((found.items.map Prod.snd).filter fun r => checkpointLsn < r.lsn)

/-- `read_uncheckpointed_records`. -/
def readUncheckpointedRecords : WalProg (List WalRecord) := do
  if ← Proc.exists? .log then
    let content ← Proc.read .log
    let wal ← Proc.load
    Prog.ofExcept (uncheckpointed env wal.checkpointLsn content)
  else return []

/-- `checkpoint`. -/
def checkpoint (lsn : UInt64) : WalProg Unit := do
  let wal ← Proc.load
  Proc.save { wal with checkpointLsn := lsn }
  Proc.truncate .meta
  Proc.write .meta (Bytes.ofU64 lsn)
  Proc.sync .meta
  Prog.when (lsn ≥ wal.currentLsn) do
    Proc.setLen .log 0
    Proc.seek .log 0
    Proc.sync .log

end Wal

end OosLite
