import Mathlib.Data.List.AList
import OosLite.Lib.Text
import OosLite.Lib.Bytes

/-!
# The shares

`ShareManager`: a map in memory, and the file `shares.json` that it is read from when the program
starts and that is written over after every change. The result of the write is discarded.
-/

namespace OosLite

structure ShareInfo where
  id : String
  path : String
  token : String
  expiresAt : UInt64
  deriving DecidableEq

/-- `HashMap<String, ShareInfo>`. -/
abbrev Shares := AList fun _ : String => ShareInfo

/-- What `serde_json` makes of the map, and of a text. -/
structure Json where
  toStringPretty : Shares → Option String
  fromStr : String → Option Shares

/-- What becomes of a write of the file: it does not come to open it, or so many bytes are written at
most. -/
inductive FileWrite where
  | refused
  | upTo (count : Nat)
  deriving DecidableEq

namespace FileWrite

/-- `std::fs::write`: the file after it. -/
def apply (write : FileWrite) (data : Bytes) (file : Option Bytes) : Option Bytes :=
  match write with
  | .refused => file
  | .upTo count => some (data.take count)

/-- Everything is written. -/
def isWhole (write : FileWrite) (data : Bytes) : Bool :=
  match write with
  | .refused => false
  | .upTo count => data.length ≤ count

end FileWrite

/-- `{:016x}`. -/
def hex16 (n : UInt64) : String := Text.hex (Bytes.ofU64 n).reverse

/-- `now + expires_in_sec`: a sum beyond 64 bits panics where overflow is checked, and wraps around
where it is not. -/
def addSeconds (checks : Bool) (now seconds : UInt64) : Option UInt64 :=
  if checks ∧ 2 ^ 64 ≤ now.toNat + seconds.toNat then none else some (now + seconds)

/-- The two numbers that `add_share` draws. -/
structure Drawn where
  id : UInt64
  token : UInt64
  deriving DecidableEq

namespace ShareManager

/-- `ShareManager::new`, from the file `shares.json` if there is one. -/
def new (json : Json) (file : Option Bytes) : Shares :=
  match file with
  | none => ∅
  | some bytes =>
    match Text.fromUtf8 bytes with
    | none => ∅
    | some data => (json.fromStr data).getD ∅

/-- `save`: the file after it. -/
def save (json : Json) (shares : Shares) (write : FileWrite) (file : Option Bytes) : Option Bytes :=
  match json.toStringPretty shares with
  | none => file
  | some text => write.apply (Text.utf8 text) file

/-- The share of `add_share`. -/
def newShare (checks : Bool) (path : String) (expiresInSec : UInt64) (drawn : Drawn)
    (now : UInt64) : Option ShareInfo :=
  let expiresAt := if expiresInSec > 0 then addSeconds checks now expiresInSec else some 0
  expiresAt.map fun expiresAt => ⟨hex16 drawn.id, path, hex16 drawn.token, expiresAt⟩

/-- `add_share`, before it saves. -/
def addShare (shares : Shares) (info : ShareInfo) : Shares := shares.insert info.id info

/-- `get_share`. -/
def getShare (shares : Shares) (id : String) : Option ShareInfo := shares.lookup id

/-- `list_shares`. -/
def listShares (shares : Shares) (now : UInt64) : List ShareInfo :=
  (shares.entries.map (·.2)).filter fun s => s.expiresAt = 0 || s.expiresAt > now

/-- `revoke_share`, before it saves: the map, and whether the share was there. -/
def revokeShare (shares : Shares) (id : String) : Shares × Bool :=
  (shares.erase id, (shares.lookup id).isSome)

end ShareManager

/-! ## Runs -/

/-- What happens to the shares. A call may not return, when the program crashes in it. -/
inductive ShareEvent where
  | addShare (path : String) (expiresInSec : UInt64) (drawn : Drawn) (now : UInt64)
      (write : FileWrite) (crashes : Bool)
  | revokeShare (id : String) (write : FileWrite) (crashes : Bool)
  | restart
  deriving DecidableEq

/-- A call, with what it returned. -/
inductive ShareRecord where
  | add (info : ShareInfo) (returned : Bool)
  | revoke (id : String) (answer : Option Bool)
  deriving DecidableEq

/-- The memory of the running program and the file; the calls made, the last one first; and whether
since the last start no write has failed that a later one did not make good. -/
structure ShareRun where
  manager : Option Shares
  file : Option Bytes
  history : List ShareRecord
  settled : Bool

namespace ShareRun

variable (json : Json) (checks : Bool) (r : ShareRun)

/-- The map after a call is saved. A write that was not begun in a call that does not return has not
failed. -/
def saving (shares : Shares) (write : FileWrite) (crashes : Bool) (record : ShareRecord) :
    ShareRun where
  manager := if crashes then none else some shares
  file := ShareManager.save json shares write r.file
  history := record :: r.history
  settled :=
    match json.toStringPretty shares with
    | none => false
    | some text => write.isWhole (Text.utf8 text) || (write = .refused && crashes && r.settled)

/-- One step of a run. -/
def step : ShareEvent → ShareRun
  | .addShare path expiresInSec drawn now write crashes =>
    match r.manager with
    | none => r
    | some shares =>
      match ShareManager.newShare checks path expiresInSec drawn now with
      | none => r
      | some info =>
        r.saving json (ShareManager.addShare shares info) write crashes (.add info (!crashes))
  | .revokeShare id write crashes =>
    match r.manager with
    | none => r
    | some shares =>
      let (shares, removed) := ShareManager.revokeShare shares id
      let record := .revoke id (if crashes then none else some removed)
      if removed then r.saving json shares write crashes record
      else { r with manager := if crashes then none else some shares, history := record :: r.history }
  | .restart => { r with manager := some (ShareManager.new json r.file), settled := true }

/-- The map that a step saves, if it does. -/
def saved : ShareEvent → Option Shares
  | .addShare path expiresInSec drawn now _ _ => do
    let shares ← r.manager
    let info ← ShareManager.newShare checks path expiresInSec drawn now
    return ShareManager.addShare shares info
  | .revokeShare id _ _ => do
    let shares ← r.manager
    let (shares, removed) := ShareManager.revokeShare shares id
    if removed then some shares else none
  | .restart => none

end ShareRun

end OosLite
