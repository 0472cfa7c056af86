import OosLite.Vault.Key
import OosLite.Engine.Run

/-!
# Stores with and without a password

`open`, `open_with_password` and `init_encrypted` up to `open_internal`: they decide which key the store
runs with, and whether it may have one. Then the whole life of a store, from an empty directory on.
-/

namespace OosLite

open Files Effect

/-- `vault.key`, and the files it is written to first. -/
inductive RootPath where
  | vaultKey
  | tmp (stamp : Nat)
  deriving DecidableEq

namespace RootPath

/-- Numbers that tell the paths apart. -/
def number : RootPath → Nat
  | vaultKey => 0
  | tmp stamp => stamp + 1

theorem number_inj {p q : RootPath} (h : p.number = q.number) : p = q := by
  cases p <;> cases q <;> simp_all [number]

instance instOrd : Ord RootPath := ⟨fun p q => compare p.number q.number⟩

instance instTransOrd : Std.TransOrd RootPath where
  eq_swap {p q} := Std.OrientedOrd.eq_swap (a := p.number) (b := q.number)
  isLE_trans {p q r} h h' := Std.TransOrd.isLE_trans (a := p.number) (b := q.number) (c := r.number) h h'

instance instLawfulEqOrd : Std.LawfulEqOrd RootPath where
  compare_self {p} := Std.ReflOrd.compare_self (a := p.number)
  eq_of_compare {p q} h :=
    number_inj (Std.LawfulEqOrd.eq_of_compare (a := p.number) (b := q.number) h)

end RootPath

/-- `OsRng::fill_bytes`, and the process and the time in the name of a temporary file. -/
inductive VaultQuestion where
  | masterKey
  | salt
  | nonce
  | stamp

@[reducible] def VaultQuestion.Ans : VaultQuestion → Type
  | .masterKey => VaultKey
  | .salt => FixedBytes 16
  | .nonce => Nonce
  | .stamp => Nat

abbrev RootProg (α : Type) := ProcProg RootPath Unit VaultQuestion VaultQuestion.Ans OpenError α

/-- The machine of the root directory. -/
abbrev rootMachine (faulty : FsOp RootPath → Prop) :
    Machine (ProcOp RootPath Unit VaultQuestion) (ProcOp.Res VaultQuestion.Ans) OpenError
      (Proc RootPath Unit) :=
  Proc.machine VaultQuestion.Ans (fun kind => .store (.ofIo kind)) faulty fun _ _ => True

/-- The root directory of a store, what a stopped process has left in it, and whether something lies at
`metadata.db` or beside it. -/
structure StoreFiles where
  root : Proc RootPath Unit
  disk : Disk
  database : Bool

/-- What is done before `open_internal`: with the files of the root, and looks at what else is there. -/
inductive OpeningOp where
  | root (o : ProcOp RootPath Unit VaultQuestion)
  | segmentFiles (select : SegPath → Bool)
  | database
  | logLength

@[reducible] def OpeningOp.Res : OpeningOp → Type
  | .root o => ProcOp.Res VaultQuestion.Ans o
  | .segmentFiles _ => List SegPath
  | .database => Bool
  | .logLength => Option Nat

abbrev OpeningProg (α : Type) := Prog OpeningOp OpeningOp.Res OpenError α

/-- Which operations may fail: on the root directory, and looks at the others. -/
structure OpeningFaults where
  root : FsOp RootPath → Prop
  look : Prop

/-- Replace the root directory. -/
def StoreFiles.withRoot (s : StoreFiles) (root : Proc RootPath Unit) : StoreFiles := { s with root }

def openingMachine (f : OpeningFaults) : Machine OpeningOp OpeningOp.Res OpenError StoreFiles where
  step
    | .root o, s, r, s' => ∃ g, (rootMachine f.root).step o s.root r g ∧ s' = s.withRoot g
    | .segmentFiles select, s, r, s' =>
      s' = s ∧ (r = .ok (s.disk.segments.listing select) ∨ f.look ∧ ∃ e, r = .error e)
    | .database, s, r, s' => s' = s ∧ (r = .ok s.database ∨ f.look ∧ ∃ e, r = .error e)
    | .logLength, s, r, s' =>
      s' = s ∧ (r = .ok ((s.disk.wal.data .log).map List.length) ∨ f.look ∧ ∃ e, r = .error e)
  cut
    | .root o, s, s' => ∃ g, (rootMachine f.root).cut o s.root g ∧ s' = s.withRoot g
    | .segmentFiles _, _, _ | .database, _, _ | .logLength, _, _ => False

/-- The three ways to open a store. -/
inductive Opening where
  | «open»
  | withPassword (password : String)
  | initEncrypted (password : String)

/-- The password that is given. -/
def Opening.password? : Opening → Option String
  | .open => none
  | .withPassword password | .initEncrypted password => some password

namespace StoreFiles

def onRoot {α : Type} (p : RootProg α) : OpeningProg α := p.lift OpeningOp.root fun _ a => a

def segmentFiles (select : SegPath → Bool) : OpeningProg (List SegPath) :=
  @Prog.perform OpeningOp OpeningOp.Res OpenError (.segmentFiles select)

def somethingAtDatabase : OpeningProg Bool := @Prog.perform OpeningOp OpeningOp.Res OpenError .database

def logLength : OpeningProg (Option Nat) := @Prog.perform OpeningOp OpeningOp.Res OpenError .logLength

/-- `is_store_empty`. What cannot be looked at counts as nothing. -/
def isStoreEmpty : OpeningProg Bool := do
  let names ← Prog.handle (segmentFiles SegPath.isActive) fun _ => pure []
  if !names.isEmpty then return false
  let database ← Prog.handle somethingAtDatabase fun _ => pure false
  if database then return false
  let length ← Prog.handle logLength fun _ => pure none
  return length.all (· = 0)

/-- `write_vault_file_atomic`. -/
def writeVaultFileAtomic (bytes : Bytes) : RootProg Unit := do
  let stamp ← Proc.ask .stamp
  -- `create_new`
  if ← Proc.exists? (.tmp stamp) then throw (.store (.ofIo .other))
  Proc.create (.tmp stamp)
  Proc.write (.tmp stamp) bytes
  Proc.sync (.tmp stamp)
  Proc.rename (.tmp stamp) .vaultKey

/-- `Path::exists` of `vault.key`. -/
def vaultThere : OpeningProg Bool := Prog.handle (onRoot (Proc.exists? .vaultKey)) fun _ => pure false

variable (crates : VaultCrates) (root : String)

/-- A new master key, and its file. -/
def createVault (password : String) : RootProg VaultKey := do
  let masterKey ← Proc.ask .masterKey
  let salt ← Proc.ask .salt
  let nonce ← Proc.ask .nonce
  let bytes ← Prog.ofExcept (VaultKey.create crates password masterKey salt nonce)
  writeVaultFileAtomic bytes
  return masterKey

/-- The key that a store is opened with. -/
def openingKey : Opening → OpeningProg (Option VaultKey)
  | .open => do
    if ← vaultThere then throw (.store .passwordRequired)
    return none
  | .withPassword password => do
    if ← vaultThere then
      let bytes ← onRoot (Proc.read .vaultKey)
      let vk ← Prog.ofExcept (VaultKey.unlock crates password bytes)
      return some vk
    else
      if !(← isStoreEmpty) then
        throw (.store (.internal ("Cannot open existing unencrypted store at '" ++ root ++
          "' with --password: store already contains unencrypted data. Enabling encryption on an existing plaintext store without migration is prohibited.")))
      let vk ← onRoot (createVault crates password)
      return some vk
  | .initEncrypted password => do
    if ← vaultThere then
      throw (.store (.internal "Encrypted store already initialized (vault.key already exists)"))
    if !(← isStoreEmpty) then
      throw (.store (.internal ("Cannot initialize encryption at '" ++ root ++
        "': store already contains existing unencrypted data.")))
    let vk ← onRoot (createVault crates password)
    return some vk

end StoreFiles

/-! ## The life of a store -/

/-- A store: its root directory, whether an open has ever returned, so that `metadata.db` is there for
good, the key it was last opened with, and the run of the engine. -/
structure VaultRun where
  root : Fs RootPath
  initialized : Bool
  vaultKey : Option VaultKey
  engine : EngineRun

/-- What happens next: an attempt to open that is refused, or stopped before `open_internal`; one that
goes on with it; or a step of the engine, or a power cut. -/
inductive VaultAct where
  | refused (opening : Opening) (f : OpeningFaults)
  | stopped (opening : Opening) (f : OpeningFaults)
  | opens (opening : Opening) (f : OpeningFaults) (act : EngineAct)
  | engine (act : EngineAct)

namespace EngineAct

/-- What a step of the engine leaves of the root directory: the machine may stop in it. -/
def LeavesRoot : EngineAct → Fs RootPath → Fs RootPath → Prop
  | .openCrashed _, root, root' | .crashed _ _, root, root' | .powerCut, root, root' => root.PowerCut root'
  | .opened _, root, root' | .openFailed _, root, root' | .returned _ _, root, root' | .closed, root, root' =>
    root' = root

/-- An open that returns. -/
def isOpened : EngineAct → Bool
  | .opened _ => true
  | _ => false

end EngineAct

section Steps

variable (crates : VaultCrates) (root : String)

inductive VaultStep : VaultRun → VaultAct → VaultRun → Prop where
  | refused {run opening f d database e t} : run.engine.phase = .down d →
      (run.initialized = true → database = true) →
      Returns (openingMachine f) (StoreFiles.openingKey crates root opening) ⟨⟨run.root, ()⟩, d, database⟩
        (.error e) t →
      VaultStep run (.refused opening f) { run with root := t.root.fs }
  | stopped {run opening f d database t root' engine'} : run.engine.phase = .down d →
      (run.initialized = true → database = true) →
      Crashes (openingMachine f) (StoreFiles.openingKey crates root opening) ⟨⟨run.root, ()⟩, d, database⟩ t →
      t.root.fs.PowerCut root' → EngineStep (crates.env run.vaultKey) run.engine .powerCut engine' →
      VaultStep run (.stopped opening f) { run with root := root', engine := engine' }
  | opens {run opening f act d database key t root' engine'} : run.engine.phase = .down d →
      (run.initialized = true → database = true) → act ≠ .powerCut →
      Returns (openingMachine f) (StoreFiles.openingKey crates root opening) ⟨⟨run.root, ()⟩, d, database⟩
        (.ok key) t →
      EngineStep (crates.env key) run.engine act engine' → act.LeavesRoot t.root.fs root' →
      VaultStep run (.opens opening f act)
        ⟨root', run.initialized || act.isOpened, key, engine'⟩
  | engine {run act root' engine'} : (∃ s, run.engine.phase = .running s) ∨ act = .powerCut →
      EngineStep (crates.env run.vaultKey) run.engine act engine' → act.LeavesRoot run.root root' →
      VaultStep run (.engine act) { run with root := root', engine := engine' }

/-- An empty directory. -/
def VaultRun.new : VaultRun := ⟨⟨∅, fun _ => 0⟩, false, none, ⟨.down .new, ⟨∅, ∅, ∅⟩⟩⟩

/-- The runs from an empty directory whose steps all meet a condition. -/
inductive VaultReachable (allowed : VaultAct → Prop) : VaultRun → Prop where
  | start : VaultReachable allowed .new
  | step {run act run'} : VaultReachable allowed run → VaultStep crates root run act run' → allowed act →
      VaultReachable allowed run'

end Steps

end OosLite
