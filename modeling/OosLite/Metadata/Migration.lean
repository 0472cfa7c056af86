import OosLite.Error
import OosLite.Lib.Process
import OosLite.Lib.Text

/-!
# Opening the metadata

`migration::open`: the files around `metadata.db`, the two databases that keep them, and the
programs that get from a sled directory to a published redb database.
-/

namespace OosLite

open Files Effect

abbrev Path := List String

/-- `sibling`: the same directory, the name with a suffix. -/
def sibling (path : Path) (suffix : String) : Path :=
  path.dropLast ++ [path.getLastD "" ++ suffix]

inductive TableName where
  | nameIndex
  | objectIndex
  | manifests
  | snapshots
  | watcherFiles
  | watcherConfig
  deriving DecidableEq

/-- The tables in the order in which they are opened. -/
def TableName.all : List TableName :=
  [.nameIndex, .objectIndex, .manifests, .snapshots, .watcherFiles, .watcherConfig]

abbrev Table := Std.ExtTreeMap Bytes Bytes

/-- A redb database: the tables it has. -/
abbrev Database := TableName → Option Table

/-- The trees of a sled database; opening one that is not there makes it. -/
abbrev SledDb := TableName → Table

/-- The two databases: what each finds in its files, and nothing where it refuses them. Sled is
given the files of its directory by their paths in it. -/
structure Backends where
  redb : Bytes → Option Database
  sled : (Path → Option Bytes) → Option SledDb

/-! ## What happens to the disk -/

abbrev NoAnswer : Empty → Type := nofun

/-- Programs that only work on files. -/
abbrev FileProg (α : Type) := ProcProg Path Unit Empty NoAnswer OosLiteError α

inductive MigrationOp where
  | files (o : ProcOp Path Unit Empty)
  | createDatabase (p : Path)
  | openDatabase (p : Path)
  | readTables (p : Path)
  | commit (p : Path) (write : Database → Database)
  | openSled (p : Path)

@[reducible] def MigrationOp.Res : MigrationOp → Type
  | .files o => ProcOp.Res NoAnswer o
  | .createDatabase _ | .openDatabase _ | .commit .. => Unit
  | .readTables _ => Database
  | .openSled _ => SledDb

abbrev MigrationProg (α : Type) := Prog MigrationOp MigrationOp.Res OosLiteError α

/-- The disk, and how often the trees of a sled directory were opened. -/
structure MetadataDisk where
  fs : Fs Path
  imports : Nat

namespace MetadataDisk

def files (d : MetadataDisk) : Proc Path Unit := ⟨d.fs, ()⟩

def setFiles (d : MetadataDisk) (a : Proc Path Unit) : MetadataDisk := { d with fs := a.fs }

end MetadataDisk

/-- The file operations that may fail. That something is there, and what is in a directory, is
always answered. -/
def mayFail : FsOp Path → Prop
  | .exists _ | .list _ => False
  | _ => True

namespace Backends

variable (b : Backends)

/-- The tables in a file, if there is one and redb accepts it. -/
def tablesAt (fs : Fs Path) (p : Path) : Option Database := (fs.data p).bind b.redb

/-- A file that holds the given tables for certain. -/
def Holds (fs : Fs Path) (p : Path) (t : Database) : Prop :=
  ∃ bytes, fs.file p = some ⟨bytes, bytes⟩ ∧ b.redb bytes = some t

/-- The file of a database was rewritten, and now holds these tables. -/
def Rewrites (p : Path) (t : Database) (fs fs' : Fs Path) : Prop :=
  ∃ bytes, fs' = fs.put p ⟨bytes, bytes⟩ ∧ b.redb bytes = some t

variable {b} in
theorem Rewrites.sameBut {p : Path} {t : Database} {fs fs' : Fs Path}
    (h : b.Rewrites p t fs fs') : Fs.SameBut (· = p) fs fs' := by
  obtain ⟨bytes, rfl, -⟩ := h
  exact Fs.sameBut_put _ rfl

variable {b} in
theorem Rewrites.holds {p : Path} {t : Database} {fs fs' : Fs Path}
    (h : b.Rewrites p t fs fs') : b.Holds fs' p t := by
  obtain ⟨bytes, rfl, tables⟩ := h
  exact ⟨bytes, by simp, tables⟩

variable {b} in
theorem Holds.tablesAt {p : Path} {t : Database} {fs : Fs Path} (h : b.Holds fs p t) :
    b.tablesAt fs p = some t := by
  obtain ⟨bytes, there, tables⟩ := h
  rw [Backends.tablesAt, Fs.data, there]
  exact tables

variable {b} in
theorem Holds.congr {p q : Path} {t : Database} {fs fs' : Fs Path} (h : b.Holds fs p t)
    (same : fs'.file q = fs.file p) : b.Holds fs' q t := by
  obtain ⟨bytes, there, tables⟩ := h
  exact ⟨bytes, same.trans there, tables⟩

/-- The files of a directory by their paths in it. -/
def view (fs : Fs Path) (p : Path) : Path → Option Bytes := fun rest => fs.data (p ++ rest)

/-- An operation of one of the databases that runs to its end. A database is transactional: its
tables change at once, and what is committed is on the medium. -/
def Done (d : MetadataDisk) : (o : MigrationOp) → Except OosLiteError o.Res → MetadataDisk → Prop
  | .files _, _, _ => False
  | .createDatabase p, r, d' =>
    if d.fs.data p = none ∨ d.fs.data p = some [] then
      r = .ok () ∧ ∃ file, d' = { d with fs := d.fs.put p file } ∧ b.redb file.data = some fun _ => none
    else match b.tablesAt d.fs p with
      | some t => r = .ok () ∧ ∃ fs, b.Rewrites p t d.fs fs ∧ d' = { d with fs }
      | none => r = .error (.redb "") ∧ d' = d
  | .openDatabase p, r, d' =>
    match b.tablesAt d.fs p with
    | some t => r = .ok () ∧ ∃ fs, b.Rewrites p t d.fs fs ∧ d' = { d with fs }
    | none => r = .error (.redb "") ∧ d' = d
  | .readTables p, r, d' =>
    d' = d ∧ r = match b.tablesAt d.fs p with
      | some t => .ok t
      | none => .error (.redb "")
  | .commit p write, r, d' =>
    match b.tablesAt d.fs p with
    | some t => r = .ok () ∧ ∃ fs, b.Rewrites p (write t) d.fs fs ∧ d' = { d with fs }
    | none => r = .error (.redb "") ∧ d' = d
  | .openSled p, r, d' =>
    d'.imports = d.imports + 1 ∧
      (∀ q, ¬ p <+: q → d'.fs.file q = d.fs.file q) ∧ r = match b.sled (view d.fs p) with
        | some trees => .ok trees
        | none => .error (.internal "")

/-- What an operation of a database may have done when the machine stops in it, or when it fails. -/
def Cut (d : MetadataDisk) : MigrationOp → MetadataDisk → Prop
  | .files _, _ => False
  | .createDatabase p, d' =>
    if d.fs.data p = none ∨ d.fs.data p = some [] then
      d' = d ∨ ∃ file, d' = { d with fs := d.fs.put p file }
    else d' = d ∨ ∃ t fs, b.tablesAt d.fs p = some t ∧ b.Rewrites p t d.fs fs ∧ d' = { d with fs }
  | .openDatabase p, d' =>
    d' = d ∨ ∃ t fs, b.tablesAt d.fs p = some t ∧ b.Rewrites p t d.fs fs ∧ d' = { d with fs }
  | .readTables _, d' => d' = d
  | .commit p write, d' =>
    d' = d ∨ ∃ t fs, b.tablesAt d.fs p = some t ∧
      (b.Rewrites p t d.fs fs ∨ b.Rewrites p (write t) d.fs fs) ∧ d' = { d with fs }
  | .openSled p, d' =>
    d'.imports = d.imports + 1 ∧ ∀ q, ¬ p <+: q → d'.fs.file q = d.fs.file q

/-- The machine of a migration. -/
def machine : Machine MigrationOp MigrationOp.Res OosLiteError MetadataDisk where
  step
    | .files o, d, r, d' => ∃ a, (Proc.machine NoAnswer OosLiteError.ofIo mayFail fun _ _ => True).step o
        d.files r a ∧ d' = d.setFiles a
    | o, d, r, d' => b.Done d o r d' ∨ (∃ e, r = .error e) ∧ b.Cut d o d'
  cut
    | .files o, d, d' => ∃ a, (Proc.machine NoAnswer OosLiteError.ofIo mayFail fun _ _ => True).cut o
        d.files a ∧ d' = d.setFiles a
    | o, d, d' => b.Cut d o d'

end Backends

/-! ## The programs -/

namespace Migration

def migrationMarker : Bytes := Text.utf8 "__oos_lite_metadata_backend"
def migrationVersion : Bytes := Text.utf8 "redb-v1"
def blocker : Bytes := Text.utf8 "OOS-Lite redb: opening this metadata with sled is prohibited\n"

/-- `failure`. -/
def failure (message : String) : OosLiteError := .internal message

/-- Run a program on the files. -/
def onFiles {α : Type} (p : FileProg α) : MigrationProg α := p.lift .files fun _ r => r

def createDatabase (p : Path) : MigrationProg Unit :=
  @Prog.perform MigrationOp MigrationOp.Res OosLiteError (.createDatabase p)
def openDatabase (p : Path) : MigrationProg Unit :=
  @Prog.perform MigrationOp MigrationOp.Res OosLiteError (.openDatabase p)
def readTables (p : Path) : MigrationProg Database :=
  @Prog.perform MigrationOp MigrationOp.Res OosLiteError (.readTables p)
def commit (p : Path) (write : Database → Database) : MigrationProg Unit :=
  @Prog.perform MigrationOp MigrationOp.Res OosLiteError (.commit p write)
def openSled (p : Path) : MigrationProg SledDb :=
  @Prog.perform MigrationOp MigrationOp.Res OosLiteError (.openSled p)

/-- `publish`: the rename is on the medium when it returns. -/
def publish (source destination : Path) : FileProg Unit := Proc.rename source destination

/-- `write_marker`. -/
def writeMarker (path : Path) (bytes : Bytes) : FileProg Unit := do
  let temporary := sibling path ".tmp"
  Proc.truncate temporary
  Proc.write temporary bytes
  Proc.sync temporary
  publish temporary path

/-- `check_marker`. -/
def checkMarker (path : Path) : FileProg Bool := do
  match ← @Prog.attempt (ProcOp Path Unit Empty) (ProcOp.Res NoAnswer) OosLiteError
      (.file (.read path)) with
  | .ok bytes =>
    if bytes = migrationVersion then return true
    else throw (failure ("Unsupported or corrupt migration state: " ++ "/".intercalate path))
  | .error (.io .notFound _) => return false
  | .error e => throw e

/-- `exists` of a path that may be a directory: there is a file at it or below. -/
def isThere (path : Path) : FileProg Bool := do
  let below ← Proc.list fun p => path.isPrefixOf p
  return ! below.isEmpty

/-- `block_sled`. -/
def blockSled (directory : Path) : FileProg Unit := do
  let conf := directory ++ ["conf"]
  let backup := directory ++ ["conf.sled-backup"]
  if ← Proc.exists? conf then
    let bytes ← Proc.read conf
    if bytes = blocker then return ()
    -- the original settings are kept before the blocker takes their place
    writeMarker backup bytes
  else if ← Proc.exists? (directory ++ ["db"]) then
    if !(← Proc.exists? backup) then
      throw (failure "Legacy sled configuration is missing; refusing migration")
  writeMarker conf blocker

/-- What `legacy_copy` copies of a sled directory: `db`, what is in `blobs`, and the `snap.*`. -/
def copied : Path → Bool
  | name :: _ => name = "db" || name = "blobs" || "snap.".toList.isPrefixOf name.toList
  | [] => false

/-- `fs::copy`. -/
def copyFile (source destination : Path) : FileProg Unit := do
  let bytes ← Proc.read source
  Proc.truncate destination
  Proc.write destination bytes

/-- The part of `legacy_copy` that makes the copy. -/
def makeCopy (directory : Path) : FileProg Unit := do
  let copy := directory ++ [".redb-sled-import"]
  Proc.removeAll fun p => copy.isPrefixOf p
  copyFile (directory ++ ["conf.sled-backup"]) (copy ++ ["conf"])
  let entries ← Proc.list fun p => directory.isPrefixOf p && copied (p.drop directory.length)
  Prog.forEach (fun _ p => copyFile p (copy ++ p.drop directory.length)) () entries

/-- `legacy_copy`. -/
def legacyCopy (directory : Path) : MigrationProg (Option SledDb) := do
  if !(← onFiles (Proc.exists? (directory ++ ["db"]))) then return none
  onFiles (makeCopy directory)
  return some (← openSled (directory ++ [".redb-sled-import"]))

/-- `copy_legacy_tree`. -/
def copyLegacyTree (legacy target : Table) : Table :=
  legacy.toList.foldl (fun table item => table.insert item.1 item.2) target

/-- The transaction of `initialize_database`. -/
def initializeDatabase (legacy : Option SledDb) (db : Database) : Database := fun name =>
  let opened := (db name).getD ∅
  let filled := match legacy with
    | some trees => copyLegacyTree (trees name) opened
    | none => opened
  some (if name = .watcherConfig then filled.insert migrationMarker migrationVersion else filled)

/-- What `validate_database` asks of the tables. -/
def validate (db : Database) : Result Unit := do
  for name in TableName.all do
    if (db name).isNone then throw (.redb "")
  match ((db .watcherConfig).getD ∅)[migrationMarker]? with
  | some value =>
    if value = migrationVersion then .ok ()
    else .error (.internal s!"Unsupported metadata backend version: {Text.fromUtf8Lossy value}")
  | none =>
    .error (.internal "Metadata database has no migration marker; refusing to overwrite it")

/-- `validate_database`. -/
def validateDatabase (p : Path) : MigrationProg Unit := do
  Prog.ofExcept (validate (← readTables p))

/-- The end of `migration::open`: the database is built, and then published. -/
def build (input : Path) : MigrationProg Path := do
  let active := input ++ ["metadata.redb"]
  let staging := input ++ ["metadata.redb.staging"]
  let committed := input ++ [".redb-active"]
  onFiles (blockSled input)
  -- nothing is published, so a database that was not finished is built again
  onFiles do if ← Proc.exists? staging then Proc.remove staging
  let legacy ← legacyCopy input
  createDatabase staging
  commit staging (initializeDatabase legacy)
  validateDatabase staging
  onFiles (Proc.sync staging)
  -- the intent is on the medium before the database is published
  onFiles (writeMarker committed migrationVersion)
  onFiles (publish staging active)
  openDatabase active
  return active

/-- The part of `migration::open` that makes sure of the `.redb-migrating` marker. -/
def startMigrating (input : Path) : FileProg Unit := do
  let migrating := input ++ [".redb-migrating"]
  if !(← checkMarker migrating) then
    if (← Proc.exists? (input ++ ["metadata.redb.staging"])) ||
        (← isThere (input ++ ["metadata.redb.corrupt"])) then
      throw (failure "Untracked metadata artifacts; refusing automatic migration")
    writeMarker migrating migrationVersion

/-- The part of `migration::open` that publishes a database whose publication was interrupted. -/
def resume (input : Path) : MigrationProg Unit := do
  let active := input ++ ["metadata.redb"]
  let staging := input ++ ["metadata.redb.staging"]
  if !(← onFiles (Proc.exists? active)) && (← onFiles (Proc.exists? staging)) then
    openDatabase staging
    validateDatabase staging
    onFiles (publish staging active)

/-- `migration::open` for a path that is a directory. -/
def openNested (input : Path) : MigrationProg Path := do
  let active := input ++ ["metadata.redb"]
  let committed := input ++ [".redb-active"]
  if ← onFiles (checkMarker committed) then
    resume input
    openDatabase active
    validateDatabase active
    onFiles (blockSled input)
    return active
  if ← onFiles (Proc.exists? active) then
    openDatabase active
    validateDatabase active
    onFiles (blockSled input)
    onFiles (writeMarker committed migrationVersion)
    return active
  onFiles (startMigrating input)
  build input

/-- `migration::open`: the path of the database that is open. -/
def «open» (input : Path) : MigrationProg Path := do
  onFiles (Proc.create (sibling input ".open.lock"))
  let fileState := sibling input ".redb-active"
  -- the layout in which the database is the file itself
  if (← onFiles (Proc.exists? input)) || (← onFiles (Proc.exists? fileState)) then
    openDatabase input
    validateDatabase input
    if !(← onFiles (checkMarker fileState)) then onFiles (writeMarker fileState migrationVersion)
    return input
  if ← onFiles (isThere (sibling input ".sled")) then
    throw (failure "Ambiguous legacy migration archive: active metadata is missing or incomplete; manual recovery is required")
  openNested input

/-! ## The life of a directory -/

/-- The trees of a sled database in the tables of a new one. -/
def migrated (trees : SledDb) : Database := fun name =>
  some (if name = .watcherConfig then (trees name).insert migrationMarker migrationVersion
    else trees name)

/-- The files that sled reads: its settings, and what is copied. -/
def sledFiles (fs : Fs Path) (input : Path) : Path → Option Bytes := fun rest =>
  if rest = ["conf"] || copied rest then fs.data (input ++ rest) else none

/-- A directory that only sled has worked on, with its settings and its trees. -/
structure IsLegacy (b : Backends) (input : Path) (fs : Fs Path) (settings : Bytes)
    (trees : SledDb) : Prop where
  named : input ≠ []
  settled : ∀ p f, fs.file p = some f → f.Synced
  directory : fs.file input = none
  noArchive : ∀ p, sibling input ".sled" <+: p → fs.file p = none
  noState : fs.file (sibling input ".redb-active") = none
  conf : fs.data (input ++ ["conf"]) = some settings
  accessible : settings ≠ blocker
  db : fs.file (input ++ ["db"]) ≠ none
  contents : b.sled (sledFiles fs input) = some trees
  new : ∀ name ∈ ["conf.sled-backup", "metadata.redb", "metadata.redb.staging", ".redb-active",
    ".redb-migrating"], fs.file (input ++ [name]) = none

/-- A directory over time: the disk, the database that is open, what was written to it, and whether
nobody else has touched it. -/
structure Life where
  disk : MetadataDisk
  db : Option Path
  writes : List (Database → Database)
  intact : Bool

/-- Replace or remove a file. -/
def overwrite (fs : Fs Path) (p : Path) : Option File → Fs Path
  | some f => fs.put p f
  | none => fs.drop p

/-- One step: the directory is opened, that is refused or stopped, a transaction is committed, the
store is closed, the power fails, or the published database is damaged or lost. -/
inductive LifeStep (b : Backends) (input : Path) : Life → Life → Prop
  | opened {d d' w i p} (run : Returns b.machine («open» input) d (.ok p) d') :
      LifeStep b input ⟨d, none, w, i⟩ ⟨d', some p, w, i⟩
  | refused {d d' w i e} (run : Returns b.machine («open» input) d (.error e) d') :
      LifeStep b input ⟨d, none, w, i⟩ ⟨d', none, w, i⟩
  | stopped {d d' fs w i} (run : Crashes b.machine («open» input) d d') (cut : d'.fs.PowerCut fs) :
      LifeStep b input ⟨d, none, w, i⟩ ⟨{ d' with fs }, none, w, i⟩
  | wrote {d : MetadataDisk} {p w i t fs} (write : Database → Database)
      (before : b.tablesAt d.fs p = some t) (after : b.Rewrites p (write t) d.fs fs) :
      LifeStep b input ⟨d, some p, w, i⟩ ⟨{ d with fs }, some p, w ++ [write], i⟩
  | closed {d db w i} : LifeStep b input ⟨d, db, w, i⟩ ⟨d, none, w, i⟩
  | powerCut {d : MetadataDisk} {db w i fs} (cut : d.fs.PowerCut fs) :
      LifeStep b input ⟨d, db, w, i⟩ ⟨{ d with fs }, none, w, i⟩
  | damaged {d : MetadataDisk} {w i} (file : Option File)
      (published : d.fs.file (input ++ ["metadata.redb"]) ≠ none) :
      LifeStep b input ⟨d, none, w, i⟩
        ⟨{ d with fs := overwrite d.fs (input ++ ["metadata.redb"]) file }, none, w, false⟩

/-- A directory that is about to be opened for the first time. -/
def Life.start (fs : Fs Path) : Life := ⟨⟨fs, 0⟩, none, [], true⟩

/-- What a store that is open has, or would have: the trees, and all that was written since. -/
def Life.expected (s : Life) (trees : SledDb) : Database :=
  s.writes.foldl (fun tables write => write tables) (migrated trees)

end Migration

end OosLite
