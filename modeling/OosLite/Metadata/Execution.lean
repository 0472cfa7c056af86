import OosLite.Lib.Execution
import OosLite.Metadata.Proofs.MigrationFiles

/-!
# Running a migration

A format of files for databases, and one of the runs of a program of the migration with it, computed:
nothing fails in it, and it may be stopped.
-/

namespace OosLite

open Files Effect

/-! ## Files of databases -/

namespace RedbFormat

/-- A text: its bytes, each behind a one, and a zero. -/
def writeText : Bytes → Bytes
  | [] => [0]
  | byte :: text => 1 :: byte :: writeText text

def readText : Bytes → Option (Bytes × Bytes)
  | 0 :: rest => some ([], rest)
  | _ :: byte :: rest => (readText rest).map fun (text, rest) => (byte :: text, rest)
  | _ => none

theorem readText_writeText (text rest : Bytes) : readText (writeText text ++ rest) = some (text, rest) := by
  induction text with
  | nil => rfl
  | cons byte text ih =>
    show (readText (writeText text ++ rest)).map _ = _
    rw [ih]
    rfl

def writeEntries : List (Bytes × Bytes) → Bytes
  | [] => [0]
  | (key, value) :: entries => 1 :: (writeText key ++ (writeText value ++ writeEntries entries))

/-- So many entries at most. -/
def readEntries : Nat → Bytes → Option (List (Bytes × Bytes) × Bytes)
  | _ + 1, 0 :: rest => some ([], rest)
  | fuel + 1, _ :: bytes => do
    let (key, bytes) ← readText bytes
    let (value, bytes) ← readText bytes
    let (entries, rest) ← readEntries fuel bytes
    return ((key, value) :: entries, rest)
  | _, _ => none

theorem readEntries_writeEntries (entries : List (Bytes × Bytes)) (rest : Bytes) {fuel : Nat}
    (enough : entries.length < fuel) :
    readEntries fuel (writeEntries entries ++ rest) = some (entries, rest) := by
  induction entries generalizing fuel with
  | nil =>
    obtain ⟨fuel, rfl⟩ := Nat.exists_eq_succ_of_ne_zero (Nat.ne_of_gt enough)
    rfl
  | cons entry entries ih =>
    obtain ⟨fuel, rfl⟩ := Nat.exists_eq_succ_of_ne_zero (Nat.ne_zero_of_lt enough)
    obtain ⟨key, value⟩ := entry
    have first := readText_writeText key (writeText value ++ (writeEntries entries ++ rest))
    have second := readText_writeText value (writeEntries entries ++ rest)
    have others := ih (Nat.lt_of_succ_lt_succ enough)
    rw [writeEntries, List.cons_append, List.append_assoc, List.append_assoc]
    simp [readEntries, first, second, others]

def writeTable : Option Table → Bytes
  | none => [0]
  | some table => 1 :: writeEntries table.toList

def readTable (fuel : Nat) : Bytes → Option (Option Table × Bytes)
  | 0 :: rest => some (none, rest)
  | _ :: bytes => (readEntries fuel bytes).map fun (entries, rest) =>
      (some (entries.foldl (fun table entry => table.insert entry.1 entry.2) ∅), rest)
  | [] => none

theorem length_entries_lt (entries : List (Bytes × Bytes)) :
    entries.length < (writeEntries entries).length := by
  induction entries with
  | nil => exact Nat.zero_lt_one
  | cons entry entries ih =>
    rw [writeEntries, List.length_cons, List.length_cons, List.length_append, List.length_append]
    omega

theorem readTable_writeTable (table : Option Table) (rest : Bytes) {fuel : Nat}
    (enough : (writeTable table).length ≤ fuel) :
    readTable fuel (writeTable table ++ rest) = some (table, rest) := by
  cases table with
  | none => rfl
  | some table =>
    have fits : table.toList.length < fuel := by
      have := length_entries_lt table.toList
      rw [writeTable, List.length_cons] at enough
      omega
    show (readEntries fuel (writeEntries table.toList ++ rest)).map _ = _
    rw [readEntries_writeEntries _ _ fits]
    exact congrArg (fun t => some (some t, rest)) (Migration.copyLegacyTree_empty table)

/-- The file of a database: its tables in their order. -/
def write (db : Database) : Bytes := TableName.all.flatMap fun name => writeTable (db name)

def readTables (fuel : Nat) : List TableName → Bytes → Option Database
  | [], [] => some fun _ => none
  | [], _ => none
  | name :: names, bytes => do
    let (table, rest) ← readTable fuel bytes
    let db ← readTables fuel names rest
    return fun other => if other = name then table else db other

def read (bytes : Bytes) : Option Database := readTables bytes.length TableName.all bytes

theorem readTables_write {db : Database} {fuel : Nat} {names : List TableName}
    (enough : (names.flatMap fun name => writeTable (db name)).length ≤ fuel) :
    readTables fuel names (names.flatMap fun name => writeTable (db name)) =
      some fun name => if name ∈ names then db name else none := by
  induction names with
  | nil => rfl
  | cons name names ih =>
    rw [List.flatMap_cons, List.length_append] at enough
    rw [List.flatMap_cons, readTables, readTable_writeTable _ _ (by omega), Option.bind_eq_bind,
      Option.bind_some]
    simp only
    rw [ih (by omega)]
    show some _ = some _
    congr 1
    funext other
    by_cases same : other = name
    · simp [same]
    · simp [same]

theorem read_write (db : Database) : read (write db) = some db := by
  have all : ∀ name, name ∈ TableName.all := by
    intro name
    cases name <;> decide
  rw [read, write, readTables_write (Nat.le_refl _)]
  simp [all]

end RedbFormat

/-- The databases with this format, for a sled that is given. -/
def Backends.formatted (sled : (Path → Option Bytes) → Option SledDb) : Backends :=
  ⟨RedbFormat.read, sled⟩

namespace Migration

variable (sled : (Path → Option Bytes) → Option SledDb) {α : Type}

/-- A file with these tables. -/
def store (d : MetadataDisk) (p : Path) (t : Database) : MetadataDisk :=
  { d with fs := d.fs.put p ⟨RedbFormat.write t, RedbFormat.write t⟩ }

/-- The tables of a file, changed and written again. -/
def rewrite (d : MetadataDisk) (p : Path) (write : Database → Database) :
    Except OosLiteError Unit × MetadataDisk :=
  match (Backends.formatted sled).tablesAt d.fs p with
  | some t => (.ok (), store d p (write t))
  | none => (.error (.redb ""), d)

/-- What one operation answers and leaves when nothing fails. -/
def respond : (o : MigrationOp) → MetadataDisk → Except OosLiteError o.Res × MetadataDisk
  | .files o, d =>
    let r := Proc.respond OosLiteError.ofIo (fun _ => false) nofun none o d.files
    (r.1, d.setFiles r.2)
  | .createDatabase p, d =>
    if d.fs.data p = none ∨ d.fs.data p = some [] then (.ok (), store d p fun _ => none)
    else rewrite sled d p id
  | .openDatabase p, d => rewrite sled d p id
  | .readTables p, d =>
    (match (Backends.formatted sled).tablesAt d.fs p with
      | some t => .ok t
      | none => .error (.redb ""), d)
  | .commit p write, d => rewrite sled d p write
  | .openSled p, d =>
    (match sled (Backends.view d.fs p) with
      | some trees => .ok trees
      | none => .error (.internal ""), { d with imports := d.imports + 1 })

theorem rewritten (p : Path) (t : Database) (fs : Fs Path) : (Backends.formatted sled).Rewrites p t fs
    (fs.put p ⟨RedbFormat.write t, RedbFormat.write t⟩) :=
  ⟨_, rfl, RedbFormat.read_write t⟩

theorem step_respond (o : MigrationOp) (d : MetadataDisk) :
    (Backends.formatted sled).machine.step o d (respond sled o d).1 (respond sled o d).2 := by
  cases o with
  | files o =>
    have step : (Proc.machine NoAnswer OosLiteError.ofIo (fun _ => false = true) fun _ _ => True).step
        o d.files (Proc.respond OosLiteError.ofIo (fun _ => false) nofun none o d.files).1
        (Proc.respond OosLiteError.ofIo (fun _ => false) nofun none o d.files).2 :=
      Proc.step_respond (fun q => nomatch q) none o d.files
    exact ⟨_, (Proc.machine_le _ _ _ _ fun _ fails => nomatch fails).step o _ _ _ step, rfl⟩
  | createDatabase p =>
    refine .inl ?_
    simp only [Backends.Done, respond]
    split
    · exact ⟨rfl, _, rfl, RedbFormat.read_write fun _ => none⟩
    · unfold rewrite
      cases tables : (Backends.formatted sled).tablesAt d.fs p with
      | none => exact ⟨rfl, rfl⟩
      | some t => exact ⟨rfl, _, rewritten sled p t d.fs, rfl⟩
  | openDatabase p | commit p write =>
    refine .inl ?_
    simp only [Backends.Done, respond, rewrite]
    cases tables : (Backends.formatted sled).tablesAt d.fs p with
    | none => exact ⟨rfl, rfl⟩
    | some t => exact ⟨rfl, _, rewritten sled p _ d.fs, rfl⟩
  | readTables p =>
    cases tables : (Backends.formatted sled).tablesAt d.fs p with
    | none => exact .inl ⟨rfl, by simp only [respond, tables]⟩
    | some t => exact .inl ⟨rfl, by simp only [respond, tables]⟩
  | openSled p =>
    cases trees : sled (Backends.view d.fs p) with
    | none => exact .inl ⟨rfl, fun _ _ => rfl, by simp only [respond, Backends.formatted, trees]⟩
    | some t => exact .inl ⟨rfl, fun _ _ => rfl, by simp only [respond, Backends.formatted, trees]⟩

/-- The run in which nothing fails. -/
def exec : MigrationProg α → MetadataDisk → Except OosLiteError α × MetadataDisk
  | .pure a, d => (.ok a, d)
  | .throw e, d => (.error e, d)
  | .op o k, d => exec (k (respond sled o d).1) (respond sled o d).2

theorem returns_exec (p : MigrationProg α) (d : MetadataDisk) :
    Returns (Backends.formatted sled).machine p d (exec sled p d).1 (exec sled p d).2 := by
  induction p generalizing d with
  | pure a => exact .pure a d
  | throw e => exact .throw e d
  | op o k ih => exact .op (step_respond sled o d) (ih _ _)

/-- The run in which nothing fails, as far as the first of these file operations, in which the machine
stops. -/
def halt (stops : FsOp Path → Bool) : MigrationProg α → MetadataDisk → Option MetadataDisk
  | .pure _, _ => none
  | .throw _, _ => none
  | .op (.files (.file o)) k, d =>
    if stops o then (Proc.halted d.fs o 0).map fun fs => { d with fs }
    else halt stops (k (respond sled (.files (.file o)) d).1) (respond sled (.files (.file o)) d).2
  | .op o k, d => halt stops (k (respond sled o d).1) (respond sled o d).2

theorem crashes_halt {stops : FsOp Path → Bool} {p : MigrationProg α} {d d' : MetadataDisk}
    (h : halt sled stops p d = some d') : Crashes (Backends.formatted sled).machine p d d' := by
  induction p generalizing d with
  | pure a => cases h
  | throw e => cases h
  | op o k ih =>
    have later (h : halt sled stops (k (respond sled o d).1) (respond sled o d).2 = some d') :
        Crashes (Backends.formatted sled).machine (.op o k) d d' :=
      .later (step_respond sled o d) (ih _ h)
    cases o with
    | files o =>
      cases o with
      | file o =>
        rw [halt] at h
        split at h
        · obtain ⟨fs, cut, rfl⟩ := Option.map_eq_some_iff.1 h
          exact .here ⟨⟨fs, ()⟩, ⟨rfl, Proc.cut_halted cut⟩, rfl⟩
        · exact later h
      | load | save m | ask q => exact later h
    | createDatabase p | openDatabase p | readTables p | commit p write | openSled p => exact later h

end Migration

end OosLite
