import OosLite.Object
import OosLite.Manifest
import OosLite.Snapshot

/-!
# The metadata store

`MetadataStore`: the tables of the metadata database, and what its methods read from them and do to
them. Every method is one transaction, so it happens at once or not at all; that a transaction may
fail is left to the programs that run the methods.
-/

namespace OosLite

/-- The tables. Names, labels and the keys of tracked files are text; a tracked file has an empty
value. -/
structure MetadataStore where
  names : Std.ExtTreeMap String Bytes
  objects : Std.ExtTreeMap ObjectId Bytes
  manifests : Std.ExtTreeMap String Bytes
  snapshots : Std.ExtTreeMap String Bytes
  watcherFiles : Std.ExtTreeMap String Bytes

/-- A name that the watcher moves or, without a new name, unbinds. -/
abbrev Change := String × Option String

namespace MetadataStore

/-- The tables of a new database. -/
def empty : MetadataStore := ⟨∅, ∅, ∅, ∅, ∅⟩

variable (m : MetadataStore)

/-! ## Names -/

/-- The object that a value of the name table stands for. -/
def objectIdOf (value : Bytes) : Option ObjectId :=
  if value.length = 16 then some (FixedBytes.ofBytes 16 value) else none

/-- `resolve_name`. -/
def resolveName (name : String) : Option ObjectId := m.names[name]?.bind objectIdOf

/-- `bind_name`. -/
def bindName (name : String) (id : ObjectId) : MetadataStore :=
  { m with names := m.names.insert name id.bytes }

/-- `unbind_name`. -/
def unbindName (name : String) : Option ObjectId × MetadataStore :=
  (m.resolveName name, { m with names := m.names.erase name })

/-- `rename_name_binding`. -/
def renameNameBinding (oldName newName : String) : Bool × MetadataStore :=
  match m.names[oldName]? with
  | some bytes => (true, { m with names := (m.names.erase oldName).insert newName bytes })
  | none => (false, m)

/-- `delete_named_object`. -/
def deleteNamedObject (name : String) : Option ObjectId × MetadataStore :=
  let names := m.names.erase name
  match m.resolveName name with
  | some id => (some id, { m with names, objects := m.objects.erase id })
  | none => (none, { m with names })

/-! ## Objects and manifests -/

/-- `get_object`. -/
def getObject (id : ObjectId) : Result (Option ObjectRecord) :=
  match m.objects[id]? with
  | some value => do return some (← ObjectRecord.fromBytes value)
  | none => .ok none

/-- `put_object`. -/
def putObject (record : ObjectRecord) : MetadataStore :=
  { m with objects := m.objects.insert record.objectId record.toBytes }

/-- The records that `visit_objects` visits. -/
def allObjects : Result (List ObjectRecord) :=
  m.objects.toList.mapM fun e => ObjectRecord.fromBytes e.2

/-- `save_manifest`. -/
def saveManifest (env : Env) (manifest : Manifest) : String × MetadataStore :=
  (manifest.contentId,
    { m with manifests := m.manifests.insert manifest.contentId (manifest.toBytes env) })

/-- `get_manifest`. -/
def getManifest (env : Env) (manifestId : String) : Result (Option Manifest) :=
  match m.manifests[manifestId]? with
  | some value => do return some (← Manifest.fromBytes env value)
  | none => .ok none

/-- `delete_manifest`. -/
def deleteManifest (manifestId : String) : MetadataStore :=
  { m with manifests := m.manifests.erase manifestId }

/-- `list_all_manifest_ids`. -/
def listAllManifestIds : List String := m.manifests.toList.map Prod.fst

/-- The names with the objects they are bound to, in the order of the table. -/
def boundNames : List (String × ObjectId) :=
  m.names.toList.filterMap fun e => (objectIdOf e.2).map fun id => (e.1, id)

/-- The loop of `list_named_objects`: an object without a record is left out. -/
def withRecords : List (String × ObjectId) → Result (List (String × ObjectId × ObjectRecord))
  | [] => .ok []
  | (name, id) :: rest => do
    match ← m.getObject id with
    | some record => return (name, id, record) :: (← withRecords rest)
    | none => withRecords rest

/-- `list_named_objects`. -/
def listNamedObjects : Result (List (String × ObjectId × ObjectRecord)) :=
  m.withRecords m.boundNames

/-! ## Snapshots -/

/-- `save_snapshot`. -/
def saveSnapshot (env : Env) (snapshot : Snapshot) : MetadataStore :=
  { m with snapshots := m.snapshots.insert snapshot.label (snapshot.toBytes env) }

/-- `get_snapshot`. -/
def getSnapshot (env : Env) (label : String) : Result (Option Snapshot) :=
  match m.snapshots[label]? with
  | some value => do return some (← Snapshot.fromBytes env value)
  | none => .ok none

/-- `list_snapshots`. -/
def listSnapshots (env : Env) : Result (List Snapshot) := do
  let results ← m.snapshots.toList.mapM fun e => Snapshot.fromBytes env e.2
  return results.mergeSort fun a b => a.createdAt ≤ b.createdAt

/-- `delete_snapshot`. -/
def deleteSnapshot (label : String) : Bool × MetadataStore :=
  (m.snapshots.contains label, { m with snapshots := m.snapshots.erase label })

/-! ## Files of a watched directory -/

/-- `watcher_file_prefix`. -/
def watcherFilePrefix (watchRoot : String) : String := watchRoot ++ "\x00"

/-- `watcher_file_key`. -/
def watcherFileKey (watchRoot logicalName : String) : String :=
  watcherFilePrefix watchRoot ++ logicalName

/-- `mark_watcher_file`. -/
def markWatcherFile (watchRoot logicalName : String) : MetadataStore :=
  { m with watcherFiles := m.watcherFiles.insert (watcherFileKey watchRoot logicalName) [] }

/-- `list_watcher_files`. Keys with one prefix follow each other in the table. -/
def listWatcherFiles (watchRoot : String) : List String :=
  m.watcherFiles.toList.filterMap fun e => Text.stripPrefix (watcherFilePrefix watchRoot) e.1

/-- The first loop of `update_watcher_bindings`: take the old names out. -/
def takeBindings (watchRoot : String) :
    MetadataStore → List Change → MetadataStore × List (Option String × Bytes)
  | m, [] => (m, [])
  | m, (old, new) :: rest =>
    let taken := takeBindings watchRoot
      { m with names := m.names.erase old
               watcherFiles := m.watcherFiles.erase (watcherFileKey watchRoot old) } rest
    (taken.1, (m.names[old]?.map fun id => (new, id)).toList ++ taken.2)

/-- The second loop of `update_watcher_bindings`: put the new names in. -/
def setBindings (watchRoot : String) :
    MetadataStore → List (Option String × Bytes) → MetadataStore
  | m, [] => m
  | m, (none, _) :: rest => setBindings watchRoot m rest
  | m, (some new, id) :: rest =>
    setBindings watchRoot
      { m with names := m.names.insert new id
               watcherFiles := m.watcherFiles.insert (watcherFileKey watchRoot new) [] } rest

/-- `update_watcher_bindings`. -/
def updateWatcherBindings (watchRoot : String) (changes : List Change) : MetadataStore :=
  let taken := takeBindings watchRoot m changes
  setBindings watchRoot taken.1 taken.2

end MetadataStore

end OosLite
