import OosLite.Metadata.Store

/-!
# Logical names

`validate_logical_name`, on a Unix host, and `update_watched_prefix`, which moves or unbinds the
names below one of them.
-/

namespace OosLite

/-- `std::path::Component`; there are no prefixes on Unix. -/
inductive Component where
  | rootDir
  | curDir
  | parentDir
  | normal (text : String)
  deriving DecidableEq

namespace Component

/-- A part between two separators; nothing and a dot are skipped. -/
def ofPart (part : String) : Option Component :=
  if part = "" ∨ part = "." then none
  else if part = ".." then some .parentDir
  else some (.normal part)

/-- `Path::components`. -/
def ofPath (path : String) : List Component :=
  let parts := Text.split '/' path
  let front :=
    if path = "" then []
    else match parts with
      | "" :: _ => [rootDir]
      | "." :: _ => [curDir]
      | _ => []
  front ++ parts.filterMap ofPart

def isNormal : Component → Bool
  | normal _ => true
  | _ => false

end Component

/-- `char::to_ascii_uppercase`. -/
def toAsciiUppercase (c : Char) : Char :=
  if 97 ≤ c.toNat ∧ c.toNat ≤ 122 then Char.ofNat (c.toNat - 32) else c

/-- The part of a file name before its first dot, in upper case. -/
def stem (text : String) : String :=
  String.ofList ((text.toList.takeWhile (· ≠ '.')).map toAsciiUppercase)

def dosDevices : List String :=
  ["CON", "PRN", "AUX", "NUL", "COM1", "COM2", "COM3", "COM4", "COM5", "COM6", "COM7", "COM8",
    "COM9", "LPT1", "LPT2", "LPT3", "LPT4", "LPT5", "LPT6", "LPT7", "LPT8", "LPT9"]

/-- The loop body of `validate_logical_name`. -/
def validateComponent (name : String) : Component → Result Unit
  | .parentDir => .error (.invalidName name "Relative parent traversal '..' not allowed")
  | .rootDir => .error (.invalidName name "Absolute paths not allowed in logical name")
  | .normal text =>
    if stem text ∈ dosDevices then
      .error (.invalidName name ("Reserved Windows device name '" ++ stem text ++
        "' not allowed in path components"))
    else .ok ()
  | .curDir => .ok ()

/-- The characters a name may not have. -/
def forbidden (c : Char) : Bool := c.toNat = 0 || c = '\r' || c = '\n' || c = ':'

/-- `validate_logical_name`. -/
def validateLogicalName (name : String) : Result Unit :=
  let trimmed := Text.trim name
  if trimmed = "" then
    .error (.invalidName name "Logical file name cannot be empty")
  else if trimmed = "." ∨ trimmed = ".." then
    .error (.invalidName name "Logical file name cannot be '.' or '..' directory reference")
  else if trimmed.toList.any forbidden then
    .error (.invalidName name "Logical file name cannot contain control characters or colons")
  else do
    (Component.ofPath trimmed).forM (validateComponent name)
    if (Component.ofPath trimmed).any Component.isNormal then return ()
    else throw (.invalidName name "Logical file name must contain at least one valid path component")

/-! ## The names below a prefix -/

/-- What is left of a name that is `source` or lies below it. -/
def suffixOf (source name : String) : Option String :=
  if source = "" then some name
  else if name = source then some ""
  else (Text.stripPrefix source name).bind (Text.stripPrefix "/")

/-- The name with that rest below another prefix. -/
def underPrefix (target suffix : String) : String :=
  if suffix = "" then target
  else if target = "" then suffix
  else target ++ "/" ++ suffix

section WatchedPrefix

variable (tracked : List String) (source : String) (target : Option String)
  (included : String → Bool)

/-- The new name of a name with this rest. -/
def movedName (suffix : String) : Option String :=
  (target.map fun t => underPrefix t suffix).filter included

/-- The loop body of `update_watched_prefix`: what becomes of a name, if anything. -/
def changeOf (name : String) : Option Change :=
  match suffixOf source name with
  | none => none
  | some suffix =>
    if target.isNone ∧ name ∉ tracked then none
    else some (name, movedName target included suffix)

/-- The new name of a change is checked. -/
def validateChange (change : Change) : Result Unit :=
  match change.2 with
  | some name => validateLogicalName name
  | none => .ok ()

/-- The loop of `update_watched_prefix`. -/
def collectChanges : List String → Result (List Change)
  | [] => .ok []
  | name :: rest =>
    match changeOf tracked source target included name with
    | none => collectChanges rest
    | some change => do
      validateChange change
      return change :: (← collectChanges rest)

end WatchedPrefix

/-- `update_watched_prefix`: the changes, and the tables with them. -/
def MetadataStore.updateWatchedPrefix (m : MetadataStore) (watchRoot source : String)
    (target : Option String) (included : String → Bool) : Result (List Change × MetadataStore) := do
  let named ← m.listNamedObjects
  let changes ← collectChanges (m.listWatcherFiles watchRoot) source target included
    (named.map Prod.fst)
  return (changes, m.updateWatcherBindings watchRoot changes)

end OosLite
