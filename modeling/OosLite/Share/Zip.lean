import OosLite.Watcher.Paths

/-!
# Shared folders

The names that `ShareManager::start_public_server` gives the entries of the archive of a shared
folder, and where an entry comes to lie when the archive is extracted.
-/

namespace OosLite

/-- The path of a share, its separators normalised. -/
def cleanPath (path : String) : String := Text.trimMatches '/' (withSlashes path)

def folderPrefix (path : String) : String := cleanPath path ++ "/"

/-- Whether a file belongs to the shared folder. -/
def inFolder (path name : String) : Bool :=
  (Text.stripPrefix (folderPrefix path) (withSlashes name)).isSome

def folderName (path : String) : String :=
  let last := ((Text.split '/' (cleanPath path)).getLast?).getD (cleanPath path)
  if last = "" then "folder" else last

/-- The path of a file from the shared folder on. -/
def relPath (path name : String) : String :=
  let cleanName := withSlashes name
  match Text.stripPrefix (folderPrefix path) cleanName with
  | some stripped => stripped
  | none =>
    match Text.stripPrefix (cleanPath path) cleanName with
    | some stripped => Text.trimStartMatches '/' stripped
    | none => cleanName

def zipEntryName (path name : String) : String := folderName path ++ "/" ++ relPath path name

/-- The entries of the archive, for the names that `list_files` returns. -/
def zipEntryNames (path : String) (names : List String) : List String :=
  (names.filter (inFolder path)).map (zipEntryName path)

/-! ## Extraction -/

/-- A name that extraction does not put below the directory it works in. -/
def IsAbsolute (name : String) : Prop := name.toList.head? = some '/'

instance (name : String) : Decidable (IsAbsolute name) :=
  inferInstanceAs (Decidable (_ = _))

/-- One component further, if that does not leave the directory of the extraction. -/
def descend (place : List String) (part : String) : Option (List String) :=
  if FilePath.isNoise part then some place
  else if part = ".." then (if place = [] then none else some place.dropLast)
  else some (place ++ [part])

/-- Where an entry comes to lie below the directory of the extraction. -/
def extractedTo (name : String) : Option (List String) :=
  if IsAbsolute name then none else (Text.split '/' name).foldlM descend []

/-- The entry comes to lie below the folder. -/
def StaysBelow (folder entry : String) : Prop :=
  ∃ place rest, extractedTo folder = some place ∧ extractedTo entry = some (place ++ rest)

/-! ## What is asked of names -/

/-- Nothing climbs once the separators are normalised. -/
def SafeNormalised (name : String) : Prop :=
  ".." ∉ Text.split '/' (withSlashes name) ∧ ¬ IsAbsolute (withSlashes name)

/-- No backslash begins the name, and none stands next to two dots that end at separators. -/
def NoHiddenClimb (name : String) : Prop :=
  name.toList.head? ≠ some '\\' ∧
    ∀ part ∈ Text.split '/' name, '\\' ∈ part.toList → ".." ∉ Text.split '\\' part

instance (name : String) : Decidable (SafeNormalised name) := inferInstanceAs (Decidable (_ ∧ _))

instance (name : String) : Decidable (NoHiddenClimb name) := inferInstanceAs (Decidable (_ ∧ _))

end OosLite
