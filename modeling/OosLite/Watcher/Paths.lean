import OosLite.Engine.Put
import OosLite.Lib.FileSystem

/-!
# Paths of the watched directory

Paths as Rust compares and joins them, the logical name of a path, the ignore rules, and what the
file system answers to the questions of the watcher.
-/

namespace OosLite

open Files (IoError)

/-- An absolute path: what stands between its separators, nothing and dots included. -/
abbrev FilePath := List String

namespace FilePath

/-- A part that is no component. -/
def isNoise (part : String) : Bool := part = "" || part = "."

/-- What paths are compared by. -/
def components (p : FilePath) : List String := p.filter fun part => !isNoise part

/-- `Path::join`. -/
def join (p : FilePath) (text : String) : FilePath :=
  match Text.split '/' text with
  | "" :: part :: rest => part :: rest
  | parts => p ++ parts

/-- The path behind so many components. -/
def dropComponents : Nat → FilePath → FilePath
  | 0, p => p
  | _ + 1, [] => []
  | n + 1, part :: p => if isNoise part then dropComponents (n + 1) p else dropComponents n p

def trimNoise (p : FilePath) : FilePath :=
  ((p.dropWhile isNoise).reverse.dropWhile isNoise).reverse

/-- `Path::starts_with`. -/
def startsWith (p base : FilePath) : Bool := base.components.isPrefixOf p.components

/-- `Path::strip_prefix`. -/
def stripPrefix (p base : FilePath) : Option FilePath :=
  if p.startsWith base then some (trimNoise (p.dropComponents base.components.length)) else none

/-- The text of a relative path. -/
def text (p : FilePath) : String :=
  String.ofList (List.intercalate ['/'] (p.map String.toList))

/-- `lexical_path`. -/
def lexical (p : FilePath) : FilePath :=
  p.components.foldl (fun out part => if part = ".." then out.dropLast else out ++ [part]) []

end FilePath

/-- `str::replace` of every backslash by a slash. -/
def withSlashes (s : String) : String :=
  String.ofList (s.toList.map fun c => if c = '\\' then '/' else c)

/-! ## Ignore rules -/

/-- `IgnoreRules`: the patterns, by what they match. -/
structure IgnoreRules where
  patterns : List (String → Bool)

/-- `Path::file_name`, or nothing. -/
def fileName (path : String) : String :=
  match (Component.ofPath path).getLast? with
  | some (.normal text) => text
  | _ => ""

/-- `is_ignored`. -/
def IgnoreRules.isIgnored (rules : IgnoreRules) (relPath : String) : Bool :=
  rules.patterns.any fun pat =>
    pat (fileName relPath) || pat (withSlashes relPath) ||
      (Component.ofPath relPath).any fun component =>
        match component with
        | .normal text => pat text
        | _ => false

/-! ## What the file system answers -/

inductive FileType where
  | dir
  | file
  | other
  deriving DecidableEq

/-- `std::fs::Metadata`. -/
structure FileMetadata where
  fileType : FileType
  len : UInt64
  deriving DecidableEq

/-- The steps at which taking in a file can fail, besides reading it. -/
inductive IngestStage where
  | lookup
  | put (stage : PutStage)
  | mark
  | flush
  deriving DecidableEq

/-- What the watcher sees of its surroundings at one moment. -/
structure Host where
  /-- `Instant::now`, in milliseconds. -/
  now : Nat
  /-- `SystemTime::now`, in seconds. -/
  seconds : UInt64
  /-- `std::fs::metadata`. -/
  metadata : FilePath → Except IoError FileMetadata
  /-- `std::fs::symlink_metadata`. -/
  symlinkMetadata : FilePath → Except IoError FileMetadata
  /-- `WalkDir::new`: the entries below a path, and the directories that cannot be read. -/
  walk : FilePath → List (FilePath × Except IoError FileType)
  /-- A file, from its beginning to its end. -/
  read : FilePath → Except IoError Bytes
  /-- The step at which taking in this file fails, if it does. -/
  fault : FilePath → Option IngestStage

/-- `filter_entry`: the entries whose path from the start of the walk on is included. -/
def Host.walkIncluded (host : Host) (root : FilePath) (included : FilePath → Bool) :
    List (FilePath × Except IoError FileType) :=
  (host.walk root).filter fun entry =>
    (List.range (entry.1.length + 1)).all fun n =>
      n < root.length || included (entry.1.take n)

end OosLite
