import OosLite.Lib.Text
import OosLite.Vfs.Tree

/-!
# Listings of WebDAV

What `handle_propfind` lists, and how the path of a request is read.
-/

namespace OosLite

/-! ## Paths of requests -/

/-- The loop of `urlencoding_decode`: after a percent sign two bytes are taken, whether or not they are
digits. -/
def percentDecode : Bytes → Bytes
  | [] => []
  | b :: rest =>
    if b = 37 then
      match rest with
      | h1 :: h2 :: rest =>
        match Text.byteOfDigits h1 h2 with
        | some val => val :: percentDecode rest
        | none => b :: percentDecode rest
      | _ => [b]
    else b :: percentDecode rest

/-- `urlencoding_decode`. -/
def urlencodingDecode (s : String) : String := Text.fromUtf8Lossy (percentDecode (Text.utf8 s))

/-- `decode_url_path`. -/
def decodeUrlPath (url : String) : String :=
  urlencodingDecode (((Text.split '?' url).head?).getD url)

/-! ## XML -/

/-- `str::replace` of a character by a text. -/
def replaceBy (c : Char) (text : String) (s : String) : String :=
  String.ofList (s.toList.flatMap fun c' => if c' = c then text.toList else [c'])

/-- `escape_xml`. -/
def escapeXml (s : String) : String :=
  replaceBy '\'' "&apos;" (replaceBy '"' "&quot;" (replaceBy '>' "&gt;" (replaceBy '<' "&lt;"
    (replaceBy '&' "&amp;" s))))

/-- How a reader of XML understands a text with references to the predefined entities. -/
def unescapeXml (s : String) : String := String.ofList (go s.toList)
where
  go : List Char → List Char
    | '&' :: 'a' :: 'm' :: 'p' :: ';' :: cs => '&' :: go cs
    | '&' :: 'l' :: 't' :: ';' :: cs => '<' :: go cs
    | '&' :: 'g' :: 't' :: ';' :: cs => '>' :: go cs
    | '&' :: 'q' :: 'u' :: 'o' :: 't' :: ';' :: cs => '"' :: go cs
    | '&' :: 'a' :: 'p' :: 'o' :: 's' :: ';' :: cs => '\'' :: go cs
    | c :: cs => c :: go cs
    | [] => []

/-! ## Listings -/

/-- The texts and values of `format_prop_entry`. -/
structure PropEntry where
  href : String
  displayname : String
  isDir : Bool
  size : UInt64
  mtime : UInt64
  deriving DecidableEq

/-- `format_prop_entry`. -/
def formatPropEntry (href name : String) (isDir : Bool) (size mtime : UInt64) : PropEntry where
  href := escapeXml href
  displayname := escapeXml name
  isDir
  size
  mtime

/-- The reference to the node that is asked for. -/
def targetHref (cleanPath : String) (node : VfsNode) : String :=
  if cleanPath = "" then "/"
  else if node.kind = .directory then "/" ++ cleanPath ++ "/"
  else "/" ++ cleanPath

/-- The reference to an entry. -/
def childHref (cleanPath : String) (child : VfsNode) : String :=
  if cleanPath = "" then
    if child.kind = .directory then "/" ++ child.name ++ "/" else "/" ++ child.name
  else
    if child.kind = .directory then "/" ++ cleanPath ++ "/" ++ child.name ++ "/"
    else "/" ++ cleanPath ++ "/" ++ child.name

/-- What is listed of a node under a reference. -/
def propEntry (href : String) (node : VfsNode) : PropEntry :=
  formatPropEntry href node.name (node.kind = .directory) node.size node.mtime

/-- `handle_propfind`, for a decoded path: nothing if it is not found. -/
def handlePropfind (t : VfsNodes) (path depth : String) : Option (List PropEntry) := do
  let node ← t.resolvePath path
  let cleanPath := Text.trimMatches '/' path
  let children :=
    if depth ≠ "0" ∧ node.kind = .directory then (t.readdir node.ino).getD [] else []
  return propEntry (targetHref cleanPath node) node ::
    children.map fun child => propEntry (childHref cleanPath child) child

end OosLite
