import OosLite.Share.Manager
import OosLite.Share.Zip

/-!
# The public server

What `start_public_server` answers to a request, by its URL. The files are what `list_files` returns,
or nothing where it fails; what the engine and the temporary files do for a download is given.
-/

namespace OosLite

/-- The badge of the page: the time that is left. -/
def expiresBadge (expiresAt now : UInt64) : String :=
  if expiresAt = 0 then "Không giới hạn"
  else if expiresAt > now then
    let diff := expiresAt - now
    if diff ≥ 86400 then "Còn " ++ toString (diff / 86400) ++ " ngày"
    else if diff ≥ 3600 then "Còn " ++ toString (diff / 3600) ++ " giờ"
    else if diff ≥ 60 then "Còn " ++ toString (diff / 60) ++ " phút"
    else "Còn " ++ toString diff ++ " giây"
  else "Đã hết hạn"

/-- The badge of a share that is over. -/
def expiredBadge : String := "Đã hết hạn"

/-- What the page is filled with. -/
structure SharePage where
  displayName : String
  displayPath : String
  expiresBadge : String
  shareId : String
  hasError : Bool
  prefillToken : String
  deriving DecidableEq

/-- The answers of the server: a text with its status, the page of a share that is over, a way back to
the page, an archive with the data of its entries, a file, or the page. Where the value of a header is
not allowed the thread panics. -/
inductive ShareResponse where
  | text (status : Nat) (body : String)
  | expired (fileName : String)
  | redirect (location : String)
  | archive (downloadName : String) (entries : List (String × Bytes))
  | file (downloadName : String) (content : Bytes)
  | page (page : SharePage)
  | panicked
  deriving DecidableEq

/-- What the calls of a download do: what `get_file` writes for a target, unless it fails, and what
becomes of the temporary files, those of an archive by their numbers. -/
structure DownloadHost where
  getFile : (target : String) → Option Bytes
  opens : (idx : Nat) → Bool
  createZip : Except String Unit
  startFile : (idx : Nat) → Bool
  copied : (idx : Nat) → Nat
  finishZip : Except String Unit
  opensZip : Bool
  /-- `Header::from_bytes` takes the value. -/
  headerAllowed : (value : String) → Bool

namespace ShareServer

/-- `Path::file_name`, or all of the path. -/
def fileNameOr (path : String) : String := if fileName path = "" then path else fileName path

/-- The parameters of the query: the texts on both sides of one equals sign. -/
def param (text : String) : Option (String × String) :=
  match Text.split '=' text with
  | [key, value] => some (key, value)
  | _ => none

/-- The query has the token of the share. -/
def tokenMatch (query : Option String) (token : String) : Bool :=
  match query with
  | none => false
  | some query => (Text.split '&' query).any fun text => param text = some ("token", token)

/-- What the page takes from the query: whether it reports an error, and the token. -/
def pageQuery (query : String) : Bool × String :=
  (Text.split '&' query).foldl (fun (hasError, token) text =>
    match param text with
    | none => (hasError, token)
    | some (key, value) =>
      if key = "error" ∧ value = "invalid_token" then (true, token)
      else if key = "token" then (hasError, value)
      else (hasError, token)) (false, "")

/-- The names of the shared folder; none if it is a file. -/
def folderFiles (share : ShareInfo) (names : List String) : List String :=
  names.filter (inFolder share.path)

/-- `Path::file_name`, or a name for a path that has none. -/
def downloadFileName (path : String) : String :=
  if fileName path = "" then "download.bin" else fileName path

/-- The header of a download. -/
def attachment (downloadName : String) : String := "attachment; filename=\"" ++ downloadName ++ "\""

variable (host : DownloadHost)

/-- An answer with a header. -/
def withHeader (value : String) (response : ShareResponse) : ShareResponse :=
  if host.headerAllowed value then response else .panicked

/-- The entries of the archive; a file that cannot be extracted or started is left out, and what could
be copied of the others is in it. -/
def archiveEntries (share : ShareInfo) (names : List String) : List (String × Bytes) :=
  (folderFiles share names).zipIdx.filterMap fun (fileName, idx) =>
    match host.getFile fileName with
    | some content =>
      if host.opens idx && host.startFile idx then
        some (zipEntryName share.path fileName, content.take (host.copied idx))
      else none
    | none => none

/-- The download of a folder. -/
def downloadFolder (share : ShareInfo) (names : List String) : ShareResponse :=
  match (do host.createZip; host.finishZip) with
  | .ok () =>
    if host.opensZip then
      let downloadName := folderName share.path ++ ".zip"
      withHeader host (attachment downloadName)
        (.archive downloadName (archiveEntries host share names))
    else .text 500 "Failed to open generated zip"
  | .error e => .text 500 ("Error generating archive: " ++ e)

/-- The download of a single file. -/
def downloadFile (share : ShareInfo) : ShareResponse :=
  match host.getFile share.path with
  | some content =>
    if host.opens 0 then
      let downloadName := downloadFileName share.path
      withHeader host (attachment downloadName) (.file downloadName content)
    else .text 500 "File read error"
  | none => .text 404 "File not found in vault"

/-- The answer for a share that is there. -/
def serve (share : ShareInfo) (names : List String) (now : UInt64) (id : String) (isDownload : Bool)
    (query : Option String) : ShareResponse :=
  let isFolder := !(folderFiles share names).isEmpty
  if share.expiresAt > 0 ∧ share.expiresAt < now then
    .expired (if isFolder then folderName share.path ++ " (Thư mục)" else fileNameOr share.path)
  else if isDownload then
    if ¬ tokenMatch query share.token then
      let location := "/s/" ++ id ++ "?error=invalid_token"
      withHeader host location (.redirect location)
    else if isFolder then downloadFolder host share names
    else downloadFile host share
  else
    let (hasError, prefillToken) := pageQuery (query.getD "")
    let badge := expiresBadge share.expiresAt now
    if isFolder then
      .page ⟨folderName share.path ++ " (Thư mục)", cleanPath share.path ++ "/", badge, id, hasError,
        prefillToken⟩
    else .page ⟨fileNameOr share.path, share.path, badge, id, hasError, prefillToken⟩

/-- The share that a URL is about, whether it is a download, and the query. -/
def route (url : String) : Option (String × Bool × Option String) :=
  if (Text.stripPrefix "/s/" url).isNone then none
  else
    let parts := Text.split '?' url
    match Text.split '/' (parts.headD "") with
    | _ :: _ :: id :: rest => some (id, rest.head? = some "download", parts[1]?)
    | _ => none

/-- The answer to a request. -/
def handle (shares : Shares) (names : List String) (now : UInt64) (url : String) : ShareResponse :=
  match route url with
  | none => .text 404 "Not Found"
  | some (id, isDownload, query) =>
    match ShareManager.getShare shares id with
    | none => .text 404 "Not Found"
    | some share => serve host share names now id isDownload query

end ShareServer

end OosLite
