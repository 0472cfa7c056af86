import OosLite.Share.Server

/-!
# When a share is over

The lifetime of a new share, and what the server, the list and the badge make of the end of a share.
-/

namespace OosLite

open ShareManager ShareServer

/-- The new share ends later, and it has an end. -/
def EndsLater (made : Option ShareInfo) (now : UInt64) : Prop :=
  ∃ info, made = some info ∧ info.expiresAt > now ∧ info.expiresAt ≠ 0

/-- The page or a download. -/
def ShareResponse.Serves : ShareResponse → Prop
  | .page _ => True
  | .archive _ _ => True
  | .file _ _ => True
  | .text _ _ => False
  | .expired _ => False
  | .redirect _ => False
  | .panicked => False

/-- A download of what is shared can be made: the archive of a folder, or the file, which the vault
has. -/
def Deliverable (host : DownloadHost) (share : ShareInfo) (names : List String) : Prop :=
  if folderFiles share names = [] then
    (host.getFile share.path).isSome ∧ host.opens 0 = true ∧
      host.headerAllowed (attachment (downloadFileName share.path)) = true
  else
    host.createZip = .ok () ∧ host.finishZip = .ok () ∧ host.opensZip = true ∧
      host.headerAllowed (attachment (folderName share.path ++ ".zip")) = true

/-- The list shows the share, and its badge does not say that it is over. -/
def Shown (shares : Shares) (share : ShareInfo) (now : UInt64) : Prop :=
  share ∈ listShares shares now ∧ expiresBadge share.expiresAt now ≠ expiredBadge

theorem endsLater_iff (checks : Bool) (path : String) (expiresInSec : UInt64) (drawn : Drawn)
    (now : UInt64) (positive : 0 < expiresInSec) :
    EndsLater (newShare checks path expiresInSec drawn now) now ↔
      now.toNat + expiresInSec.toNat < 2 ^ 64 := by
  have pos : 0 < expiresInSec.toNat := UInt64.lt_iff_toNat_lt.1 positive
  have small := expiresInSec.toNat_lt
  have small' := now.toNat_lt
  have sum := UInt64.toNat_add now expiresInSec
  unfold EndsLater newShare addSeconds
  rw [if_pos positive]
  constructor
  · intro h
    obtain ⟨info, made, later, -⟩ := h
    by_contra beyond
    -- the sum panics, or is less than its first part
    obtain ⟨expiresAt, added, rfl⟩ := Option.map_eq_some_iff.1 made
    split at added
    · cases added
    · cases added
      have wrapped : now.toNat < (now + expiresInSec).toNat := UInt64.lt_iff_toNat_lt.1 later
      omega
  · intro fits
    have within : ¬ (checks = true ∧ 2 ^ 64 ≤ now.toNat + expiresInSec.toNat) := by
      intro h
      omega
    rw [if_neg within]
    refine ⟨_, rfl, UInt64.lt_iff_toNat_lt.2 ?_, fun zero => ?_⟩
    · show now.toNat < (now + expiresInSec).toNat
      omega
    · have nothing : (now + expiresInSec).toNat = 0 := congrArg UInt64.toNat zero
      omega

/-! ## The end of a share -/

theorem mem_listShares {shares : Shares} {id : String} {share : ShareInfo}
    (found : getShare shares id = some share) (now : UInt64) :
    share ∈ listShares shares now ↔ share.expiresAt = 0 ∨ now < share.expiresAt := by
  have there : share ∈ shares.entries.map (·.2) :=
    List.mem_map.2 ⟨⟨id, share⟩, AList.mem_lookup_iff.1 found, rfl⟩
  unfold listShares
  rw [List.mem_filter, Bool.or_eq_true, decide_eq_true_eq, decide_eq_true_eq]
  exact ⟨And.right, fun h => ⟨there, h⟩⟩

/-- A text that begins with the time that is left. -/
theorem ne_expiredBadge (rest : String) : "Còn " ++ rest ≠ expiredBadge := by
  intro same
  have first := congrArg (fun s => s.toList.head?) same
  simp [expiredBadge] at first

theorem expiresBadge_ne_iff (expiresAt now : UInt64) :
    expiresBadge expiresAt now ≠ expiredBadge ↔ expiresAt = 0 ∨ now < expiresAt := by
  unfold expiresBadge
  by_cases unlimited : expiresAt = 0
  · rw [if_pos unlimited]
    exact iff_of_true (by decide) (.inl unlimited)
  rw [if_neg unlimited]
  by_cases later : expiresAt > now
  · rw [if_pos later]
    refine iff_of_true ?_ (.inr later)
    simp only [String.append_assoc]
    split
    · exact ne_expiredBadge _
    split
    · exact ne_expiredBadge _
    split
    · exact ne_expiredBadge _
    · exact ne_expiredBadge _
  · rw [if_neg later]
    refine iff_of_false (not_not_intro rfl) fun h => ?_
    exact h.elim unlimited later

theorem shown_iff {shares : Shares} {id : String} {share : ShareInfo}
    (found : getShare shares id = some share) (now : UInt64) :
    Shown shares share now ↔ share.expiresAt = 0 ∨ now < share.expiresAt := by
  unfold Shown
  rw [mem_listShares found, expiresBadge_ne_iff, and_self]

theorem serves_withHeader_iff {host : DownloadHost} {value : String} {response : ShareResponse}
    (delivers : response.Serves) :
    (withHeader host value response).Serves ↔ host.headerAllowed value = true := by
  unfold withHeader
  split
  · rename_i allowed
    exact iff_of_true delivers allowed
  · rename_i refused
    exact iff_of_false not_false refused

theorem serves_downloadFile_iff {host : DownloadHost} {share : ShareInfo} {names : List String}
    (single : folderFiles share names = []) :
    (downloadFile host share).Serves ↔ Deliverable host share names := by
  unfold downloadFile Deliverable
  rw [if_pos single]
  cases host.getFile share.path with
  | none => simp [ShareResponse.Serves]
  | some content =>
    simp only [Option.isSome_some, true_and]
    cases host.opens 0 with
    | false => simp [ShareResponse.Serves]
    | true =>
      have answer : (ShareResponse.file (downloadFileName share.path) content).Serves := trivial
      simpa using serves_withHeader_iff answer

theorem serves_downloadFolder_iff {host : DownloadHost} {share : ShareInfo} {names : List String}
    (folder : folderFiles share names ≠ []) :
    (downloadFolder host share names).Serves ↔ Deliverable host share names := by
  unfold downloadFolder Deliverable
  rw [if_neg folder]
  cases host.createZip with
  | error e => simp [ShareResponse.Serves, bind, Except.bind]
  | ok _ =>
    cases host.finishZip with
    | error e => simp [ShareResponse.Serves, bind, Except.bind]
    | ok _ =>
      simp only [bind, Except.bind, true_and]
      cases host.opensZip with
      | false => simp [ShareResponse.Serves]
      | true =>
        have answer : (ShareResponse.archive (folderName share.path ++ ".zip")
            (archiveEntries host share names)).Serves := trivial
        simpa using serves_withHeader_iff answer

/-- The server refuses a share only after its end, and a download that cannot be made. -/
theorem serves_iff {host : DownloadHost} {shares : Shares} {id : String} {share : ShareInfo}
    {url : String} {isDownload : Bool} {query : Option String}
    (found : getShare shares id = some share) (routed : route url = some (id, isDownload, query))
    (token : isDownload = true → tokenMatch query share.token = true) (names : List String)
    (now : UInt64) :
    (handle host shares names now url).Serves ↔ (share.expiresAt = 0 ∨ now ≤ share.expiresAt) ∧
      (isDownload = true → Deliverable host share names) := by
  unfold handle
  rw [routed]
  simp only [found]
  unfold serve
  by_cases ended : share.expiresAt > 0 ∧ share.expiresAt < now
  · rw [if_pos ended]
    refine iff_of_false not_false fun h => ?_
    cases h.1 with
    | inl unlimited =>
      rw [unlimited] at ended
      exact absurd ended.1 (by decide)
    | inr running => exact absurd ended.2 (UInt64.not_lt.2 running)
  · rw [if_neg ended]
    have left : share.expiresAt = 0 ∨ now ≤ share.expiresAt := by
      by_cases unlimited : share.expiresAt = 0
      · exact .inl unlimited
      · exact .inr (UInt64.not_lt.1 fun before => ended ⟨UInt64.pos_iff_ne_zero.2 unlimited, before⟩)
    rw [and_iff_right left]
    cases isDownload with
    | true =>
      rw [if_pos rfl, if_neg (not_not_intro (token rfl)), forall_prop_of_true rfl]
      by_cases single : folderFiles share names = []
      · simpa [single] using serves_downloadFile_iff single
      · simpa [single] using serves_downloadFolder_iff single
    | false =>
      rw [if_neg Bool.false_ne_true]
      refine iff_of_true ?_ nofun
      simp only
      split <;> exact trivial

/-- A lifetime gives a later end exactly if the sum stays within 64 bits. The server agrees with the
list and the badge exactly if a download of a share that is shown can be made, and it is not the last
second of the share, unless a download is asked for that cannot be made. -/
theorem expiry_sound_iff (checks : Bool) (path : String) (expiresInSec : UInt64) (drawn : Drawn)
    (now : UInt64) (positive : 0 < expiresInSec) (shares : Shares) (id : String) (share : ShareInfo)
    (found : getShare shares id = some share) (names : List String) (host : DownloadHost)
    (url : String) (isDownload : Bool) (query : Option String)
    (routed : route url = some (id, isDownload, query))
    (token : isDownload = true → tokenMatch query share.token = true) (t : UInt64) :
    (EndsLater (newShare checks path expiresInSec drawn now) now ∧
        ((handle host shares names t url).Serves ↔ Shown shares share t)) ↔
      now.toNat + expiresInSec.toNat < 2 ^ 64 ∧
        (isDownload = true → share.expiresAt = 0 ∨ t < share.expiresAt →
          Deliverable host share names) ∧
        (share.expiresAt = t → t = 0 ∨ isDownload = true ∧ ¬ Deliverable host share names) := by
  rw [endsLater_iff checks path expiresInSec drawn now positive, serves_iff found routed token,
    shown_iff found]
  refine and_congr_right fun _ => ?_
  constructor
  · intro agree
    refine ⟨fun download shown => (agree.2 shown).2 download, fun last => ?_⟩
    by_contra! served
    obtain ⟨limited, delivered⟩ := served
    rcases agree.1 ⟨.inr (UInt64.le_of_eq last.symm), delivered⟩ with zero | later
    · exact limited (last ▸ zero)
    · exact UInt64.lt_irrefl t (last ▸ later)
  · intro ⟨delivers, notLast⟩
    constructor
    · intro ⟨running, delivered⟩
      by_cases unlimited : share.expiresAt = 0
      · exact .inl unlimited
      · have le := running.resolve_left unlimited
        refine .inr (UInt64.lt_of_le_of_ne le fun same => ?_)
        rcases notLast same.symm with zero | ⟨download, undelivered⟩
        · exact unlimited (same ▸ zero)
        · exact undelivered (delivered download)
    · exact fun shown => ⟨shown.imp_right UInt64.le_of_lt, fun download => delivers download shown⟩

namespace ExpirySample

def share : ShareInfo := ⟨"0000000000000001", "a.txt", "0000000000000002", 2000⟩

def folder : ShareInfo := ⟨"0000000000000003", "docs", "0000000000000004", 2000⟩

def shares : Shares := (AList.singleton share.id share).insert folder.id folder

def names : List String := ["a.txt", "docs/b", "docs/c"]

def url : String := "/s/0000000000000001/download?token=0000000000000002"

def folderUrl : String := "/s/0000000000000003/download?token=0000000000000004"

/-- A vault from which one of the files cannot be extracted. -/
def host : DownloadHost where
  getFile target := if target = "docs/c" then none else some [7, 8]
  opens _ := true
  createZip := .ok ()
  startFile _ := true
  copied _ := 2
  finishZip := .ok ()
  opensZip := true
  headerAllowed value := value.toList.all fun c => c.toNat < 128

theorem deliverable : Deliverable host share names := by
  have single : folderFiles share names = [] := by decide +kernel
  unfold Deliverable
  rw [if_pos single]
  decide +kernel

theorem folder_deliverable : Deliverable host folder names := by
  have some_name : folderFiles folder names ≠ [] := by decide +kernel
  unfold Deliverable
  rw [if_neg some_name]
  decide +kernel

end ExpirySample

open ExpirySample in
/-- An hour, and a file and a folder that are shared, shown and downloaded in the meantime. -/
theorem expiry_sound_iff_hour :
    (EndsLater (newShare true "a.txt" 3600 ⟨1, 2⟩ 1000) 1000 ∧
      ((handle host shares names 1500 url).Serves ↔ Shown shares share 1500)) ∧
    (EndsLater (newShare true "docs" 3600 ⟨3, 4⟩ 1000) 1000 ∧
      ((handle host shares names 1500 folderUrl).Serves ↔ Shown shares folder 1500)) ∧
    handle host shares names 1500 url = .file "a.txt" [7, 8] ∧
    handle host shares names 1500 folderUrl = .archive "docs.zip" [("docs/b", [7, 8])] := by
  refine ⟨?_, ?_, by decide +kernel, by decide +kernel⟩
  · apply (expiry_sound_iff true "a.txt" 3600 ⟨1, 2⟩ 1000 (by decide) shares share.id share
      (by decide +kernel) names host url true (some "token=0000000000000002") (by decide +kernel)
      (fun _ => by decide +kernel) 1500).2
    exact ⟨by decide, fun _ _ => deliverable, fun last => absurd last (by decide)⟩
  · apply (expiry_sound_iff true "docs" 3600 ⟨3, 4⟩ 1000 (by decide) shares folder.id folder
      (by decide +kernel) names host folderUrl true (some "token=0000000000000004")
      (by decide +kernel) (fun _ => by decide +kernel) 1500).2
    exact ⟨by decide, fun _ _ => folder_deliverable, fun last => absurd last (by decide)⟩

open ExpirySample in
/-- A lifetime that makes the new share unlimited, and the second in which a share is still
downloaded that the list does not show. -/
theorem endless_lifetime :
    ¬ (EndsLater (newShare false "a.txt" 18446744073709550616 ⟨1, 2⟩ 1000) 1000 ∧
        ((handle host shares names 2000 url).Serves ↔ Shown shares share 2000)) ∧
      (newShare false "a.txt" 18446744073709550616 ⟨1, 2⟩ 1000).map (·.expiresAt) = some 0 ∧
      newShare true "a.txt" 18446744073709550616 ⟨1, 2⟩ 1000 = none ∧
      handle host shares names 2000 url = .file "a.txt" [7, 8] ∧ ¬ Shown shares share 2000 := by
  have ended : ¬ (1000 : UInt64).toNat + (18446744073709550616 : UInt64).toNat < 2 ^ 64 := by decide
  have hidden : ¬ Shown shares share 2000 := by
    have found : getShare shares share.id = some share := by decide +kernel
    rw [shown_iff found]
    decide
  refine ⟨fun sound => ?_, by decide +kernel, by decide +kernel, by decide +kernel, hidden⟩
  exact ended ((endsLater_iff false "a.txt" _ ⟨1, 2⟩ 1000 (by decide)).1 sound.1)

end OosLite
