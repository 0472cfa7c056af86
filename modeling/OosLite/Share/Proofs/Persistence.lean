import OosLite.Share.Manager

/-!
# Shares over restarts

As long as no program is started from a file that a failed write left behind, a revoked share stays
revoked and the others stay: what is in memory follows the calls, and the file follows the memory.
-/

namespace OosLite

open ShareManager

/-- `serde_json` reads the map that it wrote. -/
def Json.ReadsBack (json : Json) (shares : Shares) : Prop :=
  ∃ text read, json.toStringPretty shares = some text ∧ json.fromStr text = some read ∧
    ∀ id, read.lookup id = shares.lookup id

namespace ShareRecord

/-- A share with this id is added. -/
def Adds (id : String) : ShareRecord → Prop
  | .add info _ => info.id = id
  | .revoke _ _ => False

/-- The share with this id is revoked, or may be. -/
def Removes (id : String) : ShareRecord → Prop
  | .add _ _ => False
  | .revoke id' answer => id' = id ∧ answer ≠ some false

end ShareRecord

/-- After these calls a revoked share is not there, and the others are. -/
structure SharesKept (history : List ShareRecord) (shares : Shares) : Prop where
  revoked : ∀ later id earlier, history = later ++ .revoke id (some true) :: earlier →
    (∀ record ∈ later, ¬ record.Adds id) → getShare shares id = none
  others : ∀ later info earlier, history = later ++ .add info true :: earlier →
    (∀ record ∈ later, ¬ record.Removes info.id) → getShare shares info.id = some info

/-- The states of the runs whose steps are allowed. What is saved can be read. -/
inductive ShareRun.Reaches (json : Json) (checks : Bool) (allowed : ShareRun → ShareEvent → Prop)
    (file : Option Bytes) : ShareRun → Prop where
  | start : Reaches json checks allowed file ⟨none, file, [], true⟩
  | step {r : ShareRun} {e : ShareEvent} : Reaches json checks allowed file r →
      (∀ shares, r.saved checks e = some shares → json.ReadsBack shares) → allowed r e →
      Reaches json checks allowed file (r.step json checks e)

/-- Nothing is started from a file that a failed write left behind, and no share gets the id of
another that is there. -/
def ShareRun.Careful (r : ShareRun) : ShareEvent → Prop
  | .addShare _ _ drawn _ _ _ =>
    ∀ shares, r.manager = some shares → getShare shares (hex16 drawn.id) = none
  | .revokeShare _ _ _ => True
  | .restart => r.settled = true

/-! ## Calls -/

namespace SharesKept

variable {history : List ShareRecord} {shares shares' : Shares} {info : ShareInfo} {id : String}
  {answer : Option Bool} {returned : Bool}

theorem nil (shares : Shares) : SharesKept [] shares := by
  constructor
  · intro later id earlier split
    simp at split
  · intro later info earlier split
    simp at split

theorem congr (kept : SharesKept history shares) (same : ∀ id, shares'.lookup id = shares.lookup id) :
    SharesKept history shares' := by
  constructor
  · intro later id earlier split none
    rw [getShare, same]
    exact kept.revoked later id earlier split none
  · intro later info earlier split none
    rw [getShare, same]
    exact kept.others later info earlier split none

/-- One more call: what it asks for itself, and what is asked of the calls before. -/
theorem cons {record : ShareRecord}
    (revoked : ∀ id, record = .revoke id (some true) → getShare shares' id = none)
    (others : ∀ info, record = .add info true → getShare shares' info.id = some info)
    (stay : ∀ id, ¬ record.Adds id → getShare shares id = none → getShare shares' id = none)
    (remain : ∀ info, ¬ record.Removes info.id → getShare shares info.id = some info →
      getShare shares' info.id = some info) (kept : SharesKept history shares) :
    SharesKept (record :: history) shares' := by
  constructor
  · intro later id earlier split none
    cases later with
    | nil => exact revoked id (List.cons.inj split).1
    | cons record' later =>
      obtain ⟨rfl, before⟩ := List.cons.inj split
      exact stay id (none record List.mem_cons_self) (kept.revoked later id earlier before
        fun r there => none r (List.mem_cons_of_mem _ there))
  · intro later info earlier split none
    cases later with
    | nil => exact others info (List.cons.inj split).1
    | cons record' later =>
      obtain ⟨rfl, before⟩ := List.cons.inj split
      exact remain info (none record List.mem_cons_self) (kept.others later info earlier before
        fun r there => none r (List.mem_cons_of_mem _ there))

theorem add (kept : SharesKept history shares) (free : getShare shares info.id = none)
    (returned : Bool) : SharesKept (.add info returned :: history) (addShare shares info) := by
  have found : getShare (addShare shares info) info.id = some info := AList.lookup_insert shares
  have other {id : String} (differs : id ≠ info.id) :
      getShare (addShare shares info) id = getShare shares id := AList.lookup_insert_ne differs
  refine cons nofun (fun info' same => ?_) (fun id notAdded none => ?_) (fun info' _ there => ?_) kept
  · cases same
    exact found
  · have differs : id ≠ info.id := fun same => notAdded same.symm
    rw [other differs]
    exact none
  · have differs : info'.id ≠ info.id := by
      intro same
      rw [same, free] at there
      cases there
    rw [other differs]
    exact there

/-- A share that is not returned need not be there. -/
theorem add_lost (kept : SharesKept history shares) : SharesKept (.add info false :: history) shares :=
  cons nofun nofun (fun _ _ none => none) (fun _ _ there => there) kept

theorem revoke (kept : SharesKept history shares) (removes : answer ≠ some false) :
    SharesKept (.revoke id answer :: history) (shares.erase id) := by
  have gone : getShare (shares.erase id) id = none := AList.lookup_erase id shares
  have other {id' : String} (differs : id' ≠ id) :
      getShare (shares.erase id) id' = getShare shares id' := AList.lookup_erase_ne differs
  refine cons (fun id' same => ?_) nofun (fun id' _ none => ?_) (fun info notRemoved there => ?_) kept
  · cases same
    exact gone
  · by_cases same : id' = id
    · rw [same]
      exact gone
    · rw [other same]
      exact none
  · have differs : info.id ≠ id := fun same => notRemoved ⟨same.symm, removes⟩
    rw [other differs]
    exact there

/-- A call that does not return true need not have removed anything. -/
theorem revoke_lost (kept : SharesKept history shares) (fails : answer ≠ some true) :
    SharesKept (.revoke id answer :: history) shares := by
  refine cons (fun id' same => ?_) nofun (fun _ _ none => none) (fun _ _ there => there) kept
  cases same
  exact absurd rfl fails

theorem lookup_erase_missing (missing : shares.lookup id = none) (id' : String) :
    (shares.erase id).lookup id' = shares.lookup id' := by
  by_cases same : id' = id
  · rw [same, AList.lookup_erase, missing]
  · exact AList.lookup_erase_ne same

end SharesKept

/-! ## The file -/

namespace ShareRun

variable {json : Json} {checks : Bool} {r : ShareRun} {shares : Shares}

/-- What is in memory follows the calls, and a settled file follows the memory. -/
structure Sound (json : Json) (r : ShareRun) : Prop where
  running : ∀ shares, r.manager = some shares → SharesKept r.history shares
  stored : r.settled = true → SharesKept r.history (new json r.file)

/-- The file after a whole write is read as the map that was saved. -/
theorem new_whole {text : String} {read : Shares} {count : Nat} {file : Option Bytes}
    (reads : json.fromStr text = some read) (whole : (Text.utf8 text).length ≤ count) :
    new json (FileWrite.apply (.upTo count) (Text.utf8 text) file) = read := by
  unfold FileWrite.apply new
  simp only [List.take_of_length_le whole, Text.fromUtf8_utf8, reads, Option.getD_some]

theorem Sound.saving {write : FileWrite} {crashes : Bool} {record : ShareRecord}
    (sound : r.Sound json) (back : json.ReadsBack shares)
    (kept : SharesKept (record :: r.history) shares)
    (lost : crashes = true → SharesKept r.history (new json r.file) →
      SharesKept (record :: r.history) (new json r.file)) :
    (r.saving json shares write crashes record).Sound json := by
  obtain ⟨text, read, written, reads, same⟩ := back
  constructor
  · intro shares' there
    unfold ShareRun.saving at there
    cases crashes with
    | true => cases there
    | false =>
      cases there
      exact kept
  · intro settled
    unfold ShareRun.saving save at *
    simp only [written] at settled ⊢
    cases write with
    | refused =>
      -- nothing was written, and the call does not return
      have both : (crashes && r.settled) = true := by
        simpa [FileWrite.isWhole] using settled
      obtain ⟨crash, before⟩ := Bool.and_eq_true_iff.1 both
      exact lost crash (sound.stored before)
    | upTo count =>
      have whole : (Text.utf8 text).length ≤ count := by
        simpa [FileWrite.isWhole] using settled
      rw [new_whole reads whole]
      exact kept.congr same

theorem Sound.step {e : ShareEvent} (sound : r.Sound json)
    (back : ∀ shares, r.saved checks e = some shares → json.ReadsBack shares)
    (careful : r.Careful e) : (r.step json checks e).Sound json := by
  cases e with
  | addShare path expiresInSec drawn now write crashes =>
    cases running : r.manager with
    | none =>
      unfold ShareRun.step
      simp only [running]
      exact sound
    | some shares =>
      cases info : newShare checks path expiresInSec drawn now with
      | none =>
        unfold ShareRun.step
        simp only [running, info]
        exact sound
      | some info' =>
        have named : info'.id = hex16 drawn.id := by
          unfold newShare at info
          obtain ⟨expiresAt, -, rfl⟩ := Option.map_eq_some_iff.1 info
          rfl
        have free : getShare shares info'.id = none := by
          rw [named]
          exact careful shares running
        have kept := (sound.running shares running).add free (!crashes)
        have saves : r.saved checks (.addShare path expiresInSec drawn now write crashes) =
            some (addShare shares info') := by
          unfold saved
          simp only [running, Option.bind_eq_bind, Option.bind_some, info, Option.pure_def]
        unfold ShareRun.step
        simp only [running, info]
        refine sound.saving (back _ saves) kept fun crash before => ?_
        rw [crash]
        exact before.add_lost
  | revokeShare id write crashes =>
    cases running : r.manager with
    | none =>
      unfold ShareRun.step
      simp only [running]
      exact sound
    | some shares =>
      have kept := sound.running shares running
      cases found : shares.lookup id with
      | none =>
        unfold ShareRun.step revokeShare
        simp only [running, found, Option.isSome_none, Bool.false_eq_true, if_false]
        have fails : (if crashes = true then none else some false) ≠ some true := by
          cases crashes <;> decide
        refine ⟨fun shares' there => ?_, fun settled => (sound.stored settled).revoke_lost fails⟩
        cases crashes with
        | true => cases there
        | false =>
          cases there
          exact (kept.revoke_lost fails).congr (SharesKept.lookup_erase_missing found)
      | some info =>
        have saves : r.saved checks (.revokeShare id write crashes) = some (shares.erase id) := by
          unfold saved revokeShare
          simp only [running, Option.bind_eq_bind, Option.bind_some, found, Option.isSome_some, if_true]
        unfold ShareRun.step revokeShare
        simp only [running, found, Option.isSome_some, if_true]
        have removes : (if crashes = true then none else some true) ≠ some false := by
          cases crashes <;> decide
        refine sound.saving (back _ saves) (kept.revoke removes) fun crash before => ?_
        rw [crash, if_pos rfl]
        exact before.revoke_lost (by decide)
  | restart =>
    refine ⟨fun shares there => ?_, fun _ => sound.stored careful⟩
    cases there
    exact sound.stored careful

/-- In a run of careful steps what is in memory follows the calls. -/
theorem Reaches.sound {file : Option Bytes} (run : Reaches json checks Careful file r) :
    r.Sound json := by
  induction run with
  | start => exact ⟨nofun, fun _ => SharesKept.nil _⟩
  | step _ back careful ih => exact ih.step back careful

end ShareRun

/-- In a run of careful steps a revoked share stays revoked, and the others stay. -/
theorem shares_kept (json : Json) (checks : Bool) (file : Option Bytes) (r : ShareRun)
    (run : r.Reaches json checks ShareRun.Careful file) (shares : Shares)
    (running : r.manager = some shares) : SharesKept r.history shares :=
  run.sound.running shares running

namespace ShareSample

def info : ShareInfo := ⟨"0000000000000001", "a.txt", "0000000000000002", 0⟩

def other : ShareInfo := ⟨"0000000000000003", "b.txt", "0000000000000004", 0⟩

/-- The maps with these shares and their texts. -/
def maps : List (Shares × String) :=
  let entry (info : ShareInfo) : String :=
    "\n  \"" ++ info.id ++ "\": \x7b\n    \"id\": \"" ++ info.id ++ "\",\n    \"path\": \"" ++ info.path ++
      "\",\n    \"token\": \"" ++ info.token ++ "\",\n    \"expires_at\": 0\n  \x7d"
  [(∅, "\x7b\x7d"), (AList.singleton info.id info, "\x7b" ++ entry info ++ "\n\x7d"),
    (AList.singleton other.id other, "\x7b" ++ entry other ++ "\n\x7d"),
    ((AList.singleton info.id info).insert other.id other,
      "\x7b" ++ entry info ++ "," ++ entry other ++ "\n\x7d")]

/-- What becomes of these maps. -/
def json : Json where
  toStringPretty shares := (maps.find? fun m => m.1.entries = shares.entries).map (·.2)
  fromStr t := (maps.find? fun m => m.2 = t).map (·.1)

def started : ShareRun := ShareRun.step json true ⟨none, none, [], true⟩ .restart

/-- The share is added, and everything is written. -/
def addition : ShareEvent := .addShare "a.txt" 0 ⟨1, 2⟩ 1000 (.upTo 1000) false

def added : ShareRun := started.step json true addition

/-- The share is revoked, but the file is not opened. -/
def revocation : ShareEvent := .revokeShare info.id .refused false

def revoked : ShareRun := added.step json true revocation

/-- Another share is added, and the file is not opened. -/
def unwritten : ShareEvent := .addShare "b.txt" 0 ⟨3, 4⟩ 1000 .refused false

def both : ShareRun := added.step json true unwritten

/-- The first share is revoked, and everything is written. -/
def retraction : ShareEvent := .revokeShare info.id (.upTo 1000) false

def retracted : ShareRun := both.step json true retraction

/-- A map is known by its entries. -/
theorem eq_of_entries {found : Option Shares} {shares : Shares}
    (same : found.map (·.entries) = some shares.entries) : found = some shares := by
  obtain ⟨shares', rfl, entries⟩ := Option.map_eq_some_iff.1 same
  rw [AList.ext entries]

/-- A map that is saved is read back if its entries are. -/
theorem readsBack_saved {r : ShareRun} {e : ShareEvent} (reads : ∀ shares, r.saved true e = some shares →
    ((json.toStringPretty shares).bind json.fromStr).map (·.entries) = some shares.entries)
    (shares : Shares) (saves : r.saved true e = some shares) : json.ReadsBack shares := by
  obtain ⟨found, read, entries⟩ := Option.map_eq_some_iff.1 (reads shares saves)
  obtain ⟨text, written, parsed⟩ := Option.bind_eq_some_iff.1 read
  exact ⟨text, found, written, parsed, fun id => by rw [AList.ext entries]⟩

/-- The maps that are saved come back, and what there is in the end. -/
theorem saved_read :
    (∀ shares ∈ started.saved true addition,
      ((json.toStringPretty shares).bind json.fromStr).map (·.entries) = some shares.entries) ∧
    (∀ shares ∈ added.saved true revocation,
      ((json.toStringPretty shares).bind json.fromStr).map (·.entries) = some shares.entries) ∧
    (∀ shares ∈ added.saved true unwritten,
      ((json.toStringPretty shares).bind json.fromStr).map (·.entries) = some shares.entries) ∧
    (∀ shares ∈ both.saved true retraction,
      ((json.toStringPretty shares).bind json.fromStr).map (·.entries) = some shares.entries) ∧
    added.settled = true ∧ both.settled = false ∧ retracted.settled = true ∧
    (retracted.step json true .restart).manager.map (·.entries) =
      some (AList.singleton other.id other : Shares).entries := by
  decide +kernel

theorem reaches_added {allowed : ShareRun → ShareEvent → Prop}
    (first : allowed ⟨none, none, [], true⟩ .restart) (second : allowed started addition) :
    added.Reaches json true allowed none :=
  .step (.step .start nofun first) (readsBack_saved saved_read.1) second

end ShareSample

open ShareSample in
/-- Of two shares the second is added while the file cannot be written, and the first is revoked: after
the next start the second is there. -/
theorem shares_kept_added :
    getShare (AList.singleton other.id other) info.id = none ∧
      SharesKept (retracted.step json true .restart).history (AList.singleton other.id other) := by
  obtain ⟨-, -, unwritten, retracts, -, -, settled, last⟩ := saved_read
  have free : ∀ shares, started.manager = some shares → getShare shares (hex16 1) = none := by
    intro shares there
    cases there
    rfl
  have free' : ∀ shares, added.manager = some shares → getShare shares (hex16 3) = none := by
    have absent : added.manager.map (getShare · (hex16 3)) = some none := by decide +kernel
    intro shares there
    rw [there] at absent
    exact Option.some.inj absent
  have run : (retracted.step json true .restart).Reaches json true ShareRun.Careful none :=
    .step (.step (.step (reaches_added rfl free) (readsBack_saved unwritten) free')
      (readsBack_saved retracts) trivial) nofun settled
  exact ⟨by decide +kernel, shares_kept json true none _ run _ (eq_of_entries last)⟩

open ShareSample in
/-- The share is revoked, its revocation is not written, and after the next start it is there. -/
theorem revoked_share_returns : ¬ ∀ r : ShareRun, r.Reaches json true (fun _ _ => True) none →
    ∀ shares, r.manager = some shares → SharesKept r.history shares := by
  intro all
  have run : (revoked.step json true .restart).Reaches json true (fun _ _ => True) none :=
    .step (.step (reaches_added trivial trivial) (readsBack_saved saved_read.2.1) trivial) nofun trivial
  have there : (revoked.step json true .restart).manager.map (getShare · info.id) =
      some (some info) := by
    decide +kernel
  obtain ⟨shares, running, found⟩ := Option.map_eq_some_iff.1 there
  have calls : (revoked.step json true .restart).history =
      [.revoke info.id (some true), .add info true] := by
    decide +kernel
  have gone := (all _ run shares running).revoked [] info.id _ calls nofun
  rw [found] at gone
  cases gone

end OosLite
