import OosLite.Lib.FileSystem

/-!
# Errors

The error type of the store, with the texts the source gives them.
-/

namespace OosLite

open Files

/-- `OosLiteError`. An I/O error keeps the kind the code looks at and the message it is given. -/
inductive OosLiteError where
  | io (kind : IoError) (message : String)
  | redb (message : String)
  | checksumMismatch (chunkId : String) (expected actual : UInt32)
  | chunkNotFound (id : String)
  | corruptedSegment (offset : Nat) (reason : String)
  | objectNotFound (target : String)
  | snapshotNotFound (label : String)
  | walRecovery (message : String)
  | internal (message : String)
  | invalidName (name reason : String)
  | passwordRequired
  | decryptionFailed (message : String)
  deriving DecidableEq

abbrev Result (α : Type) := Except OosLiteError α

/-- `?` on an I/O operation. -/
def OosLiteError.ofIo (kind : IoError) : OosLiteError := .io kind ""

/-- `{:08x}`. -/
def hex8 (n : UInt32) : String :=
  String.ofList ((List.range 8).reverse.map fun i =>
    let d := n.toNat / 16 ^ i % 16
    if d < 10 then Char.ofNat (d + 48) else Char.ofNat (d + 87))

/-- The text of an error. -/
def OosLiteError.display : OosLiteError → String
  | .io _ message => s!"I/O error: {message}"
  | .redb message => s!"Metadata database error: {message}"
  | .checksumMismatch chunkId expected actual =>
    "Checksum mismatch for chunk " ++ chunkId ++ ": expected " ++ hex8 expected ++ ", got " ++
      hex8 actual
  | .chunkNotFound id => s!"Chunk not found: {id}"
  | .corruptedSegment offset reason => s!"Corrupted segment at offset {offset}: {reason}"
  | .objectNotFound target => s!"Object not found: {target}"
  | .snapshotNotFound label => s!"Snapshot not found: {label}"
  | .walRecovery message => s!"WAL recovery error: {message}"
  | .internal message => s!"Internal storage error: {message}"
  | .invalidName name reason => s!"Invalid logical file name '{name}': {reason}"
  | .passwordRequired => "Password required to unlock encrypted store"
  | .decryptionFailed message => s!"Decryption failed for chunk: {message}"

theorem Result.bind_eq_ok {α β : Type} {x : Result α} {f : α → Result β} {b : β} :
    x >>= f = .ok b ↔ ∃ a, x = .ok a ∧ f a = .ok b := by
  cases x with
  | ok a => simp [bind, Except.bind]
  | error e => simp [bind, Except.bind]

theorem Result.mapM_ok {α β : Type} {f : α → Result β} {xs : List α}
    (h : ∀ x ∈ xs, ∃ y, f x = .ok y) : ∃ ys, xs.mapM f = .ok ys := by
  induction xs with
  | nil => exact ⟨[], rfl⟩
  | cons x xs ih =>
    obtain ⟨y, first⟩ := h x List.mem_cons_self
    obtain ⟨ys, rest⟩ := ih fun z hz => h z (List.mem_cons_of_mem x hz)
    refine ⟨y :: ys, ?_⟩
    rw [List.mapM_cons, Result.bind_eq_ok]
    exact ⟨y, first, Result.bind_eq_ok.2 ⟨ys, rest, rfl⟩⟩

theorem Result.of_mapM_ok {α β : Type} {f : α → Result β} {xs : List α} {ys : List β}
    (h : xs.mapM f = .ok ys) :
    (∀ x ∈ xs, ∃ y, f x = .ok y) ∧ ∀ y, y ∈ ys ↔ ∃ x ∈ xs, f x = .ok y := by
  induction xs generalizing ys with
  | nil =>
    cases h
    simp
  | cons x xs ih =>
    rw [List.mapM_cons] at h
    obtain ⟨y, first, h⟩ := Result.bind_eq_ok.1 h
    obtain ⟨zs, rest, h⟩ := Result.bind_eq_ok.1 h
    cases h
    obtain ⟨all, mem⟩ := ih rest
    constructor
    · intro z hz
      rcases List.mem_cons.1 hz with rfl | hz
      · exact ⟨y, first⟩
      · exact all z hz
    · intro z
      simp only [List.mem_cons, mem, exists_eq_or_imp, first, Except.ok.injEq]
      exact or_congr eq_comm Iff.rfl

theorem Result.eq_ok {x : Result Unit} (h : x.isOk = true) : x = .ok () := by
  cases x with
  | ok value => rfl
  | error e => cases h

theorem Result.exists_error {α : Type} {x : Result α} (h : x.isOk = false) :
    ∃ e, x = .error e := by
  cases x with
  | ok a => cases h
  | error e => exact ⟨e, rfl⟩

end OosLite
