import OosLite.Wal.Log

/-!
# What each operation of the log does

One lemma for each operation: its results, and what a crash in it leaves of the files.
-/

namespace OosLite.Wal

open Files Effect

variable {env : Env} {faulty : FsOp WalPath → Prop}

/-- The log file and the position of its handle. -/
structure LogIs (s : WalState) (f : File) (pos : Nat) : Prop where
  file : s.fs.file .log = some f
  cursor : s.fs.cursor .log = pos

/-- The bytes of the log. -/
def logContent (s : WalState) : Bytes := (s.fs.data .log).getD []

theorem LogIs.content {s : WalState} {f : File} {pos : Nat} (h : LogIs s f pos) :
    logContent s = f.data := by
  simp [logContent, Fs.data, h.file]

/-- `checkpoint.meta` as it was. -/
def SameMeta (s s' : WalState) : Prop := s'.fs.file .meta = s.fs.file .meta

/-- The checkpoint a fresh start would read. -/
def metaLsn (s : WalState) : UInt64 := (s.fs.data .meta).elim 0 checkpointOf

theorem metaLsn_congr {s s' : WalState} (h : SameMeta s s') : metaLsn s' = metaLsn s := by
  simp only [metaLsn, Fs.data]
  rw [h]

/-- What an append leaves: the counter is advanced, and the record, or part of it if it fails,
follows what was there. -/
def AppendPost (env : Env) (s : WalState) (f : File) (payload : WalPutPayload) :
    Result UInt64 → WalState → Prop
  | .ok lsn, s' => lsn = s.mem.currentLsn + 1 ∧ s'.mem = { s.mem with currentLsn := lsn } ∧
      SameMeta s s' ∧ ∃ nonce bytes, WalRecord.encodePut env lsn payload nonce = .ok bytes ∧
        LogIs s' ⟨f.data ++ bytes, f.data ++ bytes⟩ (f.data ++ bytes).length
  | .error _, s' => s'.mem = { s.mem with currentLsn := s.mem.currentLsn + 1 } ∧ SameMeta s s' ∧
      ∃ written, LogIs s' ⟨f.durable, f.data ++ written⟩ (f.data ++ written).length ∧
        (written = [] ∨ ∃ nonce bytes, written <+: bytes ∧
          WalRecord.encodePut env (s.mem.currentLsn + 1) payload nonce = .ok bytes)

/-- What a crash in an append leaves of the files. -/
def AppendCut (env : Env) (s : WalState) (f : File) (payload : WalPutPayload)
    (s' : WalState) : Prop :=
  SameMeta s s' ∧ ∃ nonce bytes, WalRecord.encodePut env (s.mem.currentLsn + 1) payload nonce =
    .ok bytes ∧
    ((∃ n, s'.fs.file .log = some ⟨f.durable, f.data ++ bytes.take n⟩) ∨
      s'.fs.file .log = some ⟨f.data ++ bytes, f.data ++ bytes⟩)

theorem safe_appendPutAndSync {s : WalState} {f : File} (log : LogIs s f f.data.length)
    (payload : WalPutPayload) :
    Safe (walMachine faulty) (AppendPost env s f payload) (AppendCut env s f payload)
      (appendPutAndSync env payload) s := by
  rw [appendPutAndSync, safe_bind, Proc.safe_load, thenSafe_ok, safe_bind, Proc.safe_save,
    thenSafe_ok, safe_bind]
  -- the nonce matters only for the record it goes into
  refine Safe.mono (Q := fun r s' => (∃ nonce, r = .ok nonce) ∧
    s' = s.withMem { s.mem with currentLsn := s.mem.currentLsn + 1 }) (C := fun _ => False) ?_ ?_
    fun _ => False.elim
  · rw [freshNonce]
    split
    · exact Proc.safe_ask.2 fun nonce _ => ⟨⟨nonce, rfl⟩, rfl⟩
    · exact ⟨⟨_, rfl⟩, rfl⟩
  rintro _ _ ⟨⟨nonce, rfl⟩, rfl⟩
  rw [thenSafe_ok, safe_bind, safe_ofExcept]
  cases encoded : WalRecord.encodePut env (s.mem.currentLsn + 1) payload nonce with
  | error e =>
    refine ⟨rfl, rfl, [], ?_, .inl rfl⟩
    simp only [List.append_nil]
    exact ⟨log.file, log.cursor⟩
  | ok bytes =>
    obtain ⟨durable, data⟩ := f
    have written : ∀ new : Bytes, Bytes.writeAt data data.length new = data ++ new :=
      Bytes.writeAt_end data
    rw [thenSafe_ok, safe_bind]
    refine Proc.safe_write (f := ⟨durable, data⟩) log.file ?_ ?_ ?_
    · intro n _
      refine ⟨by simp [SameMeta], nonce, bytes, encoded, .inl ⟨n, ?_⟩⟩
      simp [log.cursor, written]
    · rw [thenSafe_ok, safe_bind]
      have there : ((s.withMem { s.mem with currentLsn := s.mem.currentLsn + 1 }).withFs
          (s.fs.wrote .log ⟨durable, data⟩ bytes)).fs.file .log =
          some ⟨durable, data ++ bytes⟩ := by
        simp [log.cursor, written]
      refine Proc.safe_sync there ?_ ?_ ?_ ?_
      · refine ⟨by simp [SameMeta], nonce, bytes, encoded, .inl ⟨bytes.length, ?_⟩⟩
        simp [log.cursor, written]
      · exact ⟨by simp [SameMeta], nonce, bytes, encoded, .inr (by simp)⟩
      · rw [thenSafe_ok, safe_pure]
        refine ⟨rfl, rfl, by simp [SameMeta], nonce, bytes, encoded, by simp, ?_⟩
        simp [log.cursor]
      · intro _
        refine ⟨rfl, by simp [SameMeta], bytes, ⟨by simp [log.cursor, written], ?_⟩,
          .inr ⟨nonce, bytes, List.prefix_rfl, encoded⟩⟩
        simp [log.cursor]
    · intro _ n hn
      refine ⟨rfl, by simp [SameMeta], bytes.take n, ⟨by simp [log.cursor, written], ?_⟩,
        .inr ⟨nonce, bytes, List.take_prefix n bytes, encoded⟩⟩
      simp [log.cursor, Nat.min_eq_left hn]

/-- What a checkpoint leaves: of `checkpoint.meta` a prefix of the number if it fails early, and
an empty log if no record is above the number. -/
def CheckpointPost (lsn : UInt64) (s : WalState) (f : File) (pos : Nat) :
    Result Unit → WalState → Prop
  | .ok (), s' => s'.mem = { s.mem with checkpointLsn := lsn } ∧
      s'.fs.file .meta = some ⟨Bytes.ofU64 lsn, Bytes.ofU64 lsn⟩ ∧
      if lsn ≥ s.mem.currentLsn then LogIs s' ⟨[], []⟩ 0 else LogIs s' f pos
  | .error _, s' => s'.mem = { s.mem with checkpointLsn := lsn } ∧
      (LogIs s' f pos ∨ lsn ≥ s.mem.currentLsn ∧ ∃ pos', LogIs s' ⟨f.durable, []⟩ pos')

/-- What a crash in a checkpoint leaves of the files: either of `checkpoint.meta` something
unfinished and the log as it was, or the number on the medium and of the log what was there or
nothing. -/
def CheckpointCut (lsn : UInt64) (s : WalState) (f : File) (s' : WalState) : Prop :=
  s'.fs.file .log = some f ∧ (SameMeta s s' ∨ ∃ n, s'.fs.file .meta =
      some ⟨((s.fs.file .meta).elim [] File.durable), (Bytes.ofU64 lsn).take n⟩) ∨
  s'.fs.file .meta = some ⟨Bytes.ofU64 lsn, Bytes.ofU64 lsn⟩ ∧
    (s'.fs.file .log = some f ∨ lsn ≥ s.mem.currentLsn ∧
      (s'.fs.file .log = some ⟨f.durable, []⟩ ∨ s'.fs.file .log = some ⟨[], []⟩))

theorem safe_checkpoint {s : WalState} {f : File} {pos : Nat} (log : LogIs s f pos)
    (lsn : UInt64) :
    Safe (walMachine faulty) (CheckpointPost lsn s f pos) (CheckpointCut lsn s f)
      (checkpoint lsn) s := by
  rw [checkpoint, safe_bind, Proc.safe_load, thenSafe_ok, safe_bind, Proc.safe_save,
    thenSafe_ok, safe_bind]
  obtain ⟨fs, hfs⟩ : ∃ fs, fs = s.fs.emptied .meta := ⟨_, rfl⟩
  obtain ⟨old, hold⟩ : ∃ old, old = (s.fs.file .meta).elim [] File.durable := ⟨_, rfl⟩
  have log₁ : fs.file .log = some f := by
    rw [hfs, Fs.file_emptied, if_neg (by simp), log.file]
  have cursor₁ : fs.cursor .log = pos := by
    rw [hfs, Fs.cursor_emptied, if_neg (by simp), log.cursor]
  have meta₁ : fs.file .meta = some ⟨old, []⟩ := by
    rw [hfs, hold, Fs.file_emptied, if_pos rfl]
  have start₁ : fs.cursor .meta = 0 := by
    rw [hfs, Fs.cursor_emptied, if_pos rfl]
  have written : ∀ new : Bytes, Bytes.writeAt [] 0 new = new := fun new => by simp [Bytes.writeAt]
  have same : LogIs (s.withMem { s.mem with checkpointLsn := lsn }) f pos := ⟨log.file, log.cursor⟩
  refine Proc.safe_truncate hfs ?_ ?_ ?_ ?_
  · exact .inl ⟨log.file, .inl rfl⟩
  · exact .inl ⟨log₁, .inr ⟨0, by simp [meta₁, hold]⟩⟩
  · rw [thenSafe_ok, safe_bind]
    refine Proc.safe_write (f := ⟨old, []⟩) meta₁ ?_ ?_ ?_
    · intro n _
      exact .inl ⟨by simp [log₁], .inr ⟨n, by simp [start₁, written, hold]⟩⟩
    · rw [thenSafe_ok, safe_bind]
      have there : (fs.wrote .meta ⟨old, []⟩ (Bytes.ofU64 lsn)).file .meta =
          some ⟨old, Bytes.ofU64 lsn⟩ := by
        simp [start₁, written]
      refine Proc.safe_sync there ?_ ?_ ?_ ?_
      · exact .inl ⟨by simp [log₁], .inr ⟨8, by
          simp [start₁, written, hold, List.take_of_length_le]⟩⟩
      · exact .inr ⟨by simp, .inl (by simp [log₁])⟩
      · rw [thenSafe_ok]
        refine safe_when (fun covers => ?_) fun notYet => ?_
        · rw [safe_bind]
          refine Proc.safe_setLen (f := f) (by simp [log₁]) (Nat.zero_le _) ?_ ?_ ?_ ?_
          · exact .inr ⟨by simp, .inl (by simp [log₁])⟩
          · exact .inr ⟨by simp, .inr ⟨covers, .inl (by simp)⟩⟩
          · rw [thenSafe_ok, safe_bind]
            refine Proc.safe_seek ?_ ?_
            · rw [thenSafe_ok]
              refine Proc.safe_sync (f := ⟨f.durable, []⟩) (by simp) ?_ ?_ ?_ ?_
              · exact .inr ⟨by simp, .inr ⟨covers, .inl (by simp)⟩⟩
              · exact .inr ⟨by simp, .inr ⟨covers, .inr (by simp)⟩⟩
              · refine ⟨rfl, by simp, ?_⟩
                rw [if_pos covers]
                exact ⟨by simp, by simp⟩
              · exact fun _ => ⟨rfl, .inr ⟨covers, 0, by simp, by simp⟩⟩
            · exact fun _ => ⟨rfl, .inr ⟨covers, pos, by simp, by simp [cursor₁]⟩⟩
          · exact fun _ => ⟨rfl, .inl ⟨by simp [log₁], by simp [cursor₁]⟩⟩
        · refine ⟨rfl, by simp, ?_⟩
          rw [if_neg notYet]
          exact ⟨by simp [log₁], by simp [cursor₁]⟩
      · exact fun _ => ⟨rfl, .inl ⟨by simp [log₁], by simp [cursor₁]⟩⟩
    · exact fun _ n _ => ⟨rfl, .inl ⟨by simp [log₁], by simp [cursor₁]⟩⟩
  · exact fun _ => ⟨rfl, .inl same⟩

/-- Reading the log changes nothing. -/
theorem safe_readUncheckpointedRecords {s : WalState} {f : File} (file : s.fs.file .log = some f)
    (sound : ∀ o, ¬ faulty o) :
    Safe (walMachine faulty)
      (fun r s' => s' = s ∧ r = uncheckpointed env s.mem.checkpointLsn f.data) (fun _ => False)
      (readUncheckpointedRecords env) s := by
  rw [readUncheckpointedRecords, safe_bind]
  refine Proc.safe_exists ?_ fun h => absurd h (sound _)
  rw [thenSafe_ok, file]
  simp only [Option.isSome_some, if_true]
  rw [safe_bind]
  refine Proc.safe_read ?_ (fun absent => ?_) fun h => absurd h (sound _)
  · rintro f' file'
    obtain rfl : f' = f := by simpa [file] using file'.symm
    rw [thenSafe_ok, safe_bind, Proc.safe_load, thenSafe_ok, safe_ofExcept]
    exact ⟨rfl, rfl⟩
  · rw [file] at absent
    cases absent

/-- The log file of a directory, or the empty one that opening creates. -/
def logFile (s : WalState) : File := (s.fs.file .log).getD ⟨[], []⟩

/-- What opening leaves: the whole records of the log, and counters that agree with the files. -/
def OpenPost (env : Env) (s : WalState) : Result Unit → WalState → Prop
  | .ok (), s' => fatal (scan env (logFile s).data).reason = .ok () ∧ SameMeta s s' ∧
      LogIs s' ⟨(logFile s).durable, (logFile s).data.take (scan env (logFile s).data).stop⟩
        (scan env (logFile s).data).stop ∧
      s'.mem = ⟨maxLsn (metaLsn s) ((scan env (logFile s).data).items.map Prod.snd), metaLsn s⟩
  | .error e, _ => fatal (scan env (logFile s).data).reason = .error e

/-- What a crash while opening leaves of the files. -/
def OpenCut (env : Env) (s s' : WalState) : Prop :=
  SameMeta s s' ∧ (s'.fs.file .log = s.fs.file .log ∨ s'.fs.file .log = some (logFile s) ∨
    s'.fs.file .log = some ⟨(logFile s).durable,
      (logFile s).data.take (scan env (logFile s).data).stop⟩)

/-- Some bytes are these whole records and a tail that is none. -/
structure Parsed (env : Env) (content : Bytes) (frames : List (Bytes × WalRecord))
    (tail : Bytes) : Prop where
  eq_append : content = Framing.join frames ++ tail
  isFrame : ∀ f ∈ frames, Framing.IsFrame (WalRecord.next env) f.1 f.2
  stops : tail = [] ∨ ∃ reason, WalRecord.next env tail = .stop reason

theorem exists_parsed (env : Env) (content : Bytes) : ∃ frames tail,
    Parsed env content frames tail := by
  obtain ⟨fs, tail, split, frames, stops⟩ := WalRecord.local_next.exists_join content
  exact ⟨fs, tail, split, frames, stops⟩

namespace Parsed

variable {content more tail tail' : Bytes} {frames frames' : List (Bytes × WalRecord)}

theorem scan_eq (p : Parsed env content frames tail) :
    scan env content = ⟨Framing.locate 0 frames, (Framing.join frames).length,
      Framing.tailReason (WalRecord.next env) tail⟩ := by
  obtain ⟨rfl, isFrame, stops⟩ := p
  have few := Framing.length_le_join fun f hf => (isFrame f hf).nonempty
  rw [scan, Framing.scan_join isFrame stops (by rw [List.length_append]; omega), Nat.zero_add]

theorem items (p : Parsed env content frames tail) :
    (scan env content).items.map Prod.snd = frames.map Prod.snd := by
  rw [p.scan_eq]
  exact Framing.locate_map_snd 0 frames

theorem take_stop (p : Parsed env content frames tail) :
    content.take (scan env content).stop = Framing.join frames := by
  rw [p.scan_eq, p.eq_append]
  exact List.take_left

theorem drop_stop (p : Parsed env content frames tail) :
    content.drop (scan env content).stop = tail := by
  rw [p.scan_eq, p.eq_append]
  exact List.drop_left

theorem nil : Parsed env [] [] [] := ⟨rfl, by simp, .inl rfl⟩

/-- Whole records stay what they are whatever is appended. -/
theorem append (p : Parsed env content frames tail) (q : Parsed env (tail ++ more) frames' tail') :
    Parsed env (content ++ more) (frames ++ frames') tail' where
  eq_append := by
    rw [Framing.join_append, List.append_assoc, ← q.eq_append, ← List.append_assoc, ← p.eq_append]
  isFrame f hf := by
    rcases List.mem_append.1 hf with hf | hf
    · exact p.isFrame f hf
    · exact q.isFrame f hf
  stops := q.stops

/-- The whole records alone. -/
theorem front (p : Parsed env content frames tail) :
    Parsed env (Framing.join frames) frames [] :=
  ⟨(List.append_nil _).symm, p.isFrame, .inl rfl⟩

/-- One encoded put. -/
theorem single {lsn : UInt64} {put : WalPutPayload} {nonce : Nonce} {bytes : Bytes}
    (h : WalRecord.encodePut env lsn put nonce = .ok bytes) :
    Parsed env bytes [(bytes, ⟨lsn, .putObject put⟩)] [] where
  eq_append := by simp [Framing.join]
  isFrame f hf := by
    obtain rfl := List.mem_singleton.1 hf
    exact WalRecord.isFrame_encodePut h
  stops := .inl rfl

end Parsed

theorem scan_stop_le (content : Bytes) : (scan env content).stop ≤ content.length := by
  obtain ⟨frames, tail, p⟩ := exists_parsed env content
  have size := congrArg List.length p.eq_append
  rw [List.length_append] at size
  rw [p.scan_eq]
  simp only
  omega

theorem safe_readCheckpoint (s : WalState) (sound : ∀ o, ¬ faulty o) :
    Safe (walMachine faulty) (fun r s' => s' = s ∧ r = .ok (metaLsn s)) (fun _ => False)
      readCheckpoint s := by
  rw [readCheckpoint, safe_bind]
  refine Proc.safe_exists ?_ fun h => absurd h (sound _)
  rw [thenSafe_ok]
  cases present : s.fs.file .meta with
  | none => exact ⟨rfl, by simp [metaLsn, Fs.data, present]⟩
  | some f =>
    simp only [Option.isSome_some, if_true]
    rw [safe_bind]
    refine Proc.safe_read ?_ (fun absent => ?_) fun h => absurd h (sound _)
    · intro f' file'
      exact ⟨rfl, by simp [metaLsn, Fs.data, file']⟩
    · rw [present] at absent
      cases absent

theorem safe_openWithVault (s : WalState) (sound : ∀ o, ¬ faulty o) :
    Safe (walMachine faulty) (OpenPost env s) (OpenCut env s) (openWithVault env) s := by
  rw [openWithVault, safe_bind]
  refine (safe_readCheckpoint s sound).mono ?_ fun _ => False.elim
  rintro _ s' ⟨same, rfl⟩
  rw [same, thenSafe_ok, safe_bind]
  clear same s'
  obtain ⟨fs, hfs⟩ : ∃ fs, fs = s.fs.opened .log := ⟨_, rfl⟩
  have log₁ : fs.file .log = some (logFile s) := by
    rw [hfs, Fs.file_opened, if_pos rfl, logFile]
  have meta₁ : fs.file .meta = s.fs.file .meta := by
    rw [hfs, Fs.file_opened, if_neg (by simp)]
  refine Proc.safe_create hfs ?_ ?_ ?_ fun h => absurd h (sound _)
  · exact ⟨rfl, .inl rfl⟩
  · exact ⟨meta₁, .inr (.inl log₁)⟩
  rw [thenSafe_ok, safe_bind]
  refine Proc.safe_read ?_ (fun absent => ?_) fun h => absurd h (sound _)
  case refine_2 =>
    rw [Proc.withFs_fs, log₁] at absent
    cases absent
  rintro f file
  obtain rfl : f = logFile s := by simpa [log₁] using file.symm
  rw [thenSafe_ok, safe_bind, safe_ofExcept]
  have within := @scan_stop_le env (logFile s).data
  cases verdict : fatal (scan env (logFile s).data).reason with
  | error e => exact verdict
  | ok _ =>
    rw [thenSafe_ok, safe_bind]
    refine safe_when (fun torn => ?_) fun whole => ?_
    · refine Proc.safe_setLen (f := logFile s) log₁ within ?_ ?_ ?_ fun h => absurd h (sound _)
      · exact ⟨meta₁, .inr (.inl log₁)⟩
      · exact ⟨by simpa [SameMeta] using meta₁, .inr (.inr (by simp))⟩
      · rw [thenSafe_ok, safe_bind]
        refine Proc.safe_seekEnd ?_ fun h => absurd h (sound _)
        rw [thenSafe_ok, Proc.safe_save]
        refine ⟨verdict, by simpa [SameMeta] using meta₁, ⟨by simp, ?_⟩, rfl⟩
        simp [Nat.min_eq_left within]
    · have all : (scan env (logFile s).data).stop = (logFile s).data.length := by omega
      rw [thenSafe_ok, safe_bind]
      refine Proc.safe_seekEnd ?_ fun h => absurd h (sound _)
      rw [thenSafe_ok, Proc.safe_save]
      refine ⟨verdict, by simpa [SameMeta] using meta₁, ⟨?_, ?_⟩, rfl⟩
      · simp [log₁, all]
      · simp [log₁, all]

end OosLite.Wal
