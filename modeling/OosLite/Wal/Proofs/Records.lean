import OosLite.Wal.Proofs.PrefixScan

/-!
# The log as a sequence of records

While no operation on its files fails, a running log is whole records, one after the other, and
what a crash leaves of it is the front of such records.
-/

namespace OosLite.Wal

open Files Effect

variable {env : Env} {P : WalRecord → Prop} {faulty : FsOp WalPath → Prop}

variable (env P) in
/-- Encoded records that all have a property. -/
structure Good (frames : List (Bytes × WalRecord)) : Prop where
  encoded : Encoded env frames
  each : ∀ f ∈ frames, P f.2

variable (env P) in
/-- The front of such records. -/
def Front (bytes : Bytes) : Prop := ∃ frames, Good env P frames ∧ bytes <+: Framing.join frames

variable (env P) in
/-- A log that is the front of such records, and was when it was last synced. -/
def Intact (fs : Fs WalPath) : Prop :=
  ∀ f, fs.file .log = some f → Front env P f.data ∧ Front env P f.durable

variable (env P) in
/-- A running log of these records, with its handle behind them. -/
structure Lists (frames : List (Bytes × WalRecord)) (s : WalState) : Prop where
  good : Good env P frames
  intact : Intact env P s.fs
  log : ∃ durable, LogIs s ⟨durable, Framing.join frames⟩ (Framing.join frames).length

namespace Good

variable {frames : List (Bytes × WalRecord)}

theorem nil : Good env P [] := ⟨fun _ h => absurd h List.not_mem_nil, fun _ h => absurd h List.not_mem_nil⟩

theorem mono (h : Good env P frames) {Q : WalRecord → Prop} (le : ∀ r, P r → Q r) :
    Good env Q frames := ⟨h.encoded, fun f hf => le _ (h.each f hf)⟩

theorem whole (h : Good env P frames) (count : Nat) : Good env P (Framing.whole count frames) :=
  ⟨fun f hf => h.encoded f (Framing.mem_of_mem_whole hf),
    fun f hf => h.each f (Framing.mem_of_mem_whole hf)⟩

theorem append_put (h : Good env P frames) {lsn : UInt64} {put : WalPutPayload} {nonce : Nonce}
    {bytes : Bytes} (encoded : WalRecord.encodePut env lsn put nonce = .ok bytes)
    (good : P ⟨lsn, .putObject put⟩) :
    Good env P (frames ++ [(bytes, ⟨lsn, .putObject put⟩)]) := by
  constructor
  · intro f hf
    rcases List.mem_append.1 hf with hf | hf
    · exact h.encoded f hf
    · rw [List.mem_singleton.1 hf]
      exact ⟨nonce, encoded⟩
  · intro f hf
    rcases List.mem_append.1 hf with hf | hf
    · exact h.each f hf
    · rw [List.mem_singleton.1 hf]
      exact good

/-- Whole records are read as they are. -/
theorem parsed (h : Good env P frames) : Parsed env (Framing.join frames) frames [] := by
  refine ⟨(List.append_nil _).symm, fun f hf => ?_, .inl rfl⟩
  obtain ⟨nonce, written⟩ := h.encoded f hf
  exact WalRecord.isFrame_encodeWithVault written

end Good

namespace Front

variable {bytes front : Bytes} {frames : List (Bytes × WalRecord)}

theorem nil : Front env P [] := ⟨[], .nil, List.nil_prefix⟩

theorem of_good (h : Good env P frames) : Front env P (Framing.join frames) :=
  ⟨frames, h, List.prefix_rfl⟩

theorem of_prefix (h : Front env P bytes) (le : front <+: bytes) : Front env P front := by
  obtain ⟨frames, good, part⟩ := h
  exact ⟨frames, good, le.trans part⟩

theorem mono (h : Front env P bytes) {Q : WalRecord → Prop} (le : ∀ r, P r → Q r) :
    Front env Q bytes := by
  obtain ⟨frames, good, part⟩ := h
  exact ⟨frames, good.mono le, part⟩

theorem survives {f : File} (data : Front env P f.data) (durable : Front env P f.durable)
    {img : Bytes} (survives : f.Survives img) : Front env P img := by
  rcases survives.1 with part | part
  · exact durable.of_prefix part
  · exact data.of_prefix part

end Front

namespace Intact

variable {fs fs' : Fs WalPath}

theorem of_file {f : File} (file : fs.file .log = some f) (data : Front env P f.data)
    (durable : Front env P f.durable) : Intact env P fs := by
  intro g hg
  obtain rfl : f = g := Option.some.inj (file.symm.trans hg)
  exact ⟨data, durable⟩

theorem mono (h : Intact env P fs) {Q : WalRecord → Prop} (le : ∀ r, P r → Q r) :
    Intact env Q fs := fun f hf => ⟨(h f hf).1.mono le, (h f hf).2.mono le⟩

theorem congr (h : Intact env P fs) (same : fs'.file .log = fs.file .log) : Intact env P fs' :=
  fun f hf => h f (same ▸ hf)

theorem powerCut (h : Intact env P fs) (cut : fs.PowerCut fs') : Intact env P fs' := by
  intro f hf
  cases there : fs.file .log with
  | none =>
    rw [cut.absent there] at hf
    cases hf
  | some g =>
    obtain ⟨img, survives, image⟩ := cut.present there
    obtain rfl : (⟨img, img⟩ : File) = f := Option.some.inj (image.symm.trans hf)
    have front := Front.survives (h g there).1 (h g there).2 survives
    exact ⟨front, front⟩

theorem logFile {s : WalState} (h : Intact env P s.fs) :
    Front env P (logFile s).data ∧ Front env P (Wal.logFile s).durable := by
  unfold Wal.logFile
  cases there : s.fs.file .log with
  | none => exact ⟨.nil, .nil⟩
  | some f => exact h f there

end Intact

namespace Lists

variable {frames : List (Bytes × WalRecord)} {s : WalState}

theorem mono (h : Lists env P frames s) {Q : WalRecord → Prop} (le : ∀ r, P r → Q r) :
    Lists env Q frames s := ⟨h.good.mono le, h.intact.mono le, h.log⟩

/-- A log of these records by its file. -/
theorem of_log {durable : Bytes} (good : Good env P frames) (front : Front env P durable)
    (log : LogIs s ⟨durable, Framing.join frames⟩ (Framing.join frames).length) :
    Lists env P frames s := ⟨good, .of_file log.file (.of_good good) front, durable, log⟩

/-! ## Operations that do not fail -/

/-- Where no file operation fails, an append fails only when the record cannot be encoded. -/
theorem append_error (sound : ∀ o, ¬ faulty o) {f : File} (file : s.fs.file .log = some f)
    (put : WalPutPayload) :
    Safe (walMachine faulty) (fun r t => ∀ e, r = .error e → t.fs = s.fs) (fun _ => True)
      (appendPutAndSync env put) s := by
  rw [appendPutAndSync, safe_bind, Proc.safe_load, thenSafe_ok, safe_bind, Proc.safe_save,
    thenSafe_ok, safe_bind]
  have nonces : Safe (walMachine faulty) (fun r t => (∃ nonce, r = .ok nonce) ∧ t.fs = s.fs)
      (fun _ => True) (freshNonce env)
      (s.withMem { s.mem with currentLsn := s.mem.currentLsn + 1 }) := by
    unfold freshNonce
    split
    · exact Proc.safe_ask.2 fun nonce _ => ⟨⟨nonce, rfl⟩, rfl⟩
    · exact ⟨⟨_, rfl⟩, rfl⟩
  apply nonces.mono ?_ fun _ _ => trivial
  rintro r t ⟨⟨nonce, ok⟩, same⟩
  rw [ok, thenSafe_ok, safe_bind, safe_ofExcept]
  cases WalRecord.encodePut env (s.mem.currentLsn + 1) put nonce with
  | error e => exact fun _ _ => same
  | ok bytes =>
    rw [thenSafe_ok, safe_bind]
    have there : t.fs.file .log = some f := by rw [same, file]
    apply Proc.safe_write there
    · exact fun _ _ => trivial
    · rw [thenSafe_ok, safe_bind]
      apply Proc.safe_sync (f := { f with data := Bytes.writeAt f.data (t.fs.cursor .log) bytes })
        (by simp)
      · trivial
      · trivial
      · exact fun e failed => by cases failed
      · exact fun fails => absurd fails (sound _)
    · exact fun fails => absurd fails (sound _)

/-- Where no file operation fails, a checkpoint does not fail. -/
theorem checkpoint_ok (sound : ∀ o, ¬ faulty o) {f : File} (file : s.fs.file .log = some f)
    (lsn : UInt64) :
    Safe (walMachine faulty) (fun r _ => r = .ok ()) (fun _ => True) (checkpoint lsn) s := by
  rw [checkpoint, safe_bind, Proc.safe_load, thenSafe_ok, safe_bind, Proc.safe_save,
    thenSafe_ok, safe_bind]
  obtain ⟨fs, hfs⟩ : ∃ fs, fs = s.fs.emptied .meta := ⟨_, rfl⟩
  have log : fs.file .log = some f := by
    rw [hfs, Fs.file_emptied, if_neg (by simp), file]
  obtain ⟨g, saved⟩ : ∃ g, fs.file .meta = some g := by
    rw [hfs, Fs.file_emptied, if_pos rfl]
    exact ⟨_, rfl⟩
  refine Proc.safe_truncate hfs trivial trivial ?_ fun fails => absurd fails (sound _)
  rw [thenSafe_ok, safe_bind]
  refine Proc.safe_write saved (fun _ _ => trivial) ?_ fun fails => absurd fails (sound _)
  rw [thenSafe_ok, safe_bind]
  refine Proc.safe_sync
    (f := { g with data := Bytes.writeAt g.data (fs.cursor .meta) (Bytes.ofU64 lsn) })
    (by simp) trivial trivial ?_ fun fails => absurd fails (sound _)
  rw [thenSafe_ok]
  apply safe_when
  · intro covers
    rw [safe_bind]
    refine Proc.safe_setLen (f := f) (by simp [log]) (Nat.zero_le _) trivial trivial ?_
      fun fails => absurd fails (sound _)
    rw [thenSafe_ok, safe_bind]
    refine Proc.safe_seek ?_ fun fails => absurd fails (sound _)
    rw [thenSafe_ok]
    exact Proc.safe_sync (f := ⟨f.durable, []⟩) (by simp) trivial trivial rfl
      fun fails => absurd fails (sound _)
  · exact fun _ => rfl

/-- An append adds its record, or nothing. -/
theorem append (h : Lists env P frames s) (sound : ∀ o, ¬ faulty o) {put : WalPutPayload}
    (good : ∀ lsn nonce bytes, WalRecord.encodePut env lsn put nonce = .ok bytes →
      P ⟨lsn, .putObject put⟩) :
    Safe (walMachine faulty)
      (fun r t => SameMeta s t ∧ match r with
        | .ok lsn => lsn = s.mem.currentLsn + 1 ∧ t.mem = { s.mem with currentLsn := lsn } ∧
            ∃ nonce bytes, WalRecord.encodePut env lsn put nonce = .ok bytes ∧
              Lists env P (frames ++ [(bytes, ⟨lsn, .putObject put⟩)]) t
        | .error _ => Lists env P frames t)
      (fun t => Intact env P t.fs) (appendPutAndSync env put) s := by
  obtain ⟨durable, log⟩ := h.log
  have front := (h.intact _ log.file).2
  apply ((safe_appendPutAndSync log put).and (append_error sound log.file put)).mono
  · rintro r t ⟨post, failed⟩
    cases r with
    | ok lsn =>
      obtain ⟨number, mem, sameMeta, nonce, bytes, encoded, log'⟩ := post
      have good' := h.good.append_put encoded (good _ _ _ encoded)
      have join : Framing.join frames ++ bytes =
          Framing.join (frames ++ [(bytes, ⟨lsn, .putObject put⟩)]) := by simp [Framing.join]
      simp only [join] at log'
      exact ⟨sameMeta, number, mem, nonce, bytes, encoded, .of_log good' (.of_good good') log'⟩
    | error e =>
      obtain ⟨-, sameMeta, -⟩ := post
      have same : t.fs = s.fs := failed e rfl
      exact ⟨sameMeta, .of_log h.good front
        ⟨by rw [same]; exact log.file, by rw [same]; exact log.cursor⟩⟩
  · rintro t ⟨⟨sameMeta, nonce, bytes, encoded, cut⟩, _⟩
    have good' := h.good.append_put encoded (good _ _ _ encoded)
    have whole : Front env P (Framing.join frames ++ bytes) := by
      have := Front.of_good good'
      simpa [Framing.join] using this
    rcases cut with ⟨n, file⟩ | file
    · apply Intact.of_file file
      · exact whole.of_prefix ((List.prefix_append_right_inj _).2 (List.take_prefix n bytes))
      · exact front
    · exact .of_file file whole whole

/-- A checkpoint leaves the records, or none if it covers them all. -/
theorem checkpoint (h : Lists env P frames s) (sound : ∀ o, ¬ faulty o) (lsn : UInt64) :
    Safe (walMachine faulty)
      (fun r t => r = .ok () ∧ t.mem = { s.mem with checkpointLsn := lsn } ∧
        t.fs.file .meta = some ⟨Bytes.ofU64 lsn, Bytes.ofU64 lsn⟩ ∧
        Lists env P (if lsn ≥ s.mem.currentLsn then [] else frames) t)
      (fun t => Intact env P t.fs) (checkpoint lsn) s := by
  obtain ⟨durable, log⟩ := h.log
  have fronts := h.intact _ log.file
  apply ((safe_checkpoint log lsn).and (checkpoint_ok sound log.file lsn)).mono
  · intro r t ⟨post, ok⟩
    subst ok
    obtain ⟨mem, saved, log'⟩ := post
    refine ⟨rfl, mem, saved, ?_⟩
    by_cases covers : lsn ≥ s.mem.currentLsn
    · rw [if_pos covers] at log' ⊢
      exact .of_log .nil .nil log'
    · rw [if_neg covers] at log' ⊢
      exact .of_log h.good fronts.2 log'
  · intro t ⟨cut, _⟩
    rcases cut with ⟨file, -⟩ | ⟨-, file | ⟨-, file | file⟩⟩
    · exact .of_file file fronts.1 fronts.2
    · exact .of_file file fronts.1 fronts.2
    · exact .of_file file .nil fronts.2
    · exact .of_file file .nil .nil

/-- Reading gives the records above the checkpoint. -/
theorem read (h : Lists env P frames s) (sound : ∀ o, ¬ faulty o) :
    Safe (walMachine faulty)
      (fun r t => t = s ∧
        r = .ok ((frames.map Prod.snd).filter fun record => s.mem.checkpointLsn < record.lsn))
      (fun _ => False) (readUncheckpointedRecords env) s := by
  obtain ⟨durable, log⟩ := h.log
  have parsed := h.good.parsed
  apply (safe_readUncheckpointedRecords log.file sound).mono
  · intro r t ⟨same, result⟩
    refine ⟨same, ?_⟩
    rw [result, uncheckpointed, parsed.items]
    simp only [parsed.scan_eq, Framing.tailReason, List.isEmpty_nil, if_true]
  · exact fun _ never => never

end Lists

/-- Opening what a crash left keeps the whole records, and does not fail. -/
theorem Intact.openWithVault {s : WalState} (h : Intact env P s.fs) (sound : ∀ o, ¬ faulty o) :
    Safe (walMachine faulty)
      (fun r t => r = .ok () ∧ SameMeta s t ∧ ∃ frames, Lists env P frames t)
      (fun t => Intact env P t.fs) (openWithVault env) s := by
  obtain ⟨⟨frames, good, part⟩, durable⟩ := h.logFile
  obtain ⟨tail, parsed, stops⟩ := good.encoded.parsed part
  apply (safe_openWithVault s sound).mono
  · intro r t post
    obtain ⟨ok, sameMeta, log, mem⟩ := openPost_parsed post parsed stops
    exact ⟨ok, sameMeta, _, .of_log (good.whole _) durable log⟩
  · intro t ⟨_, file⟩
    have data := Front.of_prefix (Front.of_good good) part
    rcases file with same | file | file
    · exact h.congr same
    · exact .of_file file data durable
    · exact .of_file file (data.of_prefix (List.take_prefix _ _)) durable

end OosLite.Wal
