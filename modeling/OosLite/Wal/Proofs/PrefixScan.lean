import OosLite.Wal.Proofs.FailedAppends

/-!
# Opening a log that was cut off

Puts and checkpoints encoded one after the other, of which some prefix is left: opening keeps the
records that are wholly there, and nothing else.
-/

namespace OosLite.Wal

open Files Effect

section Prefix

variable {env : Env}

variable (env) in
/-- The bytes of each of these records are what encoding it gave. -/
def Encoded (frames : List (Bytes × WalRecord)) : Prop :=
  ∀ f ∈ frames, ∃ nonce, WalRecord.encodeWithVault env f.2 nonce = .ok f.1

/-- The records whose encodings lie wholly within so many bytes of a log. -/
def kept (count : Nat) (frames : List (Bytes × WalRecord)) : List WalRecord :=
  (Framing.whole count frames).map Prod.snd

/-- The length of their encodings. -/
def keptLength (count : Nat) (frames : List (Bytes × WalRecord)) : Nat :=
  (Framing.join (Framing.whole count frames)).length

/-- A prefix of encoded records is the records within it and a tail that is none. -/
theorem Encoded.parsed {frames : List (Bytes × WalRecord)} (encoded : Encoded env frames)
    {content : Bytes} (part : content <+: Framing.join frames) :
    ∃ tail, Parsed env content (Framing.whole content.length frames) tail ∧
      (tail = [] ∨ ∃ reason, WalRecord.next env tail = .stop reason ∧ tolerated reason = true) := by
  obtain ⟨tail, after, split, bytes, torn⟩ := Framing.prefix_whole part
  have isFrame : ∀ f ∈ Framing.whole content.length frames,
      Framing.IsFrame (WalRecord.next env) f.1 f.2 := by
    intro f hf
    obtain ⟨nonce, written⟩ := encoded f (Framing.mem_of_mem_whole hf)
    exact WalRecord.isFrame_encodeWithVault written
  -- the part of a record behind the whole ones is one both loops take for the end of the log
  have stops : tail = [] ∨
      ∃ reason, WalRecord.next env tail = .stop reason ∧ tolerated reason = true := by
    rcases torn with rfl | ⟨f, rest, rfl, within, short⟩
    · exact .inl rfl
    · have member : f ∈ frames := by
        rw [split]
        exact List.mem_append_right _ List.mem_cons_self
      obtain ⟨nonce, written⟩ := encoded f member
      refine .inr ⟨_, WalRecord.next_part_encodeWithVault written within short, ?_⟩
      by_cases header : tail.length < walHeaderSize
      · rw [if_pos header]
        rfl
      · rw [if_neg header]
        rfl
  refine ⟨tail, ⟨bytes, isFrame, ?_⟩, stops⟩
  rcases stops with rfl | ⟨reason, stop, -⟩
  · exact .inl rfl
  · exact .inr ⟨reason, stop⟩

theorem fatal_tailReason {tail : Bytes} (stops : tail = [] ∨ ∃ reason,
    WalRecord.next env tail = .stop reason ∧ tolerated reason = true) :
    fatal (Framing.tailReason (WalRecord.next env) tail) = .ok () := by
  rcases stops with rfl | ⟨reason, stop, quiet⟩
  · rfl
  · unfold Framing.tailReason
    by_cases empty : tail.isEmpty = true
    · rw [if_pos empty]
      rfl
    · rw [if_neg empty, stop]
      cases reason with
      | partialHeader => rfl
      | badMagic => rfl
      | failed e => exact if_pos quiet

theorem maxLsn_mem (start : UInt64) (records : List WalRecord) :
    maxLsn start records = start ∨ ∃ r ∈ records, maxLsn start records = r.lsn := by
  induction records generalizing start with
  | nil => exact .inl rfl
  | cons r records ih =>
    unfold maxLsn at ih ⊢
    rw [List.foldl_cons]
    by_cases higher : r.lsn > start
    · rw [if_pos higher]
      rcases ih r.lsn with h | ⟨q, hq, h⟩
      · exact .inr ⟨r, List.mem_cons_self, h⟩
      · exact .inr ⟨q, List.mem_cons_of_mem r hq, h⟩
    · rw [if_neg higher]
      rcases ih start with h | ⟨q, hq, h⟩
      · exact .inl h
      · exact .inr ⟨q, List.mem_cons_of_mem r hq, h⟩

theorem le_maxLsn (start : UInt64) (records : List WalRecord) :
    start ≤ maxLsn start records ∧ ∀ r ∈ records, r.lsn ≤ maxLsn start records := by
  induction records generalizing start with
  | nil => exact ⟨UInt64.le_refl start, fun r hr => absurd hr List.not_mem_nil⟩
  | cons r records ih =>
    unfold maxLsn at ih ⊢
    rw [List.foldl_cons]
    by_cases higher : r.lsn > start
    · rw [if_pos higher]
      obtain ⟨first, later⟩ := ih r.lsn
      refine ⟨UInt64.le_trans (UInt64.le_of_lt higher) first, fun q hq => ?_⟩
      rcases List.mem_cons.1 hq with rfl | hq
      · exact first
      · exact later q hq
    · rw [if_neg higher]
      obtain ⟨first, later⟩ := ih start
      refine ⟨first, fun q hq => ?_⟩
      rcases List.mem_cons.1 hq with rfl | hq
      · exact UInt64.le_trans (UInt64.not_lt.1 higher) first
      · exact later q hq

/-- The highest of a number and those of some records. -/
def IsMaxLsn (lsn start : UInt64) (records : List WalRecord) : Prop :=
  (lsn = start ∨ ∃ r ∈ records, lsn = r.lsn) ∧ start ≤ lsn ∧ ∀ r ∈ records, r.lsn ≤ lsn

/-- What opening the first `count` bytes of encoded records leaves. -/
structure Kept (env : Env) (s s' : WalState) (count : Nat) (frames : List (Bytes × WalRecord)) :
    Prop where
  log : s'.fs.data .log = some ((Framing.join frames).take (keptLength count frames))
  sameMeta : SameMeta s s'
  cursor : s'.fs.cursor .log = keptLength count frames
  checkpointLsn : s'.mem.checkpointLsn = metaLsn s
  currentLsn : IsMaxLsn s'.mem.currentLsn (metaLsn s) (kept count frames)
  /-- Reading gives the records above the checkpoint. -/
  read : Ends (faultyWal noFaults) (readUncheckpointedRecords env) s' fun r s'' =>
    r = .ok ((kept count frames).filter fun record => metaLsn s < record.lsn) ∧ s'' = s'
  /-- Opening once more changes nothing. -/
  again : Ends (faultyWal noFaults) (openWithVault env) s' fun r s'' =>
    r = .ok () ∧ (∀ path, s''.fs.file path = s'.fs.file path) ∧
      s''.fs.cursor .log = s'.fs.cursor .log ∧ s''.mem = s'.mem

/-- What opening whole records leaves. -/
theorem openPost_parsed {s s' : WalState} {r : Result Unit} (post : OpenPost env s r s')
    {frames : List (Bytes × WalRecord)} {tail : Bytes}
    (parsed : Parsed env (logFile s).data frames tail)
    (stops : tail = [] ∨ ∃ reason, WalRecord.next env tail = .stop reason ∧ tolerated reason = true) :
    r = .ok () ∧ SameMeta s s' ∧
      LogIs s' ⟨(logFile s).durable, Framing.join frames⟩ (Framing.join frames).length ∧
      s'.mem = ⟨maxLsn (metaLsn s) (frames.map Prod.snd), metaLsn s⟩ := by
  have opens := fatal_tailReason stops
  have stop : (scan env (logFile s).data).stop = (Framing.join frames).length := by
    rw [parsed.scan_eq]
  have reason : (scan env (logFile s).data).reason =
      Framing.tailReason (WalRecord.next env) tail := by
    rw [parsed.scan_eq]
  cases r with
  | error e =>
    unfold OpenPost at post
    rw [reason, opens] at post
    cases post
  | ok _ =>
    obtain ⟨-, sameMeta, log, mem⟩ := post
    rw [parsed.take_stop, stop] at log
    rw [parsed.items] at mem
    exact ⟨rfl, sameMeta, log, mem⟩

/-- Opening any prefix of encoded records succeeds and keeps exactly the records within it. -/
theorem opens_kept {s : WalState} {f : File} (file : s.fs.file .log = some f)
    {frames : List (Bytes × WalRecord)} (encoded : Encoded env frames)
    (part : f.data <+: Framing.join frames) :
    Ends (faultyWal noFaults) (openWithVault env) s fun r s' =>
      r = .ok () ∧ Kept env s s' f.data.length frames := by
  refine ((safe_openWithVault s noFaults_sound).ends (total_faultyWal _)).mono fun r s' post => ?_
  have same : logFile s = f := by rw [logFile, file, Option.getD_some]
  obtain ⟨tail, parsed, stops⟩ := encoded.parsed part
  obtain ⟨rfl, sameMeta, log, mem⟩ := openPost_parsed post (by rw [same]; exact parsed) stops
  refine ⟨rfl, ?_⟩
  have front := parsed.front
  have sameLsn := metaLsn_congr sameMeta
  have file' := log.file
  have within : Framing.join (Framing.whole f.data.length frames) =
      (Framing.join frames).take (keptLength f.data.length frames) := by
    have prefix₁ : Framing.join (Framing.whole f.data.length frames) <+: f.data :=
      ⟨tail, parsed.eq_append.symm⟩
    exact List.prefix_iff_eq_take.1 (prefix₁.trans part)
  exact {
    log := by
      rw [Fs.data, file', ← within]
      rfl
    sameMeta := sameMeta
    cursor := log.cursor
    checkpointLsn := by rw [mem]
    currentLsn := by
      rw [mem]
      exact ⟨maxLsn_mem _ _, le_maxLsn _ _⟩
    read := by
      refine ((safe_readUncheckpointedRecords file' noFaults_sound).ends
        (total_faultyWal _)).mono fun r s'' result => ⟨?_, result.1⟩
      rw [result.2, uncheckpointed, front.items, mem]
      simp only [front.scan_eq, Framing.tailReason, List.isEmpty_nil, if_true]
      rfl
    again := by
      refine ((safe_openWithVault s' noFaults_sound).ends (total_faultyWal _)).mono
        fun r s'' post' => ?_
      have same' : logFile s' = ⟨(logFile s).durable,
          Framing.join (Framing.whole f.data.length frames)⟩ := by
        rw [logFile, file', Option.getD_some]
      obtain ⟨rfl, sameMeta', log', mem'⟩ :=
        openPost_parsed post' (by rw [same']; exact front) (.inl rfl)
      refine ⟨rfl, fun path => ?_, by rw [log'.cursor, log.cursor], by rw [mem', mem, sameLsn]⟩
      cases path with
      | log => rw [log'.file, file', same']
      | «meta» => exact sameMeta' }

end Prefix

namespace Sample

/-- A put and a checkpoint, encoded. -/
def encodedRecords : List (Bytes × WalRecord) :=
  [⟨1, .putObject (put "a")⟩, ⟨2, .checkpoint 1⟩].map fun record =>
    ((WalRecord.encodeWithVault env record (answer .nonce)).toOption.getD [], record)

theorem encoded_encodedRecords : Encoded env encodedRecords := by
  have each : ∀ f ∈ encodedRecords,
      WalRecord.encodeWithVault env f.2 (answer .nonce) = .ok f.1 := by decide +kernel
  exact fun f hf => ⟨answer .nonce, each f hf⟩

/-- All of their bytes but the last. -/
def cutOff : File := ⟨[], (Framing.join encodedRecords).dropLast⟩

end Sample

theorem opens_kept_cutOff :
    kept Sample.cutOff.data.length Sample.encodedRecords = [⟨1, .putObject (Sample.put "a")⟩] ∧
      Ends (faultyWal noFaults) (openWithVault Sample.env)
        ⟨Sample.empty.fs.put .log Sample.cutOff, ⟨0, 0⟩⟩ fun r s' =>
          r = .ok () ∧ Kept Sample.env ⟨Sample.empty.fs.put .log Sample.cutOff, ⟨0, 0⟩⟩ s'
            Sample.cutOff.data.length Sample.encodedRecords :=
  ⟨by decide +kernel, opens_kept (by simp) Sample.encoded_encodedRecords
    (List.dropLast_prefix _)⟩

end OosLite.Wal
