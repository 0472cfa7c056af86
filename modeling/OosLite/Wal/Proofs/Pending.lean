import OosLite.Wal.Proofs.Records

/-!
# What the next open replays

While no operation on its files fails, a put adds one record to those that are to be replayed, until
its checkpoint is on the medium. A power cut between two operations changes nothing of that.
-/

namespace OosLite.Wal

open Files Effect

variable {env : Env} {faulty : FsOp WalPath → Prop}

variable (env) in
/-- The whole records of some bytes. -/
def wholeRecords (content : Bytes) : List WalRecord := (scan env content).items.map Prod.snd

variable (env) in
/-- The whole records of the log of a directory. -/
def logged (fs : Fs WalPath) : List WalRecord := wholeRecords env ((fs.data .log).getD [])

/-- The checkpoint of a directory. -/
def savedLsn (fs : Fs WalPath) : UInt64 := (fs.data .meta).elim 0 checkpointOf

variable (env) in
/-- The records that the next open replays. -/
def replays (fs : Fs WalPath) : List WalRecord := (logged env fs).filter fun r => savedLsn fs < r.lsn

variable (env) in
/-- A directory that keeps its records and its checkpoint in a power cut. -/
structure Firm (fs : Fs WalPath) : Prop where
  intact : Intact env (fun _ => True) fs
  log : ∀ f, fs.file .log = some f →
    f.data <+: f.durable ∧ wholeRecords env f.durable = wholeRecords env f.data
  saved : ∀ f, fs.file .meta = some f → f.Synced

variable (env) in
/-- An open log between two operations. -/
structure Between (s : WalState) : Prop where
  firm : Firm env s.fs
  lists : ∃ frames, Lists env (fun _ => True) frames s
  saved : savedLsn s.fs = s.mem.checkpointLsn

variable (env) in
/-- Whatever a power cut leaves of the files is firm, and of this kind. -/
def CutLeaves (P : Fs WalPath → Prop) (fs : Fs WalPath) : Prop :=
  ∀ fs', fs.PowerCut fs' → Firm env fs' ∧ P fs'

/-! ## Records of a prefix -/

theorem wholeRecords_front {front bytes : Bytes} (h : front <+: bytes) :
    wholeRecords env front <+: wholeRecords env bytes := by
  obtain ⟨more, rfl⟩ := h
  obtain ⟨frames, tail, p⟩ := exists_parsed env front
  obtain ⟨frames', tail', q⟩ := exists_parsed env (tail ++ more)
  unfold wholeRecords
  rw [p.items, (p.append q).items, List.map_append]
  exact List.prefix_append _ _

theorem wholeRecords_between {front bytes whole : Bytes} (h : front <+: bytes) (h' : bytes <+: whole)
    (same : wholeRecords env whole = wholeRecords env front) :
    wholeRecords env bytes = wholeRecords env front := by
  apply (wholeRecords_front h).eq_of_length_le ?_ |>.symm
  rw [← same]
  exact (wholeRecords_front h').length_le

theorem Good.wholeRecords {P : WalRecord → Prop} {frames : List (Bytes × WalRecord)}
    (h : Good env P frames) : wholeRecords env (Framing.join frames) = frames.map Prod.snd :=
  h.parsed.items

theorem wholeRecords_nil : wholeRecords env [] = [] := Parsed.nil.items

theorem prefix_singleton {records : List WalRecord} {r : WalRecord} (h : records <+: [r]) :
    records = [] ∨ records = [r] := by
  obtain ⟨more, split⟩ := h
  cases records with
  | nil => exact .inl rfl
  | cons first rest =>
    rw [List.cons_append, List.cons.injEq, List.append_eq_nil_iff] at split
    exact .inr (by rw [split.1, split.2.1])

/-! ## Directories -/

section Directories

variable {fs fs' : Fs WalPath}

theorem logged_congr (log : fs'.file .log = fs.file .log) : logged env fs' = logged env fs := by
  unfold logged Fs.data
  rw [log]

theorem savedLsn_congr (saved : fs'.file .meta = fs.file .meta) : savedLsn fs' = savedLsn fs := by
  unfold savedLsn Fs.data
  rw [saved]

theorem logged_of_file {f : File} (log : fs.file .log = some f) :
    logged env fs = wholeRecords env f.data := by
  unfold logged Fs.data
  rw [log]
  rfl

theorem logged_of_none (log : fs.file .log = none) : logged env fs = [] := by
  unfold logged Fs.data
  rw [log]
  exact wholeRecords_nil

theorem replays_of_logged_nil (h : logged env fs = []) : replays env fs = [] := by
  unfold replays
  rw [h]
  rfl

/-- With the highest record, nothing is replayed any more. -/
theorem replays_or_mem {r : WalRecord} (there : r ∈ logged env fs)
    (above : ∀ c ∈ logged env fs, c.lsn ≤ r.lsn) : replays env fs = [] ∨ r ∈ replays env fs := by
  unfold replays
  by_cases more : savedLsn fs < r.lsn
  · exact .inr (List.mem_filter.2 ⟨there, decide_eq_true more⟩)
  · left
    rw [List.filter_eq_nil_iff]
    intro c hc
    rw [decide_eq_true_eq]
    exact fun pending => more (UInt64.lt_of_lt_of_le pending (above c hc))

/-- Nothing is replayed exactly if no record is above the checkpoint. -/
theorem replays_eq_nil : replays env fs = [] ↔ ∀ r ∈ logged env fs, r.lsn ≤ savedLsn fs := by
  unfold replays
  simp only [List.filter_eq_nil_iff, decide_eq_true_eq, UInt64.not_lt]

theorem logged_logFile (s : WalState) : logged env s.fs = wholeRecords env (logFile s).data := by
  unfold logFile
  cases there : s.fs.file .log with
  | none => exact (logged_of_none there).trans wholeRecords_nil.symm
  | some f => exact logged_of_file there

theorem Lists.logged {P : WalRecord → Prop} {frames : List (Bytes × WalRecord)} {s : WalState}
    (h : Lists env P frames s) : logged env s.fs = frames.map Prod.snd := by
  obtain ⟨durable, log⟩ := h.log
  rw [logged_of_file log.file]
  exact h.good.wholeRecords

end Directories

namespace Firm

variable {fs fs' : Fs WalPath}

/-- What a power cut leaves. -/
theorem of_cut {P : WalRecord → Prop} (intact : Intact env P fs) (cut : fs.PowerCut fs') :
    Firm env fs' := by
  have synced (p : WalPath) (f : File) (there : fs'.file p = some f) : f.Synced := by
    cases before : fs.file p with
    | none =>
      rw [cut.absent before] at there
      cases there
    | some g =>
      obtain ⟨img, -, image⟩ := cut.present before
      rw [image] at there
      cases there
      rfl
  refine ⟨(intact.powerCut cut).mono fun _ _ => trivial, fun f there => ?_, synced .meta⟩
  have same := synced .log f there
  unfold File.Synced at same
  rw [same]
  exact ⟨List.prefix_rfl, rfl⟩

/-- The checkpoint survives. -/
theorem savedFile (h : Firm env fs) (cut : fs.PowerCut fs') : fs'.file .meta = fs.file .meta := by
  cases there : fs.file .meta with
  | none => exact cut.absent there
  | some f => exact cut.synced there (h.saved f there)

/-- So do the records. -/
theorem logged_cut (h : Firm env fs) (cut : fs.PowerCut fs') : logged env fs' = logged env fs := by
  cases there : fs.file .log with
  | none => rw [logged_of_none there, logged_of_none (cut.absent there)]
  | some f =>
    obtain ⟨img, survives, image⟩ := cut.present there
    obtain ⟨part, same⟩ := h.log f there
    have front : f.data <+: img := survives.2 _ part List.prefix_rfl
    have whole : img <+: f.durable := by
      rcases survives.1 with below | below
      · exact below
      · exact below.trans part
    rw [logged_of_file image, logged_of_file there]
    exact wholeRecords_between front whole same

theorem cutLeaves (h : Firm env fs) :
    CutLeaves env (fun fs' => logged env fs' = logged env fs ∧ savedLsn fs' = savedLsn fs) fs := by
  intro fs' cut
  exact ⟨of_cut h.intact cut, h.logged_cut cut, savedLsn_congr (h.savedFile cut)⟩

/-- The log is cut off behind its whole records. -/
theorem cutOff {s t : WalState} (h : Firm env s.fs) (sameMeta : SameMeta s t) {data : Bytes}
    (file : t.fs.file .log = some ⟨(logFile s).durable, data⟩) (front : data <+: (logFile s).data)
    (same : wholeRecords env data = wholeRecords env (logFile s).data) :
    Firm env t.fs ∧ logged env t.fs = logged env s.fs := by
  have logs : (logFile s).data <+: (logFile s).durable ∧
      wholeRecords env (logFile s).durable = wholeRecords env (logFile s).data := by
    unfold logFile
    cases there : s.fs.file .log with
    | none => exact ⟨List.nil_prefix, rfl⟩
    | some f => exact h.log f there
  obtain ⟨data', durable⟩ := h.intact.logFile
  constructor
  · refine ⟨.of_file file (data'.of_prefix front) durable, ?_, ?_⟩
    · intro f there
      rw [file] at there
      cases there
      exact ⟨front.trans logs.1, logs.2.trans same.symm⟩
    · intro f there
      rw [show t.fs.file .meta = s.fs.file .meta from sameMeta] at there
      exact h.saved f there
  · rw [logged_of_file file, same, logged_logFile]

end Firm

theorem CutLeaves.mono {P Q : Fs WalPath → Prop} {fs : Fs WalPath} (h : CutLeaves env P fs)
    (le : ∀ fs, P fs → Q fs) : CutLeaves env Q fs :=
  fun fs' cut => ⟨(h fs' cut).1, le fs' (h fs' cut).2⟩

/-! ## Operations that do not fail -/

/-- Opening reads the records that are to be replayed. -/
theorem Firm.openWithVault {s : WalState} (h : Firm env s.fs) (sound : ∀ o, ¬ faulty o) :
    Safe (walMachine faulty)
      (fun r t => r = .ok () ∧ Between env t ∧ logged env t.fs = logged env s.fs ∧
        savedLsn t.fs = savedLsn s.fs ∧
        ∀ record, replays env s.fs = [record] → t.mem.currentLsn = record.lsn)
      (fun t => CutLeaves env (fun fs => logged env fs = logged env s.fs ∧
        savedLsn fs = savedLsn s.fs) t.fs) (openWithVault env) s := by
  have taken : wholeRecords env ((logFile s).data.take (scan env (logFile s).data).stop) =
      wholeRecords env (logFile s).data := by
    obtain ⟨frames, tail, p⟩ := exists_parsed env (logFile s).data
    rw [p.take_stop]
    unfold wholeRecords
    rw [p.items, p.front.items]
  apply ((h.intact.openWithVault sound).and (safe_openWithVault s sound)).mono
  · rintro r t ⟨⟨ok, sameMeta, lists⟩, post⟩
    subst ok
    obtain ⟨-, -, log, mem⟩ := post
    obtain ⟨firm, same⟩ := h.cutOff sameMeta log.file (List.take_prefix _ _) taken
    have saved : savedLsn t.fs = metaLsn s := savedLsn_congr sameMeta
    have current : t.mem.currentLsn = maxLsn (metaLsn s) (wholeRecords env (logFile s).data) := by
      rw [mem]
      rfl
    obtain ⟨above, all⟩ := le_maxLsn (metaLsn s) (wholeRecords env (logFile s).data)
    refine ⟨rfl, ⟨firm, lists, ?_⟩, same, savedLsn_congr sameMeta, ?_⟩
    · rw [saved, mem]
    · intro record pending
      have chosen (r : WalRecord) (listed : r ∈ wholeRecords env (logFile s).data)
          (higher : metaLsn s < r.lsn) : r = record := by
        have there : r ∈ replays env s.fs := by
          unfold replays
          rw [logged_logFile]
          exact List.mem_filter.2 ⟨listed, decide_eq_true higher⟩
        rw [pending] at there
        exact List.mem_singleton.1 there
      have there : record ∈ replays env s.fs := by
        rw [pending]
        exact List.mem_singleton_self record
      unfold replays at there
      rw [logged_logFile] at there
      obtain ⟨member, higher⟩ := List.mem_filter.1 there
      have higher : metaLsn s < record.lsn := of_decide_eq_true higher
      have le := all record member
      rw [current]
      rcases maxLsn_mem (metaLsn s) (wholeRecords env (logFile s).data) with start | ⟨r, hr, equal⟩
      · rw [start] at le
        exact absurd (UInt64.lt_of_lt_of_le higher le) (UInt64.lt_irrefl _)
      · rw [equal] at le
        rw [equal, chosen r hr (UInt64.lt_of_lt_of_le higher le)]
  · rintro t ⟨_, sameMeta, file⟩
    have kept : Firm env t.fs ∧ logged env t.fs = logged env s.fs := by
      rcases file with same | file | file
      · refine ⟨⟨h.intact.congr same, ?_, ?_⟩, logged_congr same⟩
        · rw [same]
          exact h.log
        · rw [show t.fs.file .meta = s.fs.file .meta from sameMeta]
          exact h.saved
      · exact h.cutOff sameMeta file List.prefix_rfl rfl
      · exact h.cutOff sameMeta file (List.take_prefix _ _) taken
    have saved : savedLsn t.fs = savedLsn s.fs := savedLsn_congr sameMeta
    rw [← kept.2, ← saved]
    exact kept.1.cutLeaves

/-- A power cut leaves of some records and the front of another one these records, or all of them. -/
theorem wholeRecords_cut {front bytes img : Bytes} {r : WalRecord} {f : File}
    (single : wholeRecords env (front ++ bytes) = wholeRecords env front ++ [r])
    (data : f.data <+: front ++ bytes) (whole : front <+: f.data)
    (durable : front <+: f.durable)
    (vain : wholeRecords env f.durable = wholeRecords env front ∨ f.durable <+: front ++ bytes)
    (survives : f.Survives img) :
    wholeRecords env img = wholeRecords env front ∨
      wholeRecords env img = wholeRecords env front ++ [r] := by
  have kept : front <+: img := survives.2 _ durable whole
  have between (within : img <+: front ++ bytes) : wholeRecords env img = wholeRecords env front ∨
      wholeRecords env img = wholeRecords env front ++ [r] := by
    have front_part : wholeRecords env front <+: wholeRecords env img := wholeRecords_front kept
    obtain ⟨more, split⟩ := front_part
    have part : wholeRecords env img <+: wholeRecords env (front ++ bytes) := wholeRecords_front within
    rw [single, ← split, List.prefix_append_right_inj] at part
    rcases prefix_singleton part with none | last
    · left
      rw [← split, none, List.append_nil]
    · right
      rw [← split, last]
  rcases survives.1 with below | below
  · rcases vain with vain | part
    · exact .inl (wholeRecords_between kept below vain)
    · exact between (below.trans part)
  · exact between (below.trans data)

/-- An append adds its record. In a crash, the record is added, or nothing is. -/
theorem Between.append {s : WalState} (h : Between env s) (sound : ∀ o, ¬ faulty o)
    (put : WalPutPayload) :
    Safe (walMachine faulty)
      (fun r t => Between env t ∧ savedLsn t.fs = savedLsn s.fs ∧
        t.mem.currentLsn = s.mem.currentLsn + 1 ∧
        (∀ lsn, r = .ok lsn → lsn = s.mem.currentLsn + 1 ∧
          logged env t.fs = logged env s.fs ++ [⟨lsn, .putObject put⟩]) ∧
        ∀ e, r = .error e → t.fs = s.fs)
      (fun t => CutLeaves env (fun fs => savedLsn fs = savedLsn s.fs ∧
        (logged env fs = logged env s.fs ∨
          logged env fs = logged env s.fs ++ [⟨s.mem.currentLsn + 1, .putObject put⟩])) t.fs)
      (appendPutAndSync env put) s := by
  obtain ⟨frames, lists⟩ := h.lists
  obtain ⟨durable, log⟩ := lists.log
  have saved {t : WalState} (sameMeta : SameMeta s t) (f : File)
      (there : t.fs.file .meta = some f) : f.Synced := by
    rw [show t.fs.file .meta = s.fs.file .meta from sameMeta] at there
    exact h.firm.saved f there
  apply ((safe_appendPutAndSync log put).and ((lists.append sound fun _ _ _ _ => trivial).and
    (Lists.append_error sound log.file put))).mono
  · rintro r t ⟨post, ⟨sameMeta, lists'⟩, failed⟩
    cases r with
    | ok lsn =>
      obtain ⟨number, mem, -, nonce, bytes, encoded, log'⟩ := post
      obtain ⟨-, -, nonce', bytes', encoded', lists'⟩ := lists'
      have here := lists'.logged
      rw [List.map_append, ← lists.logged] at here
      refine ⟨⟨⟨lists'.intact, ?_, saved sameMeta⟩, ⟨_, lists'⟩, ?_⟩, savedLsn_congr sameMeta, ?_, ?_, ?_⟩
      · intro f there
        rw [log'.file] at there
        cases there
        exact ⟨List.prefix_rfl, rfl⟩
      · rw [savedLsn_congr sameMeta, h.saved, mem]
      · rw [mem, number]
      · intro lsn' ok
        cases ok
        exact ⟨number, here⟩
      · exact fun _ failed => by cases failed
    | error e =>
      have same : t.fs = s.fs := failed e rfl
      refine ⟨⟨by rw [same]; exact h.firm, ⟨_, lists'⟩, ?_⟩, by rw [same], ?_, ?_, fun _ _ => same⟩
      · rw [same, h.saved, post.1]
      · rw [post.1]
      · exact fun _ ok => by cases ok
  · rintro t ⟨⟨sameMeta, nonce, bytes, encoded, file⟩, intact, -⟩ fs cut
    refine ⟨.of_cut intact cut, ?_, ?_⟩
    · rw [savedLsn_congr, savedLsn_congr sameMeta]
      cases there : t.fs.file .meta with
      | none => exact cut.absent there
      | some f => exact cut.synced there (saved sameMeta f there)
    · obtain ⟨within, same⟩ := h.firm.log _ log.file
      have single : wholeRecords env (Framing.join frames ++ bytes) =
          wholeRecords env (Framing.join frames) ++ [⟨s.mem.currentLsn + 1, .putObject put⟩] := by
        have good := lists.good.append_put encoded trivial
        have join : Framing.join frames ++ bytes = Framing.join
            (frames ++ [(bytes, ⟨s.mem.currentLsn + 1, .putObject put⟩)]) := by simp [Framing.join]
        rw [join, good.wholeRecords, lists.good.wholeRecords, List.map_append]
        rfl
      have old : logged env s.fs = wholeRecords env (Framing.join frames) := logged_of_file log.file
      rw [old]
      rcases file with ⟨n, file⟩ | file
      · obtain ⟨img, survives, image⟩ := cut.present file
        rw [logged_of_file image]
        exact wholeRecords_cut (f := ⟨durable, Framing.join frames ++ bytes.take n⟩) single
          ((List.prefix_append_right_inj _).2 (List.take_prefix n bytes))
          (List.prefix_append _ _) within (.inl same) survives
      · obtain ⟨img, survives, image⟩ := cut.present file
        rw [logged_of_file image]
        exact wholeRecords_cut (f := ⟨Framing.join frames ++ bytes, Framing.join frames ++ bytes⟩)
          single List.prefix_rfl (List.prefix_append _ _) (List.prefix_append _ _)
          (.inr List.prefix_rfl) survives

/-- A checkpoint of the last record empties the log. In a crash, the log is as it was, or the
checkpoint is on the medium. -/
theorem Between.checkpoint {s : WalState} (h : Between env s) (sound : ∀ o, ¬ faulty o) (lsn : UInt64) :
    Safe (walMachine faulty)
      (fun ok t => ok = .ok () ∧ Between env t ∧ savedLsn t.fs = lsn ∧
        t.mem.currentLsn = s.mem.currentLsn ∧
        logged env t.fs = if lsn ≥ s.mem.currentLsn then [] else logged env s.fs)
      (fun t => CutLeaves env (fun fs => logged env fs = logged env s.fs ∨
        savedLsn fs = lsn ∧ logged env fs <+: logged env s.fs) t.fs)
      (checkpoint lsn) s := by
  obtain ⟨frames, lists⟩ := h.lists
  obtain ⟨durable, log⟩ := lists.log
  have whole := h.firm.log _ log.file
  have numbered {fs : Fs WalPath} (file : fs.file .meta = some ⟨Bytes.ofU64 lsn, Bytes.ofU64 lsn⟩) :
      savedLsn fs = lsn := by
    unfold savedLsn Fs.data
    rw [file]
    have taken : (Bytes.ofU64 lsn).take 8 = Bytes.ofU64 lsn :=
      List.take_of_length_le (by rw [Bytes.length_ofU64])
    simp [checkpointOf, taken]
  apply ((safe_checkpoint log lsn).and (lists.checkpoint sound lsn)).mono
  · rintro ok t ⟨post, rfl, mem, saved, lists'⟩
    refine ⟨rfl, ⟨⟨lists'.intact, ?_, ?_⟩, ⟨_, lists'⟩, ?_⟩, numbered saved, by rw [mem], ?_⟩
    · intro f there
      obtain ⟨-, -, log'⟩ := post
      by_cases covers : lsn ≥ s.mem.currentLsn
      · rw [if_pos covers] at log'
        rw [log'.file] at there
        cases there
        exact ⟨List.prefix_rfl, rfl⟩
      · rw [if_neg covers] at log'
        rw [log'.file] at there
        cases there
        exact whole
    · intro f there
      rw [saved] at there
      cases there
      rfl
    · rw [mem, numbered saved]
    · rw [lists'.logged]
      split
      · rfl
      · exact lists.logged.symm
  · rintro t ⟨post, intact⟩ fs cut
    refine ⟨.of_cut intact cut, ?_⟩
    have kept (file : t.fs.file .log = some ⟨durable, Framing.join frames⟩) :
        logged env fs = logged env s.fs := by
      obtain ⟨img, survives, image⟩ := cut.present file
      rw [logged_of_file image, logged_of_file log.file]
      have front : Framing.join frames <+: img := survives.2 _ whole.1 List.prefix_rfl
      rcases survives.1 with below | below
      · exact wholeRecords_between front below whole.2
      · exact wholeRecords_between front (below.trans List.prefix_rfl) rfl
    rcases post with ⟨file, -⟩ | ⟨saved, rest⟩
    · exact .inl (kept file)
    · right
      have synced := cut.synced saved rfl
      refine ⟨numbered synced, ?_⟩
      rcases rest with file | ⟨-, file | file⟩
      · rw [kept file]
      · obtain ⟨img, survives, image⟩ := cut.present file
        rw [logged_of_file image, logged_of_file log.file]
        rw [← whole.2]
        apply wholeRecords_front
        rcases survives.1 with below | below
        · exact below
        · exact below.trans List.nil_prefix
      · obtain ⟨img, survives, image⟩ := cut.present file
        rw [logged_of_file image]
        have none : img = [] := by
          rcases survives.1 with below | below
          · exact List.prefix_nil.1 below
          · exact List.prefix_nil.1 below
        rw [none, wholeRecords_nil]
        exact List.nil_prefix

/-- Reading gives the records that are to be replayed. -/
theorem Between.read {s : WalState} (h : Between env s) (sound : ∀ o, ¬ faulty o) :
    Safe (walMachine faulty) (fun r t => t = s ∧ r = .ok (replays env s.fs)) (fun _ => False)
      (readUncheckpointedRecords env) s := by
  obtain ⟨frames, lists⟩ := h.lists
  apply (lists.read sound).mono ?_ fun _ never => never
  rintro r t ⟨same, found⟩
  refine ⟨same, ?_⟩
  rw [found, ← lists.logged, ← h.saved]
  rfl

end OosLite.Wal
