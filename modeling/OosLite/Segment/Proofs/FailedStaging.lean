import OosLite.Segment.Proofs.BodiesCompaction
import OosLite.Segment.Proofs.Overwriting
import OosLite.Segment.Proofs.SwapCrash

/-!
# Compactions that fail while they copy

What was done to the files when a compaction failed says how far it came: until it closes the file
the store writes to, it has synced that file, and all else was reading, or writing in a staging
directory.
-/

namespace OosLite

open Files Effect SegmentStore

/-- Any operation on files may fail. -/
abbrev brittle := segMachine (fun _ => True) True

/-- What was done to the files of the segments directory, and whether it succeeded. -/
abbrev SegLog := List (FsOp SegPath × Bool)

/-- The machine that notes down what is done to the files. -/
abbrev segRecorder (faulty : FsOp SegPath → Prop) (fails : Prop) :
    Machine (ProcOp SegPath SegmentStore SegQuestion) (ProcOp.Res SegQuestion.Ans) OosLiteError
      (SegState × SegLog) :=
  (segMachine faulty fails).noting Proc.note

/-- An operation that leaves the files of the store and their handles alone. -/
def Aloof (o : FsOp SegPath) : Prop :=
  ∀ p : SegPath, p.isStaging = false → ¬ Fs.Touches o p ∧ ¬ Fs.Moves o p

/-- Since its first operation a run has left the files of the store alone. -/
def Early (log : SegLog) : Prop := ∀ e ∈ log.tail, Aloof e.1

section Definitions

variable (env : Env)

namespace SegmentStore

/-- `compact_and_reclaim` until it closes the store's own file. -/
def beforeClosing (reachable : ChunkId → Bool) : SegProg (Option Compaction) := do
  SegmentWriter.sync .own
  let store ← Proc.load
  let entries ← entries (store.index .own)
  if entries.all fun e => reachable e.1 then return none
  else
    let dir ← Proc.ask SegQuestion.stagingDir
    let maxSegmentSize := (store.writer .own).maxSegmentSize
    let newWriter ← stage env reachable dir maxSegmentSize
    let retainedCount := ((← Proc.load).index .new).size
    return some { dir, newWriter, retainedCount, maxSegmentSize
                  totalBefore := (store.index .own).size }

/-- The rest of `compact_and_reclaim`. -/
def fromClosing : Option Compaction → SegProg Nat
  | none => return 0
  | some x => do
    SegmentWriter.closeFile .own
    let oldFiles ← swap x
    finish x oldFiles

end SegmentStore

end Definitions

section Proofs

variable {env : Env} {faulty : FsOp SegPath → Prop} {fails : Prop}

theorem compactAndReclaim_eq (reachable : ChunkId → Bool) :
    compactAndReclaim env reachable = beforeClosing env reachable >>= fromClosing := by
  rw [compactAndReclaim, prepare, beforeClosing]
  simp only [Prog.bind_assoc]
  congr 1
  funext _
  congr 1
  funext store
  congr 1
  funext listed
  split
  · rfl
  · simp only [Prog.bind_assoc]
    rfl

/-- Of the files of the store one was synced at first, and they were left alone since. -/
def UnderWay (log : SegLog) : Prop :=
  ∃ id ok rest, log = (.sync (.active id), ok) :: rest ∧ ∀ e ∈ rest, Aloof e.1

theorem underWay_first (id : Nat) (ok : Bool) : UnderWay [(.sync (.active id), ok)] :=
  ⟨id, ok, [], rfl, nofun⟩

theorem UnderWay.early {log : SegLog} (h : UnderWay log) : Early log := by
  obtain ⟨id, ok, rest, rfl, aloof⟩ := h
  exact aloof

theorem UnderWay.snoc {log : SegLog} (h : UnderWay log) {o : FsOp SegPath} (aloof : Aloof o) (ok : Bool) :
    UnderWay (log ++ [(o, ok)]) := by
  obtain ⟨id, ok', rest, rfl, all⟩ := h
  refine ⟨id, ok', rest ++ [(o, ok)], rfl, fun e he => ?_⟩
  rw [List.mem_append, List.mem_singleton] at he
  rcases he with he | rfl
  · exact all e he
  · exact aloof

/-- Nothing else was done to the files of the store. -/
theorem UnderWay.not_mem {log : SegLog} (h : UnderWay log) {o : FsOp SegPath} {p : SegPath}
    (own : p.isStaging = false) (touches : Fs.Touches o p) (other : ∀ id, o ≠ .sync (.active id))
    (ok : Bool) : (o, ok) ∉ log := by
  obtain ⟨id, ok', rest, rfl, aloof⟩ := h
  intro there
  rcases List.mem_cons.1 there with same | there
  · exact other id (congrArg Prod.fst same)
  · exact (aloof _ there p own).1 touches

/-- A run that came to the file of the store a second time is not at its beginning any more. -/
theorem UnderWay.not_early {log more : SegLog} (h : UnderWay log) {id : Nat} {ok : Bool}
    (grown : log ++ [(.sync (.active id), ok)] <+: more) : ¬ Early more := by
  intro early
  obtain ⟨id', ok', rest, rfl, -⟩ := h
  obtain ⟨later, rfl⟩ := grown
  have mem : (FsOp.sync (SegPath.active id), ok) ∈
      ((FsOp.sync (SegPath.active id'), ok') :: rest ++ [(FsOp.sync (SegPath.active id), ok)] ++ later).tail := by
    simp
  exact (early _ mem (.active id) rfl).1 rfl

/-! ## The staging -/

/-- An operation on one staged file. -/
theorem aloof_staged {o : FsOp SegPath} {path : SegPath} (staged : path.isStaging = true)
    (only : ∀ p, Fs.Touches o p ∨ Fs.Moves o p → p = path) : Aloof o := by
  intro p own
  have other : p ≠ path := fun same => by rw [same, staged] at own; cases own
  exact ⟨fun touches => other (only p (.inl touches)), fun moves => other (only p (.inr moves))⟩

theorem aloof_read (path : SegPath) : Aloof (.read path) := fun _ _ => ⟨id, id⟩

/-- The store's own files, writer and index are the same, and what the compaction has copied is
reachable and in that index. -/
structure Beside (reachable : ChunkId → Bool) (s t : SegState) : Prop where
  files : ∀ p : SegPath, p.isStaging = false →
    t.fs.file p = s.fs.file p ∧ t.fs.cursor p = s.fs.cursor p
  writer : t.mem.writer .own = s.mem.writer .own
  index : t.mem.index .own = s.mem.index .own
  copied : ∀ c, (t.mem.index .new).contains c = true →
    (s.mem.index .own).contains c = true ∧ reachable c = true

/-- The new writer writes to a staging directory. -/
structure Aside (reachable : ChunkId → Bool) (s t : SegState) : Prop extends
    Beside reachable s t where
  staged : (t.mem.writer .new).staging.isSome = true

theorem SegmentWriter.isStaging_path {w : SegmentWriter} (h : w.staging.isSome = true) :
    w.path.isStaging = true := by
  obtain ⟨dir, same⟩ := Option.isSome_iff_exists.1 h
  rw [SegmentWriter.path, same]
  rfl

section Rules

variable {C : SegState × SegLog → Prop} {u : SegState × SegLog}

theorem safe_noted_get {side : Side} {Q : Result SegmentWriter → SegState × SegLog → Prop} :
    Safe (segRecorder faulty fails) Q C (SegmentWriter.get side) u ↔
      Q (.ok (u.1.mem.writer side)) u := by
  rw [SegmentWriter.get, safe_bind, Proc.safe_noted_load, thenSafe_ok, safe_pure]

theorem safe_noted_set {side : Side} {w : SegmentWriter}
    {Q : Result Unit → SegState × SegLog → Prop} :
    Safe (segRecorder faulty fails) Q C (SegmentWriter.set side w) u ↔
      Q (.ok ()) (u.1.withMem (u.1.mem.setWriter side w), u.2) := by
  rw [SegmentWriter.set, safe_bind, Proc.safe_noted_load, thenSafe_ok, Proc.safe_noted_save]

end Rules

section Frame

variable {reachable : ChunkId → Bool} {s t : SegState}

/-- A step of the staging that leaves the memory alone. -/
abbrev StaysBeside (faulty : FsOp SegPath → Prop) (fails : Prop) (reachable : ChunkId → Bool)
    (s : SegState) {α : Type} (p : SegProg α) : Prop :=
  ∀ mem, Upholds (segRecorder faulty fails)
    (fun u => (Beside reachable s u.1 ∧ u.1.mem = mem) ∧ UnderWay u.2) (fun _ => True) p

namespace StaysBeside

theorem fileOp {o : FsOp SegPath} (aloof : Aloof o) :
    StaysBeside faulty fails reachable s (Proc.fileOp o : SegProg o.Res) := by
  rintro mem u ⟨⟨h, same⟩, begun⟩
  apply Proc.safe_noted_file
  · exact fun _ _ => trivial
  · intro r fs step
    refine ⟨⟨{ h with files := fun p own => ?_ }, same⟩, begun.snoc aloof _⟩
    rw [Proc.withFs_fs, step.leads.untouched (aloof p own).1, step.leads.unmoved (aloof p own).2]
    exact h.files p own

theorem sync {path : SegPath} (staged : path.isStaging = true) :
    StaysBeside faulty fails reachable s (Proc.sync path : SegProg Unit) :=
  fileOp (aloof_staged staged fun _ h => h.elim id False.elim)

theorem ask (q : SegQuestion) :
    StaysBeside faulty fails reachable s (Proc.ask q : SegProg q.Ans) :=
  fun _ _ h => Proc.safe_noted_ask.2 fun _ _ => h

theorem writeSome {path : SegPath} (staged : path.isStaging = true) (bytes : Bytes) :
    StaysBeside faulty fails reachable s (SegmentWriter.writeSome path bytes) := fun mem =>
  .bind (ask _ mem) fun _ => .bind (fileOp (aloof_staged staged fun _ h => h.elim id id) mem)
    fun _ => .pure _

theorem writeAll {path : SegPath} (staged : path.isStaging = true) (bytes : Bytes) :
    StaysBeside faulty fails reachable s (SegmentWriter.writeAll path bytes) := fun mem =>
  .bind (writeSome staged bytes mem) fun _ => .when (.throw _)

theorem begin {path : SegPath} (staged : path.isStaging = true) (segmentId resumeOffset : Nat) :
    StaysBeside faulty fails reachable s (SegmentWriter.begin path segmentId resumeOffset) := by
  intro mem
  rw [SegmentWriter.begin]
  split
  · exact .bind (ask _ mem) fun _ => .bind (writeAll staged _ mem) fun _ => .bind (sync staged mem)
      fun _ => .pure _
  · exact .bind (fileOp (aloof_staged staged fun _ h => h.elim False.elim id) mem) fun _ => .pure _

theorem readChunk (c : ChunkId) (loc : ChunkLocation) :
    StaysBeside faulty fails reachable s (readChunk env c loc) := fun mem =>
  .bind (.handle (fileOp (aloof_read _) mem) fun _ => .throw _) fun _ => .ofExcept _

end StaysBeside

/-- Opening a staged file. -/
theorem safe_open_staged {log : SegLog} (h : Beside reachable s t) (begun : UnderWay log)
    {staging : Option Nat} (staged : staging.isSome = true) (id resumeOffset maxSegmentSize : Nat) :
    Safe (segRecorder faulty fails)
      (fun r u => ((Beside reachable s u.1 ∧ u.1.mem = t.mem) ∧ UnderWay u.2) ∧
        ∀ w, r = .ok w → w.staging = staging)
      (fun _ => True) (SegmentWriter.open staging id resumeOffset maxSegmentSize) (t, log) := by
  have path : (SegPath.segment staging id).isStaging = true := by
    obtain ⟨dir, rfl⟩ := Option.isSome_iff_exists.1 staged
    rfl
  have created : StaysBeside faulty fails reachable s
      (Proc.create (SegPath.segment staging id) : SegProg Unit) :=
    .fileOp (aloof_staged path fun _ h => h.elim (fun same => same) fun same => same)
  rw [SegmentWriter.open]
  apply Safe.bind (created t.mem (t, log) ⟨⟨h, rfl⟩, begun⟩)
  · intro _ u kept
    apply Safe.bind (StaysBeside.begin path id resumeOffset t.mem u kept)
    · exact fun _ v kept => ⟨kept, fun w ok => by cases ok; rfl⟩
    · exact fun e v kept => ⟨kept, fun _ h => by cases h⟩
  · exact fun e u kept => ⟨kept, fun _ h => by cases h⟩

theorem Beside.setWriter (h : Beside reachable s t) {w : SegmentWriter}
    (staged : w.staging.isSome = true) :
    Aside reachable s (t.withMem (t.mem.setWriter .new w)) := by
  refine ⟨⟨h.files, ?_, h.index, h.copied⟩, ?_⟩
  · rw [Proc.withMem_mem, setWriter_writer, if_neg nofun]
    exact h.writer
  · rw [Proc.withMem_mem, setWriter_writer, if_pos rfl]
    exact staged

theorem Aside.congr {u : SegState} (h : Aside reachable s t) (kept : Beside reachable s u)
    (mem : u.mem = t.mem) : Aside reachable s u :=
  ⟨kept, mem ▸ h.staged⟩

/-- A step of the staging. -/
abbrev StaysAside (faulty : FsOp SegPath → Prop) (fails : Prop) (reachable : ChunkId → Bool)
    (s : SegState) {α : Type} (p : SegProg α) : Prop :=
  Upholds (segRecorder faulty fails) (fun u => Aside reachable s u.1 ∧ UnderWay u.2) (fun _ => True) p

namespace StaysAside

theorem ofBeside {α : Type} {p : SegProg α} (hp : StaysBeside faulty fails reachable s p) :
    StaysAside faulty fails reachable s p := by
  rintro u ⟨h, begun⟩
  apply (hp u.1.mem u ⟨⟨h.toBeside, rfl⟩, begun⟩).mono
  · exact fun _ v ⟨⟨kept, mem⟩, begun⟩ => ⟨h.congr kept mem, begun⟩
  · exact fun _ _ => trivial

theorem flush : StaysAside faulty fails reachable s (SegmentWriter.flush .new) := by
  rintro u ⟨h, begun⟩
  rw [SegmentWriter.flush, safe_bind, safe_noted_get, thenSafe_ok]
  apply safe_when
  · intro _
    apply Safe.bind (StaysBeside.writeSome (SegmentWriter.isStaging_path h.staged) _ u.1.mem u
      ⟨⟨h.toBeside, rfl⟩, begun⟩)
    · rintro count v ⟨⟨kept, _⟩, begun⟩
      rw [safe_bind, safe_noted_set, thenSafe_ok]
      have aside := kept.setWriter (w := { u.1.mem.writer .new with
        buffer := (u.1.mem.writer .new).buffer.drop count }) h.staged
      exact safe_when (fun _ => ⟨aside, begun⟩) fun _ => ⟨aside, begun⟩
    · rintro _ v ⟨⟨kept, mem⟩, begun⟩
      exact ⟨h.congr kept mem, begun⟩
  · exact fun _ => ⟨h, begun⟩

theorem bufferedWrite (bytes : Bytes) :
    StaysAside faulty fails reachable s (SegmentWriter.bufferedWrite .new bytes) := by
  have push : StaysAside faulty fails reachable s (SegmentWriter.push .new bytes) := by
    rintro u ⟨h, begun⟩
    rw [SegmentWriter.push, safe_bind, safe_noted_get, thenSafe_ok]
    split
    · exact ofBeside (.writeAll (SegmentWriter.isStaging_path h.staged) bytes) u ⟨h, begun⟩
    · rw [safe_noted_set]
      exact ⟨h.toBeside.setWriter h.staged, begun⟩
  intro u h
  rw [SegmentWriter.bufferedWrite, safe_bind, safe_noted_get, thenSafe_ok]
  exact Upholds.bind (.when flush) (fun _ => push) u h

theorem writeOut (record : RecordHeader × Bytes) :
    StaysAside faulty fails reachable s (SegmentWriter.writeOut env .new record) :=
  Upholds.bind (bufferedWrite _) fun _ => Upholds.bind (bufferedWrite _) fun _ => flush

theorem writerSync : StaysAside faulty fails reachable s (SegmentWriter.sync .new) := by
  intro u h
  rw [SegmentWriter.sync, safe_bind, safe_noted_get, thenSafe_ok]
  have staged := SegmentWriter.isStaging_path h.1.staged
  exact Upholds.when (.bind flush fun _ => ofBeside (.sync staged)) u h

theorem closeFile : StaysAside faulty fails reachable s (SegmentWriter.closeFile .new) := by
  rintro u ⟨h, begun⟩
  rw [SegmentWriter.closeFile, safe_bind, safe_noted_get, thenSafe_ok, safe_bind, safe_noted_set,
    thenSafe_ok]
  have emptied : StaysAside faulty fails reachable s (Prog.handle (SegmentWriter.flush .new) fun e => do
      Proc.ignore (SegmentWriter.flush .new)
      throw e) :=
    .handle flush fun e => .bind (.ignore flush) fun _ => .throw e
  have staged := SegmentWriter.isStaging_path h.staged
  refine Upholds.when (.bind emptied fun _ => ofBeside (.sync staged)) _ ?_
  exact ⟨h.toBeside.setWriter h.staged, begun⟩

theorem rotate : StaysAside faulty fails reachable s (SegmentWriter.rotate .new) := by
  intro u h
  rw [SegmentWriter.rotate]
  apply Safe.bind (writerSync u h)
  · rintro _ v ⟨h, begun⟩
    rw [safe_bind, safe_noted_get, thenSafe_ok]
    apply Safe.bind (safe_open_staged h.toBeside begun h.staged _ _ _)
    · rintro w v ⟨⟨⟨kept, _⟩, begun⟩, staging⟩
      rw [safe_noted_set]
      exact ⟨kept.setWriter (by rw [staging w rfl]; exact h.staged), begun⟩
    · rintro e v ⟨⟨⟨kept, mem⟩, begun⟩, _⟩
      exact ⟨h.congr kept mem, begun⟩
  · exact fun e u h => h

/-- Copying a chunk that the store has. -/
theorem retain (e : ChunkId × ChunkLocation)
    (there : (s.mem.index .own).contains e.1 = true ∧ reachable e.1 = true) :
    StaysAside faulty fails reachable s (retain env e) := by
  have written (data : Bytes) (record : RecordHeader × Bytes) :
      StaysAside faulty fails reachable s (SegmentWriter.writeRecord env .new e.1 data record) := by
    intro u h
    rw [SegmentWriter.writeRecord, safe_bind, safe_noted_get, thenSafe_ok]
    refine Upholds.bind (.ofExcept _) (fun _ => .bind (writeOut record) fun _ => ?_) u h
    rintro v ⟨h, begun⟩
    rw [safe_bind, Proc.safe_noted_load, thenSafe_ok, Proc.safe_noted_save]
    refine ⟨⟨⟨h.files, ?_, ?_, fun c copied => ?_⟩, ?_⟩, begun⟩
    · simpa using h.writer
    · simpa using h.index
    · simp only [Proc.withMem_mem, setIndex_index, setWriter_index, if_pos,
        Std.ExtTreeMap.contains_insert, Bool.or_eq_true] at copied
      rcases copied with same | copied
      · rwa [← Std.LawfulEqOrd.eq_of_compare (beq_iff_eq.1 same)]
      · exact h.copied c copied
    · simpa using h.staged
  have nonce : StaysAside faulty fails reachable s (SegmentWriter.freshNonce env) := by
    rw [SegmentWriter.freshNonce]
    split
    · exact ofBeside (.ask _)
    · exact .pure _
  refine .bind (ofBeside (.readChunk e.1 e.2)) fun data => .bind nonce fun nonce u h => ?_
  rw [safe_bind, safe_noted_get, thenSafe_ok]
  exact Upholds.bind (.when rotate) (fun _ => written data _) u h

end StaysAside

/-- Steps 1 to 3. -/
theorem safe_stage_beside {log : SegLog} (begun : UnderWay log) (dir maxSegmentSize : Nat) :
    Safe (segRecorder faulty fails) (fun _ u => Beside reachable s u.1 ∧ UnderWay u.2) (fun _ => True)
      (stage env reachable dir maxSegmentSize) (s, log) := by
  have cleared : Aloof (.removeAll (SegPath.isStagedIn dir)) := by
    intro p own
    refine ⟨fun touches => ?_, id⟩
    cases p with
    | staging d id => cases own
    | active id | old id | marker => cases touches
  rw [stage, safe_bind, Proc.safe_ignore]
  apply Proc.safe_noted_file
  · exact fun _ _ => trivial
  intro r fs step
  rw [thenSafe_ok, safe_bind, Proc.safe_noted_load, thenSafe_ok, safe_bind, Proc.safe_noted_save,
    thenSafe_ok]
  obtain ⟨t, ht⟩ : ∃ t, t = (s.withFs fs).withMem (s.mem.setIndex .new ∅) := ⟨_, rfl⟩
  have emptied : Beside reachable s t := by
    refine ⟨fun p own => ?_, ?_, ?_, fun c copied => ?_⟩
    · rw [ht, Proc.withMem_fs, Proc.withFs_fs]
      exact ⟨step.leads.untouched (cleared p own).1, step.leads.unmoved (cleared p own).2⟩
    · rw [ht]
      rfl
    · rw [ht, Proc.withMem_mem, setIndex_index, if_neg (by decide)]
    · rw [ht, Proc.withMem_mem, setIndex_index, if_pos rfl] at copied
      simp at copied
  change Safe _ _ _ _ ((s.withFs fs).withMem (s.mem.setIndex .new ∅), _)
  rw [← ht]
  apply Safe.bind (safe_open_staged emptied (begun.snoc cleared _) (Option.isSome_some (a := dir)) 1 0
    maxSegmentSize)
  swap
  · rintro e u ⟨⟨⟨kept, _⟩, begun⟩, _⟩
    exact ⟨kept, begun⟩
  rintro w u ⟨⟨⟨kept, mem⟩, begun⟩, staging⟩
  rw [safe_bind, safe_noted_set, thenSafe_ok, safe_bind, entries]
  apply Proc.safe_noted_ask.2
  intro listed perm
  rw [thenSafe_ok]
  have aside : Aside reachable s (u.1.withMem (u.1.mem.setWriter .new w)) :=
    kept.setWriter (by rw [staging w rfl]; rfl)
  have there (e : ChunkId × ChunkLocation) (he : e ∈ listed.filter fun e => reachable e.1) :
      (s.mem.index .own).contains e.1 = true ∧ reachable e.1 = true := by
    obtain ⟨he, reached⟩ := List.mem_filter.1 he
    have mem := (perm.mem_iff).1 he
    rw [Proc.withFs_mem, Std.ExtTreeMap.mem_toList_iff_getElem?_eq_some] at mem
    rw [Std.ExtTreeMap.contains_eq_isSome_getElem?, mem]
    exact ⟨rfl, reached⟩
  have copied : StaysAside faulty fails reachable s
      (Prog.forEach (fun _ e => SegmentStore.retain env e) () (listed.filter fun e => reachable e.1)) :=
    .forEach (fun _ e he => StaysAside.retain e (there e he)) ()
  apply Safe.bind (copied (u.1.withMem (u.1.mem.setWriter .new w), u.2) ⟨aside, begun⟩)
  swap
  · exact fun e v h => ⟨h.1.toBeside, h.2⟩
  intro _ v h
  apply Safe.bind (StaysAside.writerSync v h)
  swap
  · exact fun e v h => ⟨h.1.toBeside, h.2⟩
  intro _ v h
  rw [safe_bind, safe_noted_get, thenSafe_ok]
  apply Safe.bind (StaysAside.closeFile v h)
  · exact fun _ v h => ⟨h.1.toBeside, h.2⟩
  · exact fun e v h => ⟨h.1.toBeside, h.2⟩

theorem Beside.sameOld (h : Beside reachable s t) : SameOld s.fs t.fs :=
  ⟨fun _ => (h.files _ rfl).1, (h.files _ rfl).1⟩

/-- The store is attached to its files as before. -/
theorem Beside.attached (h : Beside reachable s t) {L : Layout env} {n k : Nat}
    (attached : Attached .own none s L n k) : Attached .own none t L n k := by
  have same (id : Nat) := h.files (.segment none id) rfl
  obtain ⟨seg, f, m, hseg, hf, data, cursor, writer⟩ := attached.writer
  refine ⟨attached.disk.congr fun id => (same id).1, h.index ▸ attached.index, seg, f, m, hseg, ?_,
    data, ?_, h.writer.trans writer⟩
  · rw [(same n).1, hf]
  · rw [(same n).2, cursor]

/-- What a compaction has left when it comes to the closing of the store's file, or fails before. -/
structure AtClosing (L : Layout env) (n : Nat) (s t : SegState) (log : SegLog) : Prop where
  attached : ∃ k, Attached .own none t L n k
  old : SameOld s.fs t.fs
  data : ∀ id, t.fs.data (.active id) = s.fs.data (.active id)
  writer : t.mem.writer .own = s.mem.writer .own
  index : t.mem.index .own = s.mem.index .own
  underWay : UnderWay log

theorem AtClosing.beside {L : Layout env} {n : Nat} {u : SegState} {log log' : SegLog}
    (h : AtClosing L n s t log) (beside : Beside reachable t u) (underWay : UnderWay log') :
    AtClosing L n s u log' where
  attached := h.attached.imp fun _ attached => beside.attached attached
  old := h.old.trans beside.sameOld
  data id := by rw [Fs.data, (beside.files (.active id) rfl).1]; exact h.data id
  writer := beside.writer.trans h.writer
  index := beside.index.trans h.index
  underWay := underWay

/-- What the copying hands on: reachable chunks of the store, where there are others. -/
structure CopiedSome (reachable : ChunkId → Bool) (s t : SegState) : Prop where
  some : ∀ c, (t.mem.index .new).contains c = true →
    (s.mem.index .own).contains c = true ∧ reachable c = true
  notAll : ∃ c, (s.mem.index .own).contains c = true ∧ reachable c = false

/-- The first sync. -/
theorem safe_first_sync {L : Layout env} {n k : Nat} (attached : Attached .own none s L n k) :
    Safe (segRecorder faulty fails) (fun _ u => AtClosing L n s u.1 u.2 ∧ u.1.mem = s.mem)
      (fun _ => True) (SegmentWriter.sync .own) (s, []) := by
  obtain ⟨seg, f, m, hseg, hf, data, cursor, writer⟩ := attached.writer
  have empty : ¬ (s.mem.writer .own).buffer ≠ [] := by simp [writer]
  rw [SegmentWriter.sync, safe_bind, safe_noted_get, thenSafe_ok]
  apply safe_when
  swap
  · exact fun closed => absurd (by rw [writer]) closed
  intro _
  rw [safe_bind, SegmentWriter.flush, safe_bind, safe_noted_get, thenSafe_ok]
  apply safe_when (fun some => absurd some empty)
  intro _
  rw [thenSafe_ok, writer]
  refine safe_noting_perform.2 (Proc.safe_sync hf trivial trivial ?_ fun _ => ?_)
  · have file : (s.fs.put (.active n) ⟨f.data, f.data⟩).file (.active n) = some seg.whole := by
      rw [Fs.file_put, if_pos rfl, data]
      rfl
    have others (p : SegPath) (hp : p ≠ .segment none n) :
        (s.fs.put (.active n) ⟨f.data, f.data⟩).file p = s.fs.file p := by
      have other : SegPath.active n ≠ p := Ne.symm hp
      rw [Fs.file_put, if_neg other]
    have synced := attached.synced (t := s.withFs (s.fs.put (.active n) ⟨f.data, f.data⟩)) rfl rfl
      rfl hseg others file
    have old (id : Nat) : SegPath.old id ≠ .active n := fun same => by cases same
    have marker : SegPath.marker ≠ .active n := fun same => by cases same
    refine ⟨⟨⟨_, synced.1⟩, ⟨fun id => others _ (old id), others _ marker⟩, fun id => ?_, rfl, rfl,
      underWay_first n _⟩, rfl⟩
    rw [Proc.withFs_fs, Fs.data, Fs.data, Fs.file_put]
    split
    · rename_i same
      rw [← same]
      exact (congrArg (Option.map File.data) hf).symm
    · rfl
  · exact ⟨⟨⟨k, attached⟩, ⟨fun _ => rfl, rfl⟩, fun _ => rfl, rfl, rfl, underWay_first n _⟩, rfl⟩

/-- Until the store's own file is closed, nothing of the store changes. -/
theorem safe_beforeClosing {L : Layout env} {n k : Nat} (attached : Attached .own none s L n k) :
    Safe (segRecorder faulty fails)
      (fun r u => AtClosing L n s u.1 u.2 ∧ ∀ x, r = .ok (some x) → CopiedSome reachable s u.1)
      (fun _ => True) (beforeClosing env reachable) (s, []) := by
  rw [beforeClosing]
  apply Safe.bind (safe_first_sync attached)
  swap
  · exact fun e u h => ⟨h.1, fun _ ok => by cases ok⟩
  rintro _ u ⟨kept, mem⟩
  rw [safe_bind, Proc.safe_noted_load, thenSafe_ok, safe_bind, entries]
  apply Proc.safe_noted_ask.2
  intro listed perm
  rw [thenSafe_ok]
  split
  · exact ⟨kept, fun _ h => by cases h⟩
  rename_i notAll
  rw [safe_bind]
  apply Proc.safe_noted_ask.2
  intro dir _
  rw [thenSafe_ok]
  apply Safe.bind (safe_stage_beside kept.underWay dir _)
  · rintro w v ⟨beside, underWay⟩
    rw [safe_bind, Proc.safe_noted_load, thenSafe_ok]
    refine ⟨kept.beside beside underWay, fun x _ => ⟨fun c copied => ?_, ?_⟩⟩
    · rw [← mem]
      exact beside.copied c copied
    · simp only [List.all_eq_true, not_forall, Bool.not_eq_true] at notAll
      obtain ⟨e, he, unreached⟩ := notAll
      have there := (perm.mem_iff).1 he
      rw [mem, Std.ExtTreeMap.mem_toList_iff_getElem?_eq_some] at there
      refine ⟨e.1, ?_, unreached⟩
      rw [Std.ExtTreeMap.contains_eq_isSome_getElem?, there]
      rfl
  · exact fun e v h => ⟨kept.beside h.1 h.2, fun _ ok => by cases ok⟩

end Frame

end Proofs

end OosLite
