import OosLite.Segment.Proofs.Reopen

/-!
# A compaction that reads its chunks succeeds

Whatever the segments of a store hold: if every reachable chunk of the index can be read, then
`compact_and_reclaim` returns a count.
-/

namespace OosLite

open Files Effect SegmentStore

section Progress

variable {env : Env}

/-- A program that goes through. -/
abbrev Goes {α : Type} (p : SegProg α) (s : SegState) (Q : α → SegState → Prop) : Prop :=
  Safe steady (fun r t => ∃ a, r = .ok a ∧ Q a t) (fun _ => True) p s

theorem Goes.bind {α β : Type} {p : SegProg α} {f : α → SegProg β} {s : SegState}
    {P : α → SegState → Prop} {Q : β → SegState → Prop} (h : Goes p s P)
    (next : ∀ a t, P a t → Goes (f a) t Q) : Goes (p >>= f) s Q := by
  refine Safe.bind h ?_ ?_
  · rintro a t ⟨_, ok, hP⟩
    cases ok
    exact next a t hP
  · rintro e t ⟨_, ok, -⟩
    cases ok

theorem Goes.mono {α : Type} {p : SegProg α} {s : SegState} {P Q : α → SegState → Prop}
    (h : Goes p s P) (le : ∀ a t, P a t → Q a t) : Goes p s Q :=
  Safe.mono h (fun _ t ⟨a, ok, hP⟩ => ⟨a, ok, le a t hP⟩) fun _ h => h

theorem Goes.pure {α : Type} {a : α} {s : SegState} {Q : α → SegState → Prop} (h : Q a s) :
    Goes (Pure.pure a : SegProg α) s Q := ⟨a, rfl, h⟩

theorem Goes.forEach {τ : Type} {step : Unit → τ → SegProg Unit} {xs : List τ} {s : SegState}
    (I : List τ → SegState → Prop) (init : I [] s)
    (body : ∀ done x rest t, done ++ x :: rest = xs → I done t →
      Goes (step () x) t fun _ u => I (done ++ [x]) u) :
    Goes (Prog.forEach step () xs) s fun _ t => I xs t := by
  refine safe_forEach (fun done _ _ t => I done t) init ?_ fun _ t h => ⟨(), rfl, h⟩
  rintro done x rest - t split inv
  refine Safe.mono (body done x rest t split inv) ?_ fun _ h => h
  rintro r u ⟨_, rfl, h⟩
  exact h

/-- What a process sees of all files but one. -/
def SameData (path : SegPath) (fs fs' : Fs SegPath) : Prop :=
  ∀ p, p ≠ path → fs'.data p = fs.data p

theorem isSome_file {fs : Fs SegPath} {p : SegPath} :
    (fs.file p).isSome = (fs.data p).isSome := by
  rw [Fs.data, Option.isSome_map]

/-! ## The writer -/

theorem goes_sync_file {s : SegState} {path : SegPath} (there : (s.fs.data path).isSome) :
    Goes (Proc.sync path) s fun _ t => t.mem = s.mem ∧ ∀ p, t.fs.data p = s.fs.data p := by
  rw [← isSome_file] at there
  obtain ⟨f, hf⟩ := Option.isSome_iff_exists.1 there
  refine Proc.safe_sync hf trivial trivial ⟨(), rfl, rfl, fun p => ?_⟩ fun h => h.elim
  rw [Fs.data, Fs.data, Proc.withFs_fs, Fs.file_put]
  split
  · rename_i same
    rw [← same, hf]
    rfl
  · rfl

theorem goes_create {s : SegState} (path : SegPath) :
    Goes (Proc.create path) s fun _ t => t.mem = s.mem ∧ (t.fs.data path).isSome ∧
      SameData path s.fs t.fs := by
  refine Proc.safe_create rfl trivial trivial ⟨(), rfl, rfl, ?_, fun p hp => ?_⟩ fun h => h.elim
  · rw [Proc.withFs_fs, ← isSome_file, Fs.file_opened, if_pos rfl]
    rfl
  · rw [Proc.withFs_fs, Fs.data, Fs.data, Fs.file_opened, if_neg (Ne.symm hp)]

theorem goes_write {s : SegState} {path : SegPath} (there : (s.fs.data path).isSome) (new : Bytes) :
    Goes (Proc.write path new) s fun _ t => t.mem = s.mem ∧ (t.fs.data path).isSome ∧
      SameData path s.fs t.fs := by
  rw [← isSome_file] at there
  obtain ⟨f, hf⟩ := Option.isSome_iff_exists.1 there
  refine Proc.safe_write hf (fun _ _ => trivial) ⟨(), rfl, rfl, ?_, fun p hp => ?_⟩ fun h => h.elim
  · rw [Proc.withFs_fs, ← isSome_file, Fs.file_wrote, if_pos rfl]
    rfl
  · rw [Proc.withFs_fs, Fs.data, Fs.data, Fs.file_wrote, if_neg (Ne.symm hp)]

theorem goes_writeSome {s : SegState} {path : SegPath} (there : (s.fs.data path).isSome)
    (bytes : Bytes) :
    Goes (SegmentWriter.writeSome path bytes) s fun count t => count = bytes.length ∧
      t.mem = s.mem ∧ (t.fs.data path).isSome ∧ SameData path s.fs t.fs := by
  rw [SegmentWriter.writeSome]
  refine Goes.bind (P := fun count t => count = bytes.length ∧ t = s)
    (Proc.safe_ask.2 fun count all => ⟨count, rfl, all.resolve_right fun h => h.1, rfl⟩) ?_
  rintro count t ⟨all, rfl⟩
  exact (goes_write there _).bind fun _ u h => Goes.pure ⟨all, h⟩

theorem goes_writeAll {s : SegState} {path : SegPath} (there : (s.fs.data path).isSome)
    (bytes : Bytes) :
    Goes (SegmentWriter.writeAll path bytes) s fun _ t =>
      t.mem = s.mem ∧ (t.fs.data path).isSome ∧ SameData path s.fs t.fs := by
  rw [SegmentWriter.writeAll]
  refine (goes_writeSome there bytes).bind ?_
  rintro count t ⟨all, h⟩
  rw [Goes, Prog.when, if_neg (by omega)]
  exact Goes.pure h

/-- `open` goes through, whether the file is new or not. -/
theorem goes_open {s : SegState} (staging : Option Nat) (id resumeOffset maxSegmentSize : Nat) :
    Goes (SegmentWriter.open staging id resumeOffset maxSegmentSize) s fun w t =>
      w.staging = staging ∧ w.currentSegmentId = id ∧ w.isOpen = true ∧ t.mem = s.mem ∧
        (t.fs.data (.segment staging id)).isSome ∧ SameData (.segment staging id) s.fs t.fs := by
  rw [SegmentWriter.open]
  simp only [SegmentWriter.path]
  refine (goes_create _).bind ?_
  rintro _ t ⟨mem, there, same⟩
  refine Goes.bind (P := fun _ u => u.mem = s.mem ∧ (u.fs.data (.segment staging id)).isSome ∧
    SameData (.segment staging id) s.fs u.fs) ?_ fun offset u h => Goes.pure ⟨rfl, rfl, rfl, h⟩
  rw [SegmentWriter.begin]
  split
  · refine Goes.bind (P := fun _ u => u = t) (Proc.safe_ask.2 fun a _ => ⟨a, rfl, rfl⟩) ?_
    rintro createdAt _ rfl
    refine (goes_writeAll there _).bind ?_
    rintro _ u ⟨umem, there', same'⟩
    refine (goes_sync_file there').bind ?_
    rintro _ v ⟨vmem, same''⟩
    refine Goes.pure ⟨?_, ?_, ?_⟩
    · rw [vmem, umem, mem]
    · rw [same'']
      exact there'
    · exact fun p hp => (same'' p).trans ((same' p hp).trans (same p hp))
  · exact Goes.bind (P := fun _ u => u = t.withFs (t.fs.moveTo (.segment staging id) resumeOffset))
      (Proc.safe_seek ⟨_, rfl, rfl⟩ fun h => h.elim) fun _ u hu => by
        subst hu
        exact Goes.pure ⟨mem, there, same⟩

/-- One side of the store has its file open. -/
def Side.Open (side : Side) (s : SegState) : Prop :=
  (s.mem.writer side).isOpen = true ∧ (s.fs.data (s.mem.writer side).path).isSome

section Empty

variable {s : SegState} {side : Side} (h : side.Open s) (empty : (s.mem.writer side).buffer = [])
include h empty

theorem goes_sync : Goes (SegmentWriter.sync side) s fun _ t =>
    t.mem = s.mem ∧ ∀ p, t.fs.data p = s.fs.data p := by
  rw [Goes, SegmentWriter.sync, safe_bind, safe_get, thenSafe_ok]
  refine safe_when (fun _ => ?_) fun closed => absurd h.1 closed
  rw [safe_bind]
  exact safe_flush_empty empty (goes_sync_file h.2)

theorem goes_closeFile : Goes (SegmentWriter.closeFile side) s fun _ t =>
    (∀ side', side' ≠ side → t.mem.writer side' = s.mem.writer side') ∧
      t.mem.index = s.mem.index ∧ ∀ p, t.fs.data p = s.fs.data p := by
  refine safe_closeFile h.1 empty (Goes.mono (goes_sync_file h.2) ?_)
  rintro _ t ⟨mem, same⟩
  refine ⟨fun side' other => ?_, ?_, same⟩
  · rw [mem, Proc.withMem_mem, setWriter_writer, if_neg other]
  · rw [mem, Proc.withMem_mem, setWriter_index]

end Empty

/-! ## The new segments -/

/-- A compaction that copies chunks: what it does not touch is as in `s`. -/
structure Copying (dir : Nat) (s t : SegState) : Prop where
  staging : (t.mem.writer .new).staging = some dir
  opened : Side.Open .new t
  writer : t.mem.writer .own = s.mem.writer .own
  index : t.mem.index .own = s.mem.index .own
  data : ∀ p : SegPath, p.isStaging = false → t.fs.data p = s.fs.data p

theorem SameData.active {dir id : Nat} {fs fs' : Fs SegPath}
    (h : SameData (.segment (some dir) id) fs fs') {p : SegPath} (hp : p.isStaging = false) :
    fs'.data p = fs.data p :=
  h p fun same => by subst same; cases hp

namespace Copying

variable {dir : Nat} {s t u : SegState}

theorem path (h : Copying dir s t) : (t.mem.writer .new).path =
    .segment (some dir) (t.mem.writer .new).currentSegmentId := by
  rw [SegmentWriter.path, h.staging]

/-- What is written to the new segment changes nothing else. -/
theorem wrote (h : Copying dir s t) (mem : u.mem = t.mem)
    (there : (u.fs.data (t.mem.writer .new).path).isSome)
    (others : SameData (t.mem.writer .new).path t.fs u.fs) : Copying dir s u := by
  rw [h.path] at others
  exact ⟨by rw [mem]; exact h.staging, ⟨by rw [mem]; exact h.opened.1, by rw [mem]; exact there⟩,
    by rw [mem]; exact h.writer, by rw [mem]; exact h.index,
    fun p hp => (others.active hp).trans (h.data p hp)⟩

theorem setBuffer (h : Copying dir s t) (buffer : Bytes) :
    Copying dir s (t.withMem (t.mem.setWriter .new { t.mem.writer .new with buffer })) where
  staging := by simpa using h.staging
  opened := ⟨by simpa using h.opened.1, by simpa [SegmentWriter.path] using h.opened.2⟩
  writer := by simpa using h.writer
  index := by simpa using h.index
  data := h.data

theorem flush (h : Copying dir s t) : Goes (SegmentWriter.flush .new) t fun _ u =>
    Copying dir s u ∧ (u.mem.writer .new).buffer = [] ∧
      (u.mem.writer .new).path = (t.mem.writer .new).path := by
  rw [Goes, SegmentWriter.flush, safe_bind, safe_get, thenSafe_ok]
  refine safe_when (fun _ => ?_) fun empty => ⟨(), rfl, h, not_not.1 empty, rfl⟩
  refine (goes_writeSome h.opened.2 _).bind ?_
  rintro count u ⟨all, mem, there, same⟩
  have copying := (h.wrote mem there same).setBuffer []
  rw [Goes, safe_bind, safe_set, thenSafe_ok, Prog.when, if_neg (by omega), all, List.drop_length]
  rw [mem] at copying ⊢
  exact Goes.pure ⟨copying, by simp, by simp [SegmentWriter.path]⟩

theorem sync (h : Copying dir s t) : Goes (SegmentWriter.sync .new) t fun _ u =>
    Copying dir s u ∧ (u.mem.writer .new).buffer = [] := by
  rw [Goes, SegmentWriter.sync, safe_bind, safe_get, thenSafe_ok]
  refine safe_when (fun _ => ?_) fun closed => absurd h.opened.1 closed
  refine h.flush.bind ?_
  rintro _ u ⟨copying, empty, path⟩
  rw [← path]
  refine (goes_sync_file copying.opened.2).mono ?_
  rintro _ v ⟨mem, same⟩
  refine ⟨?_, by rw [mem, empty]⟩
  exact copying.wrote mem (by rw [same]; exact copying.opened.2) fun p _ => same p

theorem bufferedWrite (h : Copying dir s t) (bytes : Bytes) :
    Goes (SegmentWriter.bufferedWrite .new bytes) t fun _ u => Copying dir s u := by
  rw [Goes, SegmentWriter.bufferedWrite, safe_bind, safe_get, thenSafe_ok]
  refine Goes.bind (P := fun _ u => Copying dir s u)
    (safe_when (fun _ => h.flush.mono fun _ _ h => h.1) fun _ => ⟨(), rfl, h⟩) fun _ u h => ?_
  rw [Goes, SegmentWriter.push, safe_bind, safe_get, thenSafe_ok]
  split
  · refine (goes_writeAll h.opened.2 _).mono ?_
    rintro _ v ⟨mem, there, same⟩
    exact h.wrote mem there same
  · rw [safe_set]
    exact ⟨(), rfl, h.setBuffer _⟩

theorem rotate (h : Copying dir s t) :
    Goes (SegmentWriter.rotate .new) t fun _ u => Copying dir s u := by
  rw [SegmentWriter.rotate]
  refine h.sync.bind ?_
  rintro _ u ⟨h, _⟩
  rw [Goes, safe_bind, safe_get, thenSafe_ok]
  refine (goes_open _ _ _ _).bind ?_
  rintro w v ⟨staging, number, isOpen, vmem, there, others⟩
  rw [h.staging] at staging others there
  rw [Goes, safe_set]
  refine ⟨(), rfl, ?_, ⟨?_, ?_⟩, ?_, ?_, fun p hp => ?_⟩
  · simpa using staging
  · simpa using isOpen
  · simpa [SegmentWriter.path, staging, number] using there
  · simp [vmem, h.writer]
  · simp [vmem, h.index]
  · rw [Proc.withMem_fs, others.active hp, h.data p hp]

theorem append (h : Copying dir s t) (c : ChunkId) (d : Bytes) :
    Goes (SegmentWriter.appendChunk env .new c d) t fun _ u => Copying dir s u := by
  rw [SegmentWriter.appendChunk]
  refine Goes.bind (P := fun _ u => u = t) ?_ ?_
  · rw [SegmentWriter.freshNonce]
    split
    · exact Proc.safe_ask.2 fun a _ => ⟨a, rfl, rfl⟩
    · exact Goes.pure rfl
  rintro nonce _ rfl
  rw [Goes, safe_bind, safe_get, thenSafe_ok]
  refine Goes.bind (P := fun _ u => Copying dir s u)
    (safe_when (fun _ => h.rotate) fun _ => ⟨_, rfl, h⟩) fun _ u h => ?_
  rw [Goes, SegmentWriter.writeRecord, safe_bind, safe_get, thenSafe_ok, safe_bind,
    SegmentWriter.file, if_pos h.opened.1, safe_ofExcept, thenSafe_ok]
  refine Goes.bind (P := fun _ v => Copying dir s v) ?_ fun _ v h => ?_
  · exact (h.bufferedWrite _).bind fun _ v h =>
      (h.bufferedWrite _).bind fun _ w h => h.flush.mono fun _ _ h => h.1
  rw [Goes, safe_bind, Proc.safe_load, thenSafe_ok, Proc.safe_save]
  refine ⟨(), rfl, ?_, ⟨?_, ?_⟩, ?_, ?_, h.data⟩
  · simpa using h.staging
  · simpa using h.opened.1
  · simpa [SegmentWriter.path] using h.opened.2
  · simp [h.writer]
  · simp [h.index]

end Copying

/-- Every reachable chunk of the index can be read. -/
def AllRead (env : Env) (reachable : ChunkId → Bool) (s : SegState) : Prop :=
  ∀ (c : ChunkId) (loc : ChunkLocation), (s.mem.index .own)[c]? = some loc → reachable c = true →
    ∃ file d, s.fs.data (.active loc.segmentId) = some file ∧ readRecord env file c loc = .ok d

theorem safe_readChunk_data {s : SegState} {c : ChunkId} {loc : ChunkLocation} {file : Bytes}
    (data : s.fs.data (.active loc.segmentId) = some file) :
    Safe steady (fun r t => t = s ∧ r = readRecord env file c loc) (fun _ => True)
      (readChunk env c loc) s := by
  obtain ⟨f, hf, rfl⟩ := Option.map_eq_some_iff.1 data
  rw [readChunk, safe_bind, safe_handle]
  refine Proc.safe_read (fun f' hf' => ?_) (fun absent => ?_) fun h => h.elim
  · obtain rfl := Option.some.inj (hf.symm.trans hf')
    exact (safe_ofExcept _ _).2 ⟨rfl, rfl⟩
  · rw [hf] at absent
    cases absent

theorem goes_readChunk {s : SegState} {c : ChunkId} {loc : ChunkLocation} {file d : Bytes}
    (data : s.fs.data (.active loc.segmentId) = some file)
    (read : readRecord env file c loc = .ok d) :
    Goes (readChunk env c loc) s fun d' t => d' = d ∧ t = s :=
  (safe_readChunk_data data).mono (fun _ _ ⟨same, ok⟩ => ⟨d, ok.trans read, rfl, same⟩) fun _ h => h

theorem goes_stage {s : SegState} {reachable : ChunkId → Bool} (reads : AllRead env reachable s)
    (dir maxSegmentSize : Nat) :
    Goes (stage env reachable dir maxSegmentSize) s fun _ t =>
      t.mem.writer .own = s.mem.writer .own ∧
        ∀ p : SegPath, p.isStaging = false → t.fs.data p = s.fs.data p := by
  rw [stage]
  refine Goes.bind (P := fun _ t => t.mem = s.mem ∧
    ∀ p : SegPath, p.isStaging = false → t.fs.data p = s.fs.data p) ?_ ?_
  · rw [Goes, Proc.safe_ignore]
    refine Proc.safe_removeAll (fun _ _ => trivial) ⟨(), rfl, rfl, fun p hp => ?_⟩ fun h => h.elim
    have : p.isStagedIn dir = false := by
      cases p <;> first | rfl | cases hp
    rw [Proc.withFs_fs, Fs.data, Fs.data, Fs.file_dropAll, this]
    rfl
  rintro - t ⟨mem, same⟩
  rw [Goes, safe_bind, Proc.safe_load, thenSafe_ok, safe_bind, Proc.safe_save, thenSafe_ok]
  refine (goes_open _ _ _ _).bind ?_
  rintro w u ⟨staging, number, isOpen, umem, there, others⟩
  rw [Goes, safe_bind, safe_set, thenSafe_ok]
  have copying : Copying dir s (u.withMem (u.mem.setWriter .new w)) := by
    refine ⟨?_, ⟨?_, ?_⟩, ?_, ?_, fun p hp => ?_⟩
    · simpa using staging
    · simpa using isOpen
    · simpa [SegmentWriter.path, staging, number] using there
    · simp [umem, mem]
    · simp [umem, mem]
    · exact (others.active hp).trans (same p hp)
  refine Goes.bind (P := fun es v => v = u.withMem (u.mem.setWriter .new w) ∧
    ∀ e ∈ es, (s.mem.index .own)[e.1]? = some e.2) ?_ ?_
  · refine Proc.safe_ask.2 fun es perm => ⟨es, rfl, rfl, fun e he => ?_⟩
    rwa [perm.mem_iff, Std.ExtTreeMap.mem_toList_iff_getElem?_eq_some, mem] at he
  rintro es _ ⟨rfl, entries⟩
  refine Goes.bind (P := fun _ v => Copying dir s v) ?_ ?_
  · refine Goes.forEach (fun _ v => Copying dir s v) copying fun before e rest v split copying => ?_
    obtain ⟨he, reached⟩ := List.mem_filter.1
      (show e ∈ es.filter (fun e => reachable e.1) by rw [← split]; simp)
    obtain ⟨file, d, data, read⟩ := reads e.1 e.2 (entries e he) reached
    rw [← copying.data (.active e.2.segmentId) rfl] at data
    refine Goes.bind (goes_readChunk data read) ?_
    rintro _ _ ⟨rfl, rfl⟩
    exact copying.append e.1 _
  rintro - v copying
  refine copying.sync.bind ?_
  rintro _ u' ⟨copying, empty⟩
  rw [Goes, safe_bind, safe_get, thenSafe_ok]
  refine (goes_closeFile copying.opened empty).bind ?_
  rintro _ v' ⟨writer, _, same''⟩
  refine Goes.pure ⟨?_, fun p hp => ?_⟩
  · rw [writer .own (by simp), copying.writer]
  · rw [same'', copying.data p hp]

/-! ## The swap -/

theorem goes_ignore {s : SegState} {o : FsOp SegPath} :
    Goes (Proc.ignore (Proc.fileOp o)) s fun _ _ => True := by
  rw [Goes, Proc.safe_ignore]
  exact Safe.mono (Maintains.fileOp (J := fun _ => True) (fun _ _ _ _ => trivial) s trivial)
    (fun _ _ _ => ⟨(), rfl, trivial⟩) fun _ h => h

theorem goes_moveIn {s : SegState} (dir : Nat) :
    Goes (moveIn dir) s fun _ _ => True := by
  rw [moveIn]
  refine Goes.bind (P := fun ids t => t = s ∧ ids.Nodup ∧
    ∀ id, id ∈ ids ↔ (s.fs.file (.staging dir id)).isSome) ?_ ?_
  · exact safe_listIds (not_faulty_list tidy_steady) (.staging dir) (fun _ => rfl) (selects_staged dir)
      fun ids nodup mem => ⟨ids, rfl, rfl, nodup, mem⟩
  rintro ids u ⟨rfl, nodup, mem⟩
  refine Goes.bind (P := fun _ _ => True) ?_ fun _ t _ => ?_
  · refine Goes.mono (Goes.forEach (fun done t => ∀ id, id ∉ done →
      t.fs.file (.staging dir id) = u.fs.file (.staging dir id)) (fun _ _ => rfl) ?_) fun _ _ _ => trivial
    intro done id rest t split same
    have fresh : id ∈ ids ∧ id ∉ done := by
      rw [← split] at nodup ⊢
      exact ⟨by simp, fun hb => (List.disjoint_of_nodup_append nodup) hb (by simp)⟩
    obtain ⟨f, hf⟩ := Option.isSome_iff_exists.1 ((mem id).1 fresh.1)
    refine Proc.safe_rename ((same id fresh.2).trans hf) trivial trivial ⟨(), rfl, fun i hi => ?_⟩
      fun h => h.elim
    have other : id ≠ i := fun same => hi (by simp [same])
    have := same i fun hmem => hi (by simp [hmem])
    simp [other, this]
  refine Goes.bind (P := fun _ _ => True) ?_ fun _ v _ => ?_
  · exact goes_ignore
  refine Goes.bind (P := fun _ _ => True) ?_ fun placed w _ => ?_
  · rw [Goes, safe_handle]
    exact safe_listIds (not_faulty_list tidy_steady) .active (fun _ => rfl) selects_active
      fun ids _ _ => ⟨ids, rfl, trivial⟩
  · exact Goes.forEach (fun _ _ => True) trivial fun _ _ _ _ _ _ => goes_ignore

theorem goes_writeMarker (s : SegState) : Goes writeMarker s fun _ _ => True := by
  rw [writeMarker]
  refine Goes.bind (P := fun _ t => (t.fs.data .marker).isSome) ?_ fun _ t there => ?_
  · refine Proc.safe_truncate rfl trivial trivial ⟨(), rfl, ?_⟩ fun h => h.elim
    show (Fs.data _ SegPath.marker).isSome
    rw [← isSome_file]
    simp
  refine (goes_write there _).bind ?_
  rintro _ u ⟨_, there', _⟩
  exact (goes_sync_file there').mono fun _ _ _ => trivial

/-- If every reachable chunk can be read, a compaction goes through. -/
theorem goes_compactAndReclaim {s : SegState} {reachable : ChunkId → Bool}
    (opened : Side.Open .own s) (empty : (s.mem.writer .own).buffer = [])
    (mine : (s.mem.writer .own).staging = none)
    (reads : AllRead env reachable s) :
    Goes (compactAndReclaim env reachable) s fun _ _ => True := by
  rw [compactAndReclaim]
  refine Goes.bind (P := fun _ _ => True) ?_ fun x t _ => ?_
  · rw [prepare]
    refine (goes_sync opened empty).bind ?_
    rintro _ t ⟨mem, same⟩
    rw [Goes, safe_bind, Proc.safe_load, thenSafe_ok]
    refine Goes.bind (P := fun _ u => u = t) (Proc.safe_ask.2 fun es _ => ⟨es, rfl, rfl⟩) ?_
    rintro es u rfl
    split
    · exact Goes.pure trivial
    refine Goes.bind (P := fun _ v => v = u) (Proc.safe_ask.2 fun dir _ => ⟨dir, rfl, rfl⟩) ?_
    rintro dir v rfl
    have reads' : AllRead env reachable v := by
      intro c loc found reached
      rw [mem] at found
      rw [same]
      exact reads c loc found reached
    refine (goes_stage reads' dir _).bind ?_
    rintro w u ⟨writer, same'⟩
    rw [Goes, safe_bind, Proc.safe_load, thenSafe_ok]
    have opened' : Side.Open .own u := by
      rw [Side.Open, writer, mem]
      refine ⟨opened.1, ?_⟩
      have active : (s.mem.writer .own).path.isStaging = false := by
        rw [SegmentWriter.path, mine]
        rfl
      rw [same' _ active, same]
      exact opened.2
    exact (goes_closeFile opened' (by rw [writer, mem, empty])).bind fun _ _ _ => Goes.pure trivial
  cases x with
  | none => exact Goes.pure trivial
  | some x =>
    refine Goes.bind (P := fun _ _ => True) ?_ fun ids u _ => ?_
    · rw [swap]
      refine Goes.bind (P := fun _ _ => True) ?_ fun ids u _ => ?_
      · refine Safe.mono (safe_moveOut tidy_steady fun _ _ _ => trivial) ?_ fun _ h => h
        rintro _ _ ⟨_, ids, ok, _⟩
        exact ⟨ids, ok, trivial⟩
      refine Goes.bind (P := fun _ _ => True) ?_ fun _ v _ =>
        (goes_writeMarker v).bind fun _ _ _ => Goes.pure trivial
      rw [place]
      split
      · exact goes_moveIn x.dir
      · exact goes_ignore
    · rw [finish]
      refine Goes.bind (P := fun _ _ => True) ?_ fun _ v _ => ?_
      · exact Goes.bind (Goes.forEach (fun _ _ => True) trivial fun _ _ _ _ _ _ => goes_ignore)
          fun _ _ _ => goes_ignore
      refine Goes.bind (P := fun _ _ => True) ?_ fun _ _ _ => Goes.pure trivial
      rw [attach, Goes, safe_bind, Proc.safe_load, thenSafe_ok, safe_bind, Proc.safe_save,
        thenSafe_ok]
      split <;> refine (goes_open _ _ _ _).bind fun w t _ => ?_ <;> rw [Goes, safe_set] <;>
        exact ⟨(), rfl, trivial⟩

end Progress

end OosLite
