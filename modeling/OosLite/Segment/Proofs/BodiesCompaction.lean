import OosLite.Segment.Proofs.Bodies
import OosLite.Segment.Proofs.Compaction
import OosLite.Segment.Proofs.Swap

/-!
# What a compaction leaves behind the headers

A compaction copies chunks to new segments, swaps them in and goes on writing at the end of the last
one. Wherever it fails or is stopped, what is behind the headers stays of one kind.
-/

namespace OosLite

open Files Effect SegmentStore Framing

variable {R : Bytes → Prop} {env : Env} {faulty : FsOp SegPath → Prop} {fails : Prop}

/-! ## Copying -/

/-- The last new segment ends where the writer stopped, and no later one has a body. -/
def Staged (dir : Nat) (w : SegmentWriter) (fs : Fs SegPath) : Prop :=
  ∃ f, fs.file (.staging dir w.currentSegmentId) = some f ∧ w.currentOffset = f.data.length ∧
    segmentHeaderSize ≤ f.data.length ∧ ∀ id g, w.currentSegmentId < id →
      fs.file (.staging dir id) = some g → g.data.length ≤ segmentHeaderSize

theorem Staged.synced {dir : Nat} {w : SegmentWriter} {fs : Fs SegPath} (h : Staged dir w fs) {f : File}
    (hf : fs.file (.staging dir w.currentSegmentId) = some f) :
    Staged dir w (fs.put (.staging dir w.currentSegmentId) ⟨f.data, f.data⟩) := by
  obtain ⟨g, hg, length, long, later⟩ := h
  obtain rfl := Option.some.inj (hf.symm.trans hg)
  refine ⟨⟨f.data, f.data⟩, by simp, length, long, fun id k above hk => later id k above ?_⟩
  rw [Fs.file_put, if_neg] at hk
  · exact hk
  · intro same
    cases same
    omega

theorem safe_readChunk_same (c : ChunkId) (loc : ChunkLocation) (s : SegState) :
    Safe (segMachine faulty fails) (fun _ t => t = s) (fun t => t = s) (readChunk env c loc) s := by
  rw [readChunk, safe_bind, safe_handle]
  apply Proc.safe_read
  · intro f _
    exact (safe_ofExcept (readRecord env f.data c loc) s).2 rfl
  · exact fun _ => rfl
  · exact fun _ => rfl

/-- Both writers append, the new one exactly. -/
structure Copies (R : Bytes → Prop) (dir : Nat) (t : SegState) : Prop where
  bodies : Bodies R t.fs
  own : Writes R False .own none t
  new : Writes R True .new (some dir) t

section Copying

variable {dir : Nat} {s : SegState}

/-- The loop of step 3. -/
theorem safe_retains (content : Content R) (reliable : Reliable faulty) (h : Copies R dir s)
    (grows : ∀ c data nonce, Grows R (chunkRecordBytes env c data nonce))
    (entries : List (ChunkId × ChunkLocation)) :
    Safe (segMachine faulty fails)
      (fun r t => Bodies R t.fs ∧ Writes R False .own none t ∧ (r = .ok () → Copies R dir t))
      (fun t => Bodies R t.fs) (Prog.forEach (fun _ e => retain env e) () entries) s := by
  apply safe_forEach (fun _ _ _ t => Copies R dir t) h
  · intro done e rest _ t _ copies
    rw [retain]
    apply Safe.bind ((safe_readChunk_same e.1 e.2 t).mono (fun _ _ post => post)
      fun u same => same ▸ copies.bodies)
    · intro data u same
      rw [same]
      apply (safe_appendChunk_left content reliable.counted copies.bodies copies.new e.1 data
        (grows e.1 data)).mono
      · intro r v left
        have own := copies.own.apart left.apart
        cases r with
        | error e => exact ⟨left.bodies, own, fun h => by cases h⟩
        | ok _ => exact ⟨left.bodies, own, left.writes.le fun _ => ⟨trivial, rfl⟩⟩
      · exact fun _ kept => kept
    · intro e u same
      rw [same]
      exact ⟨copies.bodies, copies.own, fun h => by cases h⟩
  · exact fun _ t copies => ⟨copies.bodies, copies.own, fun _ => copies⟩

/-- The end of `stage`: the new segments are on the medium. -/
theorem safe_stage_end (content : Content R) (reliable : Reliable faulty) (h : Copies R dir s) :
    Safe (segMachine faulty fails)
      (fun r t => Bodies R t.fs ∧ Writes R False .own none t ∧
        ∀ w, r = .ok w → Staged dir w t.fs)
      (fun t => Bodies R t.fs) (do
        SegmentWriter.sync .new
        let newWriter ← SegmentWriter.get .new
        SegmentWriter.closeFile .new
        return newWriter) s := by
  apply Safe.bind (safe_sync_left content reliable.counted h.bodies h.new)
  · intro _ t ⟨left, flushed⟩
    have own := h.own.apart left.apart
    have empty := flushed rfl
    have path := left.writes.path
    obtain ⟨f, ⟨hf, -⟩, long, -, end_⟩ := left.writes.file
    rw [path] at hf
    have staged : Staged dir (t.mem.writer .new) t.fs := by
      refine ⟨f, hf, ?_, long, left.writes.later⟩
      have := end_ trivial
      rwa [empty, List.length_nil, Nat.add_zero] at this
    rw [safe_bind, safe_get, thenSafe_ok, safe_bind]
    apply safe_closeFile left.writes.isOpen empty
    rw [path]
    obtain ⟨u, hu⟩ : ∃ u, u = t.withMem (t.mem.setWriter .new
        { t.mem.writer .new with isOpen := false }) := ⟨_, rfl⟩
    have apart : Elsewhere .new (some dir) t u := by
      rw [hu]
      refine ⟨fun _ _ => ⟨rfl, rfl⟩, fun side' other => ?_⟩
      rw [Proc.withMem_mem, setWriter_writer, if_neg other]
    have fs : u.fs = t.fs := by rw [hu]; rfl
    have kept : Bodies R u.fs := fs ▸ left.bodies
    rw [← hu]
    have synced := kept.synced (SegPath.segment_ne_marker _ _) (fs ▸ hf)
    apply Proc.safe_sync (fs ▸ hf) kept synced
    · refine ⟨synced, own.apart (apart.trans ⟨fun p hp => ?_, fun _ _ => rfl⟩), fun w ok => ?_⟩
      · rw [Proc.withFs_fs, Fs.file_put, if_neg (Ne.symm (hp _)), Fs.cursor_put]
        exact ⟨rfl, rfl⟩
      · cases ok
        exact fs ▸ staged.synced hf
    · intro _
      exact ⟨kept, own.apart apart, nofun⟩
  · exact fun e t ⟨left, _⟩ => ⟨left.bodies, h.own.apart left.apart, nofun⟩

/-- Steps 1 to 3. -/
theorem safe_stage_body (content : Content R) (reliable : Reliable faulty) (bodies : Bodies R s.fs)
    (own : Writes R False .own none s)
    (grows : ∀ c data nonce, Grows R (chunkRecordBytes env c data nonce))
    (reachable : ChunkId → Bool) (maxSegmentSize : Nat) :
    Safe (segMachine faulty fails)
      (fun r t => Bodies R t.fs ∧ Writes R False .own none t ∧
        ∀ w, r = .ok w → Staged dir w t.fs)
      (fun t => Bodies R t.fs) (stage env reachable dir maxSegmentSize) s := by
  have cleared (gone : SegPath → Bool) : Bodies R (s.fs.dropAll gone) := by
    intro p f hp hf
    rw [Fs.file_dropAll] at hf
    split at hf
    · cases hf
    · exact bodies p f hp hf
  rw [stage, safe_bind, Proc.safe_ignore]
  apply Proc.safe_removeAll
  · exact fun gone _ => cleared gone
  swap
  · exact fun fault => absurd fault (reliable.removeAll _)
  rw [thenSafe_ok, safe_bind, Proc.safe_load, thenSafe_ok, safe_bind, Proc.safe_save, thenSafe_ok]
  obtain ⟨t, ht⟩ : ∃ t : SegState, t = (s.withFs (s.fs.dropAll (SegPath.isStagedIn dir))).withMem
    (s.mem.setIndex .new ∅) := ⟨_, rfl⟩
  have kept : Bodies R t.fs := ht ▸ cleared _
  have apart : Elsewhere .new (some dir) s t := by
    rw [ht]
    refine ⟨fun p hp => ⟨?_, rfl⟩, fun _ _ => rfl⟩
    rw [Proc.withMem_fs, Proc.withFs_fs, Fs.file_dropAll, if_neg]
    intro staged
    obtain ⟨id, same⟩ := (selects_staged dir p).1 staged
    exact hp id same.symm
  have empty (id : Nat) (f : File) (hf : t.fs.file (.segment (some dir) id) = some f) : False := by
    have staged : SegPath.isStagedIn dir (.segment (some dir) id) = true :=
      (selects_staged dir _).2 ⟨id, rfl⟩
    rw [ht, Proc.withMem_fs, Proc.withFs_fs, Fs.file_dropAll, if_pos staged] at hf
    cases hf
  have own' := own.apart apart
  rw [show (s.withFs (s.fs.dropAll (SegPath.isStagedIn dir))).withMem (SegmentStore.setIndex
    (s.withFs (s.fs.dropAll (SegPath.isStagedIn dir))).mem .new ∅) = t from ht.symm]
  apply Safe.bind ((safe_open_begin reliable.counted (some dir) (fun f hf => (empty 1 f hf).elim)
    maxSegmentSize).mono (fun _ _ post => post) fun u begins => begins.bodies content kept)
  · rintro w u ⟨mem, begins, started, _⟩
    obtain ⟨begun, f, atEnd, length⟩ := started w rfl
    rw [safe_bind, safe_set, thenSafe_ok, safe_bind, entries]
    apply Proc.safe_ask.2
    intro listed _
    rw [thenSafe_ok]
    have copies : Copies R dir (u.withMem (u.mem.setWriter .new w)) := by
      refine ⟨begins.bodies content kept, own'.apart ⟨fun p hp => begins.others p (hp 1), ?_⟩, ?_⟩
      · intro side' other
        rw [Proc.withMem_mem, setWriter_writer, if_neg other, mem]
      · exact .begun content begins begun atEnd length (fun i g _ hg => (empty i g hg).elim) True
    apply Safe.bind (safe_retains content reliable copies grows _)
    · rintro _ v ⟨_, _, done⟩
      exact safe_stage_end content reliable (done rfl)
    · rintro e v ⟨kept, own, _⟩
      exact ⟨kept, own, fun _ h => by cases h⟩
  · rintro e u ⟨mem, begins, _, _⟩
    refine ⟨begins.bodies content kept, own'.apart ⟨fun p hp => begins.others p (hp 1), ?_⟩, fun _ h => by cases h⟩
    intro side' _
    rw [mem]

/-! ## Closing -/

/-- `close_file` of the store's own writer. -/
theorem safe_closeFile_own (content : Content R) (counted : Counted faulty) (bodies : Bodies R s.fs)
    (h : Writes R False .own none s) :
    Safe (segMachine faulty fails)
      (fun r t => Bodies R t.fs ∧ (∀ d id, t.fs.file (.staging d id) = s.fs.file (.staging d id)) ∧
        ∀ e, r = .error e → e.IsIo)
      (fun t => Bodies R t.fs) (SegmentWriter.closeFile .own) s := by
  have path := h.path
  obtain ⟨f, atEnd, long, held, -⟩ := h.file
  rw [SegmentWriter.closeFile, safe_bind, safe_get, thenSafe_ok, safe_bind, safe_set, thenSafe_ok]
  apply safe_when
  swap
  · intro closed
    exact absurd h.isOpen closed
  intro _
  obtain ⟨u, hu⟩ : ∃ u, u = s.withMem (s.mem.setWriter .own
      { s.mem.writer .own with isOpen := false }) := ⟨_, rfl⟩
  have writer : u.mem.writer .own = { s.mem.writer .own with isOpen := false } := by
    rw [hu, Proc.withMem_mem, setWriter_writer, if_pos rfl]
  have fs : u.fs = s.fs := by rw [hu]; rfl
  have path' : (u.mem.writer .own).path = (s.mem.writer .own).path := by rw [writer]; rfl
  have segment : (s.mem.writer .own).path ≠ .marker := path ▸ SegPath.segment_ne_marker _ _
  rw [← hu]
  rw [← fs, ← path'] at atEnd
  have start := Buffered.start atEnd
  rw [show (u.mem.writer .own).buffer = (s.mem.writer .own).buffer by rw [writer]] at start
  have cut (v : SegState) (part : Bytes) (sub : part <+: (s.mem.writer .own).buffer)
      (grown : Extends (u.mem.writer .own).path u.fs f part v.fs) : Bodies R v.fs := by
    rw [path', fs] at grown
    exact Bodies.extends content segment bodies (fs ▸ path' ▸ atEnd.1) long held sub grown
  have left {written rest : Bytes} {v : SegState}
      (b : Buffered .own u f (s.mem.writer .own).buffer written rest v) :
      Bodies R v.fs ∧ ∀ d id, v.fs.file (.staging d id) = s.fs.file (.staging d id) := by
    refine ⟨cut v written (b.split ▸ List.prefix_append _ _) b.file, fun d id => ?_⟩
    rw [(b.file.others _ ?_).1, fs]
    rw [path', path]
    exact fun h => by cases h
  rw [safe_bind, safe_handle]
  apply (safe_flush counted start cut).mono
  · intro r v flush
    rcases flush with ⟨rfl, b⟩ | ⟨_, rfl, written, rest, b⟩
    · obtain ⟨kept, staged⟩ := left b
      have hf := b.file.atEnd.1
      rw [path'] at hf
      have synced := Bodies.synced kept segment hf
      change Safe _ _ _ _ _
      apply Proc.safe_sync hf kept synced
      · refine ⟨synced, fun d id => ?_, fun _ h => by cases h⟩
        rw [Proc.withFs_fs, Fs.file_put, if_neg, staged]
        rw [path]
        exact fun h => by cases h
      · intro _
        exact ⟨kept, staged, isIo⟩
    · change Safe _ _ _ _ _
      rw [safe_bind, Proc.safe_ignore]
      apply (safe_flush counted b cut).mono
      · intro r w again
        have after : Bodies R w.fs ∧ ∀ d id, w.fs.file (.staging d id) = s.fs.file (.staging d id) := by
          rcases again with ⟨_, b⟩ | ⟨_, _, written, rest, b⟩
          · exact left b
          · exact left b
        exact ⟨after.1, after.2, fun e h => by cases h; exact ⟨_, _, rfl⟩⟩
      · exact fun _ kept => kept
  · exact fun _ kept => kept

end Copying

/-! ## Swapping -/

/-- The active segments have the same contents. -/
def SameActive (fs fs' : Fs SegPath) : Prop := ∀ id, fs'.data (.active id) = fs.data (.active id)

theorem Resumes.congr {fs fs' : Fs SegPath} {found : Nat × Nat} (h : Resumes fs found)
    (same : SameActive fs fs') : Resumes fs' found := by
  have back {id : Nat} {g : File} (hg : fs'.file (.active id) = some g) :
      ∃ f, fs.file (.active id) = some f ∧ f.data = g.data := by
    have := same id
    rw [Fs.data, Fs.data, hg] at this
    exact Option.map_eq_some_iff.1 this.symm
  rcases h with ⟨rfl, absent⟩ | ⟨f, there, length, long, later⟩
  · refine .inl ⟨rfl, fun id => ?_⟩
    cases hg : fs'.file (.active id) with
    | none => rfl
    | some g =>
      obtain ⟨f, hf, -⟩ := back hg
      rw [absent id] at hf
      cases hf
  · have := same found.1
    rw [Fs.data, Fs.data, there] at this
    obtain ⟨g, hg, data⟩ := Option.map_eq_some_iff.1 this
    refine .inr ⟨g, hg, by rw [data]; exact length, by rw [data]; exact long, fun id k above hk => ?_⟩
    obtain ⟨f', hf', data'⟩ := back hk
    rw [← data']
    exact later id f' above hf'

/-- Where the store goes on after a compaction. -/
def SegmentStore.Compaction.resume (x : Compaction) : Nat × Nat :=
  if x.retainedCount > 0 then (x.newWriter.currentSegmentId, x.newWriter.currentOffset) else (1, 0)

/-- A program that leaves the active segments alone, and fails only where an operation on files does. -/
def LeavesActive (faulty : FsOp SegPath → Prop) (fails : Prop) {α : Type} (p : SegProg α) : Prop :=
  ∀ s : SegState, Safe (segMachine faulty fails)
    (fun r t => SameActive s.fs t.fs ∧ ∀ e, r = .error e → e.IsIo) (fun _ => True) p s

namespace LeavesActive

variable {α β : Type}

theorem pure (a : α) : LeavesActive faulty fails (Pure.pure a : SegProg α) :=
  fun _ => ⟨fun _ => rfl, nofun⟩

theorem bind {p : SegProg α} {f : α → SegProg β} (hp : LeavesActive faulty fails p)
    (hf : ∀ a, LeavesActive faulty fails (f a)) : LeavesActive faulty fails (p >>= f) := by
  intro s
  apply Safe.bind (hp s)
  · intro a t ⟨same, _⟩
    apply (hf a t).mono
    · exact fun r u ⟨same', io⟩ => ⟨fun id => (same' id).trans (same id), io⟩
    · exact fun _ _ => trivial
  · exact fun e t ⟨same, io⟩ => ⟨same, fun e' h => io e' (by cases h; rfl)⟩

theorem forEach {τ : Type} {step : β → τ → SegProg β} {xs : List τ}
    (body : ∀ b x, LeavesActive faulty fails (step b x)) (b : β) :
    LeavesActive faulty fails (Prog.forEach step b xs) := by
  intro s
  apply safe_forEach (fun _ _ _ t => SameActive s.fs t.fs) (fun _ => rfl)
  · intro done x rest b t _ same
    apply (body b x t).mono
    · intro r u ⟨same', io⟩
      cases r with
      | error e => exact ⟨fun id => (same' id).trans (same id), fun e' h => io e' (by cases h; rfl)⟩
      | ok b => exact fun id => (same' id).trans (same id)
    · exact fun _ _ => trivial
  · exact fun _ t same => ⟨same, nofun⟩

theorem ignore {p : SegProg α} (hp : LeavesActive faulty fails p) :
    LeavesActive faulty fails (Proc.ignore p) := by
  intro s
  rw [Proc.safe_ignore]
  apply (hp s).mono
  · exact fun _ t ⟨same, _⟩ => ⟨same, nofun⟩
  · exact fun _ _ => trivial

/-- Syncing changes no contents, and other files do not matter. -/
theorem fileOp {o : FsOp SegPath} (kind : (∃ p, o = .sync p) ∨ ∀ id, ¬ Fs.Touches o (.active id)) :
    LeavesActive faulty fails (Proc.fileOp o : SegProg o.Res) := by
  intro s
  apply Proc.safe_file
  · exact fun _ _ => trivial
  · intro r fs step
    refine ⟨fun id => ?_, fun e h => ?_⟩
    · rcases kind with ⟨p, rfl⟩ | free
      · rcases step.leads.cases nofun nofun with same | ⟨r', done⟩
        · rw [Proc.withFs_fs, same]
        · simp only [Fs.Done] at done
          split at done
          · rename_i f hf
            rw [Proc.withFs_fs, done.2, Fs.data, Fs.file_put]
            split
            · rename_i same
              rw [← same, Fs.data, hf]
              rfl
            · rfl
          · rw [Proc.withFs_fs, done.2]
      · rw [Proc.withFs_fs, Fs.data, Fs.data, step.leads.untouched (free id)]
    · cases r with
      | ok a => cases h
      | error kind => exact isIo e h

theorem sync (p : SegPath) : LeavesActive faulty fails (Proc.sync p : SegProg Unit) :=
  fileOp (.inl ⟨p, rfl⟩)

theorem remove {p : SegPath} (other : ∀ id, p ≠ .active id) :
    LeavesActive faulty fails (Proc.remove p : SegProg Unit) :=
  fileOp (.inr fun id same => other id same.symm)

theorem listIds (select : SegPath → Bool) : LeavesActive faulty fails (listIds select) := by
  rw [SegmentStore.listIds]
  exact bind (fileOp (.inr fun _ => not_false)) fun _ => pure _

theorem cleanUp (ids : List Nat) : LeavesActive faulty fails (cleanUp ids) :=
  bind (forEach (fun _ id => ignore (remove (p := .old id) nofun)) ()) fun _ =>
    ignore (remove (p := .marker) nofun)

theorem writeMarker : LeavesActive faulty fails writeMarker := by
  have other (id : Nat) : ¬ SegPath.active id = .marker := nofun
  exact bind (fileOp (.inr other)) fun _ => bind (fileOp (.inr other)) fun _ => sync _

/-- The end of phase 5b. -/
theorem settleIn (dir : Nat) : LeavesActive faulty fails (do
    Proc.ignore (Proc.removeAll (SegPath.isStagedIn dir))
    let placed ← Prog.handle (SegmentStore.listIds SegPath.isActive) fun _ => Pure.pure []
    Prog.forEach (fun _ id => Proc.ignore (Proc.sync (.active id))) () placed) := by
  have cleared : LeavesActive faulty fails
      (Proc.ignore (Proc.removeAll (SegPath.isStagedIn dir)) : SegProg Unit) := by
    refine ignore (fileOp (.inr fun id there => ?_))
    cases there
  have listed : LeavesActive faulty fails
      (Prog.handle (SegmentStore.listIds SegPath.isActive) fun _ => Pure.pure []) := by
    intro s
    rw [safe_handle]
    apply (listIds SegPath.isActive s).mono
    · intro r t ⟨same, _⟩
      cases r <;> exact ⟨same, nofun⟩
    · exact fun _ _ => trivial
  exact bind cleared fun _ => bind listed fun _ => forEach (fun _ _ => ignore (sync _)) ()

end LeavesActive

section Swapping

variable {s : SegState} {x : Compaction}

/-- Phase 5a: afterwards no segment is active. -/
theorem safe_moveOut_body (reliable : Reliable faulty) :
    Safe (segMachine faulty fails)
      (fun r t => (∀ d id, t.fs.file (.staging d id) = s.fs.file (.staging d id)) ∧
        (∀ ids, r = .ok ids → ∀ id, t.fs.file (.active id) = none) ∧ ∀ e, r = .error e → e.IsIo)
      (fun _ => True) moveOut s := by
  rw [moveOut, safe_bind]
  apply safe_listIds reliable.list .active (fun _ => rfl) selects_active
  intro ids nodup mem
  rw [thenSafe_ok]
  apply Safe.bind (P := fun r t => ∃ done, MovedOut done s.fs t.fs ∧ (r = .ok () → done = ids) ∧
    ∀ e, r = .error e → e.IsIo)
  · apply safe_forEach (fun before _ _ t => MovedOut before s.fs t.fs)
    · exact ⟨by simp, by simp, fun _ _ _ => rfl⟩
    · intro before id rest _ t split moved
      have new : id ∈ ids ∧ id ∉ before := by
        rw [← split] at nodup ⊢
        exact ⟨by simp, fun hb => (List.disjoint_of_nodup_append nodup) hb (by simp)⟩
      obtain ⟨f, hf⟩ := Option.isSome_iff_exists.1 ((mem id).1 new.1)
      have hf' : t.fs.file (.active id) = some f := by rw [moved.active, if_neg new.2, hf]
      exact Proc.safe_rename hf' trivial trivial (moved.next new.2 hf')
        fun _ => ⟨before, moved, fun h => (by cases h), isIo⟩
    · exact fun _ t moved => ⟨ids, moved, fun _ => rfl, fun _ h => by cases h⟩
  · rintro _ t ⟨done, moved, all, _⟩
    refine ⟨fun d id => moved.others _ rfl rfl, fun ids' _ id => ?_, fun _ h => by cases h⟩
    rw [moved.active, all rfl]
    split
    · rfl
    · rename_i absent
      rw [mem] at absent
      exact Option.not_isSome_iff_eq_none.1 absent
  · rintro e t ⟨done, moved, _, io⟩
    exact ⟨fun d id => moved.others _ rfl rfl, fun _ h => (by cases h), fun e' h => io e' (by cases h; rfl)⟩

/-- Phase 5b: the new segments are the active ones. -/
theorem safe_moveIn_body (reliable : Reliable faulty) (dir : Nat)
    (empty : ∀ id, s.fs.file (.active id) = none) :
    Safe (segMachine faulty fails)
      (fun r t => (r = .ok () → ∀ id, t.fs.data (.active id) = s.fs.data (.staging dir id)) ∧
        ∀ e, r = .error e → e.IsIo)
      (fun _ => True) (moveIn dir) s := by
  rw [moveIn, safe_bind]
  apply safe_listIds reliable.list (.staging dir) (fun _ => rfl) (selects_staged dir)
  intro ids nodup mem
  rw [thenSafe_ok]
  apply Safe.bind (P := fun r t => (r = .ok () → MovedIn dir ids s.fs t.fs) ∧
    ∀ e, r = .error e → e.IsIo)
  · apply safe_forEach (fun before _ _ t => MovedIn dir before s.fs t.fs)
    · exact ⟨by simp, fun _ _ => rfl, fun _ => rfl, rfl⟩
    · intro before id rest _ t split moved
      have new : id ∈ ids ∧ id ∉ before := by
        rw [← split] at nodup ⊢
        exact ⟨by simp, fun hb => (List.disjoint_of_nodup_append nodup) hb (by simp)⟩
      obtain ⟨f, hf⟩ := Option.isSome_iff_exists.1 ((mem id).1 new.1)
      have hf' : t.fs.file (.staging dir id) = some f := by rw [moved.staged id new.2, hf]
      exact Proc.safe_rename hf' trivial trivial (moved.next new.2 hf')
        fun _ => ⟨fun h => (by cases h), isIo⟩
    · exact fun _ t moved => ⟨fun _ => moved, fun _ h => by cases h⟩
  · rintro _ t ⟨moved, _⟩
    apply (LeavesActive.settleIn dir t).mono
    · rintro r u ⟨same, io⟩
      refine ⟨fun _ id => ?_, io⟩
      rw [same id, Fs.data, Fs.data, (moved rfl).active]
      split
      · rfl
      · rename_i absent
        rw [mem] at absent
        rw [empty, Option.not_isSome_iff_eq_none.1 absent]
    · exact fun _ _ => trivial
  · rintro e t ⟨_, io⟩
    exact ⟨fun h => (by cases h), fun e' h => io e' (by cases h; rfl)⟩

/-- The first steps of a compaction: if it goes on, the new segments are there. -/
theorem safe_prepare_body (content : Content R) (reliable : Reliable faulty) (running : Running R s)
    (grows : ∀ c data nonce, Grows R (chunkRecordBytes env c data nonce))
    (reachable : ChunkId → Bool) :
    Safe (segMachine faulty fails)
      (fun r t => Bodies R t.fs ∧ match r with
        | .ok none => Writes R False .own none t
        | .ok (some x) => Staged x.dir x.newWriter t.fs
        | .error e => Writes R False .own none t ∨ e.IsIo)
      (fun t => Bodies R t.fs) (prepare env reachable) s := by
  rw [prepare]
  apply Safe.bind (safe_sync_left content reliable.counted running.1 running.2)
  swap
  · rintro e t ⟨left, _⟩
    exact ⟨left.bodies, .inl left.writes⟩
  rintro _ t ⟨left, _⟩
  rw [safe_bind, Proc.safe_load, thenSafe_ok, safe_bind, entries]
  apply Proc.safe_ask.2
  intro listed _
  rw [thenSafe_ok]
  split
  · exact ⟨left.bodies, left.writes⟩
  rw [safe_bind]
  apply Proc.safe_ask.2
  intro dir _
  rw [thenSafe_ok]
  simp only
  apply Safe.bind (safe_stage_body content reliable left.bodies left.writes grows reachable _)
  · rintro w u ⟨kept, own, staged⟩
    obtain ⟨f, hf, length, long, later⟩ := staged w rfl
    rw [safe_bind, Proc.safe_load, thenSafe_ok]
    apply Safe.bind (safe_closeFile_own content reliable.counted kept own)
    · rintro _ v ⟨kept', same, _⟩
      refine ⟨kept', f, (same _ _).trans hf, length, long, fun id k above hk => ?_⟩
      exact later id k above ((same _ _).symm.trans hk)
    · rintro e v ⟨kept', _, io⟩
      exact ⟨kept', .inr (io e rfl)⟩
  · rintro e u ⟨kept, own, _⟩
    exact ⟨kept, .inl own⟩

/-- Phases 5a and 5b and the marker: afterwards the store can go on. -/
theorem safe_swap_body (content : Content R) (reliable : Reliable faulty) (bodies : Bodies R s.fs)
    (staged : Staged x.dir x.newWriter s.fs) :
    Safe (segMachine faulty fails)
      (fun r t => Bodies R t.fs ∧ (∀ olds, r = .ok olds → Resumes t.fs x.resume) ∧
        ∀ e, r = .error e → e.IsIo) (fun t => Bodies R t.fs) (swap x) s := by
  have keeps := @KeepsFiles.swap faulty fails _ (Body R) (Body.lasting content) covers_segments x
    (fun _ h => by cases h) s bodies
  have goes : Safe (segMachine faulty fails)
      (fun r t => (∀ olds, r = .ok olds → Resumes t.fs x.resume) ∧ ∀ e, r = .error e → e.IsIo)
      (fun _ => True) (swap x) s := by
    rw [swap]
    apply Safe.bind (safe_moveOut_body reliable)
    swap
    · rintro e t ⟨_, _, io⟩
      exact ⟨fun _ h => (by cases h), fun e' h => io e' (by cases h; rfl)⟩
    rintro olds t ⟨same, gone, _⟩
    have none := gone olds rfl
    have placed : Safe (segMachine faulty fails)
        (fun r u => (r = .ok () → Resumes u.fs x.resume) ∧ ∀ e, r = .error e → e.IsIo)
        (fun _ => True) (place x) t := by
      rw [place]
      unfold SegmentStore.Compaction.resume
      split
      · apply (safe_moveIn_body reliable x.dir none).mono
        · rintro r u ⟨moved, io⟩
          refine ⟨fun ok => ?_, io⟩
          obtain ⟨f, hf, length, long, later⟩ := staged
          have there (id : Nat) : u.fs.data (.active id) = s.fs.data (.staging x.dir id) := by
            rw [moved ok id, Fs.data, Fs.data, same]
          have last := there x.newWriter.currentSegmentId
          rw [Fs.data, Fs.data, hf] at last
          obtain ⟨g, hg, data⟩ := Option.map_eq_some_iff.1 last
          refine .inr ⟨g, hg, by rw [data]; exact length, by rw [data]; exact long, ?_⟩
          intro id k above hk
          have other := there id
          rw [Fs.data, Fs.data, hk] at other
          obtain ⟨k', hk', data'⟩ := Option.map_eq_some_iff.1 other.symm
          rw [← data']
          exact later id k' above hk'
        · exact fun _ _ => trivial
      · have cleared : LeavesActive faulty fails
            (Proc.ignore (Proc.removeAll (SegPath.isStagedIn x.dir)) : SegProg Unit) := by
          refine .ignore (.fileOp (.inr fun id there => ?_))
          cases there
        apply (cleared t).mono
        · rintro r u ⟨same', io⟩
          refine ⟨fun _ => .congr (.inl ⟨rfl, none⟩) same', io⟩
        · exact fun _ _ => trivial
    apply Safe.bind placed
    · rintro _ u ⟨resumes, _⟩
      apply Safe.bind (LeavesActive.writeMarker u)
      · rintro _ v ⟨same', _⟩
        exact ⟨fun _ _ => (resumes rfl).congr same', fun _ h => by cases h⟩
      · rintro e v ⟨_, io⟩
        exact ⟨fun _ h => (by cases h), fun e' h => io e' (by cases h; rfl)⟩
    · rintro e u ⟨_, io⟩
      exact ⟨fun _ h => (by cases h), fun e' h => io e' (by cases h; rfl)⟩
  apply (keeps.and goes).mono
  · exact fun _ _ h => h
  · exact fun _ h => h.1

/-- Step 6. -/
theorem safe_attach_body (content : Content R) (reliable : Reliable faulty) (bodies : Bodies R s.fs)
    (resumes : Resumes s.fs x.resume) :
    Safe (segMachine faulty fails)
      (fun r t => Bodies R t.fs ∧ (r = .ok () → Writes R True .own none t) ∧
        ∀ e, r = .error e → e.IsIo) (fun t => Bodies R t.fs) (attach x) s := by
  have go (t : SegState) (fs : t.fs = s.fs) := @safe_open_resumes R faulty fails t content
    reliable.counted (fs ▸ bodies) x.resume (fs ▸ resumes) x.maxSegmentSize
  rw [attach, safe_bind, Proc.safe_load, thenSafe_ok, safe_bind, Proc.safe_save, thenSafe_ok]
  unfold SegmentStore.Compaction.resume at go
  split
  · rename_i some
    simp only [if_pos some] at go
    exact go _ rfl
  · rename_i none
    simp only [if_neg none] at go
    exact go _ rfl

/-- `compact_and_reclaim`: unless an operation on files fails, the store goes on. -/
theorem safe_compactAndReclaim_body (content : Content R) (reliable : Reliable faulty)
    (running : Running R s) (grows : ∀ c data nonce, Grows R (chunkRecordBytes env c data nonce))
    (reachable : ChunkId → Bool) :
    Safe (segMachine faulty fails)
      (fun r t => Bodies R t.fs ∧ (Writes R False .own none t ∨ ∃ e, r = .error e ∧ e.IsIo))
      (fun t => Bodies R t.fs) (compactAndReclaim env reachable) s := by
  rw [compactAndReclaim]
  apply Safe.bind (safe_prepare_body content reliable running grows reachable)
  · intro found t ⟨kept, left⟩
    cases found with
    | none => exact ⟨kept, .inl left⟩
    | some x =>
      simp only
      apply Safe.bind (safe_swap_body content reliable kept left)
      · intro olds u ⟨kept', resumes, _⟩
        have cleaned := (@KeepsFiles.cleanUp faulty fails _ (Body R) (Body.lasting content) olds u kept').and
          (LeavesActive.cleanUp olds u)
        rw [finish]
        apply Safe.bind (cleaned.mono (fun _ _ post => post) fun _ post => post.1)
        · intro _ v ⟨bodies, same, _⟩
          apply Safe.bind (safe_attach_body content reliable bodies ((resumes olds rfl).congr same))
          · exact fun _ w ⟨bodies', writes, _⟩ => ⟨bodies', .inl ((writes rfl).le False.elim)⟩
          · exact fun e w ⟨bodies', _, io⟩ => ⟨bodies', .inr ⟨e, rfl, io e rfl⟩⟩
        · exact fun e v ⟨bodies, _, io⟩ => ⟨bodies, .inr ⟨e, rfl, io e rfl⟩⟩
      · exact fun e u ⟨kept', _, io⟩ => ⟨kept', .inr ⟨e, rfl, io e rfl⟩⟩
  · exact fun e t ⟨kept, left⟩ => ⟨kept, left.imp id fun io => ⟨e, rfl, io⟩⟩

end Swapping

end OosLite
