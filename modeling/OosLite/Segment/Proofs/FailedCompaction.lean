import OosLite.Segment.Proofs.FailedStaging

/-!
# Compactions that fail

A compaction stops at a step that fails, and its process goes on. When are the chunks of the store
still read, and new ones put?
-/

namespace OosLite

open Files Effect SegmentStore

section Definitions

variable (env : Env)

/-- The chunks of the store are read as before, and a new chunk is read once it was put. -/
structure Usable (s t : SegState) : Prop where
  reads : ∀ c d, (Ends steady (getChunk env c) s fun r _ => r = .ok d) →
    Ends steady (getChunk env c) t fun r _ => r = .ok d
  puts : ∀ data, Fits env data →
    (s.mem.index .own).contains (ChunkId.fromData env data) = false →
    Ends steady (do
      let put ← putChunk env data
      getChunk env put.1) t fun r _ => r = .ok data

/-- No new chunk goes behind what the writer wrote. -/
def Crowded (s : SegState) : Prop :=
  ∀ data, Fits env data →
    (s.mem.index .own).contains (ChunkId.fromData env data) = false → Rotates env s data

/-- What happened to an old segment in phase 5a. -/
def movedAway (id : Nat) : FsOp SegPath × Bool := (.rename (.active id) (.old id), true)

/-- No segment that the index names was moved away. -/
def NamedStay (s : SegState) (log : SegLog) : Prop :=
  ∀ (c : ChunkId) (loc : ChunkLocation), (s.mem.index .own)[c]? = some loc →
    movedAway loc.segmentId ∉ log

/-- New segments were moved in, and the marker was not synced. -/
def Overlaid (log : SegLog) : Prop :=
  (∃ dir id, (.rename (.staging dir id) (.active id), true) ∈ log) ∧ (.sync .marker, true) ∉ log

/-- Where the index points there is what was there before. -/
def InPlace (s t : SegState) : Prop :=
  ∀ c d, Located env s c d → Located env t c d

end Definitions

section Proofs

variable {env : Env} {faulty : FsOp SegPath → Prop} {fails : Prop}

section Rules

variable {C : SegState × SegLog → Prop} {u : SegState × SegLog}

theorem safe_noted_rename {p q : SegPath} {Q : Result Unit → SegState × SegLog → Prop}
    (moved : ∀ f, u.1.fs.file p = some f →
      Q (.ok ()) (u.1.withFs ((u.1.fs.drop p).put q f), u.2 ++ [(.rename p q, true)]))
    (failed : ∀ e, Q (.error e) (u.1, u.2 ++ [(.rename p q, false)])) :
    Safe (segRecorder faulty fails) Q (fun _ => True) (Proc.rename p q) u := by
  apply Proc.safe_noted_file
  · exact fun _ _ => trivial
  rintro r fs (done | ⟨_, rfl, rfl⟩)
  · simp only [Fs.Done] at done
    cases hf : u.1.fs.file p with
    | some f =>
      rw [hf] at done
      obtain ⟨rfl, rfl⟩ := done
      exact moved f hf
    | none =>
      rw [hf] at done
      obtain ⟨rfl, rfl⟩ := done
      exact failed _
  · exact failed _

theorem safe_noted_listActive {Q : Result (List Nat) → SegState × SegLog → Prop}
    (listed : ∀ ids, (∀ id, id ∈ ids ↔ (u.1.fs.file (.active id)).isSome) →
      Q (.ok ids) (u.1, u.2 ++ [(.list SegPath.isActive, true)]))
    (failed : ∀ e, Q (.error e) (u.1, u.2 ++ [(.list SegPath.isActive, false)])) :
    Safe (segRecorder faulty fails) Q (fun _ => True) (listIds SegPath.isActive) u := by
  rw [listIds, safe_bind]
  apply Proc.safe_noted_file
  · exact fun _ _ => trivial
  rintro r fs (⟨rfl, ps, perm, rfl⟩ | ⟨_, rfl, rfl⟩)
  · apply listed
    intro id
    rw [List.mem_map]
    constructor
    · rintro ⟨p, hp, same⟩
      obtain ⟨there, active⟩ := (Fs.mem_listing _ _ p).1 (perm.mem_iff.1 hp)
      cases p with
      | active i => cases same; exact there
      | old i | staging d i | marker => cases active
    · intro there
      exact ⟨.active id, perm.mem_iff.2 ((Fs.mem_listing _ _ _).2 ⟨there, rfl⟩), rfl⟩
  · exact failed _

/-- Closing a file whose buffer is empty syncs it. -/
theorem safe_noted_closeFile {side : Side} {Q : Result Unit → SegState × SegLog → Prop}
    (isOpen : (u.1.mem.writer side).isOpen = true) (empty : (u.1.mem.writer side).buffer = [])
    (sync : Safe (segRecorder faulty fails) Q C (Proc.sync (u.1.mem.writer side).path)
      (u.1.withMem (u.1.mem.setWriter side { u.1.mem.writer side with isOpen := false }), u.2)) :
    Safe (segRecorder faulty fails) Q C (SegmentWriter.closeFile side) u := by
  rw [SegmentWriter.closeFile, safe_bind, safe_noted_get, thenSafe_ok, safe_bind, safe_noted_set,
    thenSafe_ok]
  refine safe_when (fun _ => ?_) fun closed => absurd isOpen closed
  rw [safe_bind, safe_handle, SegmentWriter.flush, safe_bind, safe_noted_get, thenSafe_ok]
  refine safe_when (fun some => absurd (by simpa using empty) some) fun _ => ?_
  exact (thenSafe_ok ..).2 sync

end Rules

/-! ## The swap -/

/-- One thing holds where a program returns, another where it fails. -/
def Outcome {α : Type} (returned failed : SegState × SegLog → Prop) :
    Result α → SegState × SegLog → Prop
  | .ok _, u => returned u
  | .error _, u => failed u

/-- Each active segment was moved away or is as it was. -/
structure Moving (s : SegState) (mem : SegmentStore) (u : SegState × SegLog) : Prop where
  mem : u.1.mem = mem
  moved : ∀ id, movedAway id ∈ u.2 → u.1.fs.file (.active id) = none
  stays : ∀ id, movedAway id ∉ u.2 → u.1.fs.data (.active id) = s.fs.data (.active id)

/-- All old segments were moved away, and the marker is not there. -/
structure Placing (s : SegState) (mem : SegmentStore) (u : SegState × SegLog) : Prop where
  mem : u.1.mem = mem
  gone : ∀ id, (s.fs.file (.active id)).isSome → movedAway id ∈ u.2
  placed : (∃ dir id, (.rename (.staging dir id) (.active id), true) ∈ u.2) ∨
    ∀ id, u.1.fs.file (.active id) = none
  unmarked : (.sync .marker, true) ∉ u.2

/-- All old segments were moved away, and the new ones are in their place. -/
structure Exchanged (s : SegState) (mem : SegmentStore) (u : SegState × SegLog) : Prop where
  mem : u.1.mem = mem
  gone : ∀ id, (s.fs.file (.active id)).isSome → movedAway id ∈ u.2

section Swap

variable {s : SegState} {mem : SegmentStore} {u : SegState × SegLog}

theorem Moving.snoc (h : Moving s mem u) {t : SegState} {e : FsOp SegPath × Bool}
    (same : t.mem = u.1.mem) (data : ∀ id, t.fs.data (.active id) = u.1.fs.data (.active id))
    (other : ∀ id, e ≠ movedAway id) : Moving s mem (t, u.2 ++ [e]) := by
  have before {id : Nat} : movedAway id ∈ u.2 ++ [e] ↔ movedAway id ∈ u.2 := by
    rw [List.mem_append, List.mem_singleton]
    exact or_iff_left fun same => other id same.symm
  refine ⟨same.trans h.mem, fun id away => ?_, fun id away => ?_⟩
  · have absent : t.fs.data (.active id) = none := by
      rw [data, Fs.data, h.moved id (before.1 away)]
      rfl
    rwa [Fs.data, Option.map_eq_none_iff] at absent
  · exact (data id).trans (h.stays id (before.not.1 away))

theorem Moving.rename (h : Moving s mem u) {id : Nat} {f : File} :
    Moving s mem (u.1.withFs ((u.1.fs.drop (.active id)).put (.old id) f), u.2 ++ [movedAway id]) := by
  have file (i : Nat) : ((u.1.fs.drop (.active id)).put (.old id) f).file (.active i) =
      if i = id then none else u.1.fs.file (.active i) := by
    rw [Fs.file_put, if_neg nofun, Fs.file_drop]
    by_cases same : i = id
    · rw [if_pos same, if_pos (by rw [same])]
    · rw [if_neg same, if_neg (fun eq => same (by cases eq; rfl))]
  refine ⟨h.mem, fun i away => ?_, fun i away => ?_⟩
  · rw [Proc.withFs_fs, file]
    split
    · rfl
    · rename_i other
      apply h.moved
      rcases List.mem_append.1 away with away | away
      · exact away
      · cases List.mem_singleton.1 away
        exact absurd rfl other
  · have other : i ≠ id := fun same => away (by simp [same])
    rw [Proc.withFs_fs, Fs.data, file, if_neg other]
    exact h.stays i fun there => away (List.mem_append_left _ there)

/-- Phase 5a. -/
theorem safe_noted_moveOut (h : Moving s mem u) (fresh : ∀ id, movedAway id ∉ u.2)
    (unmarked : (.sync .marker, true) ∉ u.2) :
    Safe (segRecorder faulty fails) (Outcome (Placing s mem) (Moving s mem)) (fun _ => True)
      moveOut u := by
  have listing (ok : Bool) : Moving s mem (u.1, u.2 ++ [(.list SegPath.isActive, ok)]) :=
    h.snoc rfl (fun _ => rfl) fun _ => by simp [movedAway]
  have there (id : Nat) : (u.1.fs.file (.active id)).isSome = (s.fs.file (.active id)).isSome := by
    simpa [Fs.data] using congrArg Option.isSome (h.stays id (fresh id))
  rw [moveOut, safe_bind]
  apply safe_noted_listActive
  swap
  · exact fun e => listing false
  intro ids mem_ids
  rw [thenSafe_ok]
  apply Safe.bind (P := Outcome (Placing s mem) (Moving s mem))
  · apply safe_forEach (fun before _ _ v => Moving s mem v ∧ (∀ id ∈ before, movedAway id ∈ v.2) ∧
      (.sync .marker, true) ∉ v.2)
    · exact ⟨listing true, by simp, by simpa using unmarked⟩
    · rintro before id rest _ v _ ⟨moving, done, unmarked⟩
      apply safe_noted_rename
      · intro f _
        refine ⟨moving.rename, fun i hi => ?_, by simpa using unmarked⟩
        rcases List.mem_append.1 hi with hi | hi
        · exact List.mem_append_left _ (done i hi)
        · cases List.mem_singleton.1 hi
          exact List.mem_append_right _ (List.mem_singleton_self _)
      · exact fun e => moving.snoc rfl (fun _ => rfl) fun _ => by simp [movedAway]
    · rintro _ v ⟨moving, done, unmarked⟩
      have gone (id : Nat) (present : (s.fs.file (.active id)).isSome) : movedAway id ∈ v.2 :=
        done id ((mem_ids id).2 (there id ▸ present))
      refine ⟨moving.mem, gone, .inr fun id => ?_, unmarked⟩
      by_cases away : movedAway id ∈ v.2
      · exact moving.moved id away
      · have absent : s.fs.file (.active id) = none := by
          simpa using (gone id).mt away
        have data := moving.stays id away
        rw [Fs.data, Fs.data, absent] at data
        simpa using data
  · exact fun _ v h => h
  · exact fun e v h => h

/-- An operation by which no old segment comes back. -/
theorem Placing.fileOp {o : FsOp SegPath} (other : o ≠ .sync .marker)
    (free : ∀ fs fs', Fs.Leads fs o fs' → ∀ id, fs.file (.active id) = none →
      fs'.file (.active id) = none) :
    Upholds (segRecorder faulty fails) (Placing s mem) (fun _ => True)
      (Proc.fileOp o : SegProg o.Res) := by
  intro u h
  apply Proc.safe_noted_file
  · exact fun _ _ => trivial
  intro r fs step
  refine ⟨h.mem, fun id there => List.mem_append_left _ (h.gone id there), ?_, ?_⟩
  · rcases h.placed with ⟨dir, id, renamed⟩ | absent
    · exact .inl ⟨dir, id, List.mem_append_left _ renamed⟩
    · exact .inr fun id => free _ _ step.leads id (absent id)
  · rw [List.mem_append, not_or]
    refine ⟨h.unmarked, fun there => other ?_⟩
    exact (congrArg Prod.fst (List.mem_singleton.1 there)).symm

/-- An operation that does not touch the active segments. -/
theorem Placing.fileOp_other {o : FsOp SegPath} (other : o ≠ .sync .marker)
    (untouched : ∀ id, ¬ Fs.Touches o (.active id)) :
    Upholds (segRecorder faulty fails) (Placing s mem) (fun _ => True)
      (Proc.fileOp o : SegProg o.Res) :=
  Placing.fileOp other fun _ _ leads id absent => (leads.untouched (untouched id)).trans absent

theorem Placing.listIds (select : SegPath → Bool) :
    Upholds (segRecorder faulty fails) (Placing s mem) (fun _ => True) (listIds select) :=
  .bind (fileOp_other nofun fun _ => id) fun _ => .pure _

/-- A sync makes no file. -/
theorem Placing.sync (id : Nat) :
    Upholds (segRecorder faulty fails) (Placing s mem) (fun _ => True)
      (Proc.sync (.active id) : SegProg Unit) := by
  apply Placing.fileOp (o := .sync (.active id)) nofun
  intro fs fs' leads i absent
  rcases leads.cases nofun nofun with rfl | ⟨r, done⟩
  · exact absent
  simp only [Fs.Done] at done
  split at done
  · rename_i f there
    rw [done.2, Fs.file_put, if_neg]
    · exact absent
    · intro same
      rw [same, absent] at there
      cases there
  · rw [done.2]
    exact absent

/-- A new segment is moved in. -/
theorem Placing.rename (dir id : Nat) :
    Upholds (segRecorder faulty fails) (Placing s mem) (fun _ => True)
      (Proc.rename (.staging dir id) (.active id) : SegProg Unit) := by
  intro u h
  have gone (e : FsOp SegPath × Bool) (i : Nat) (there : (s.fs.file (.active i)).isSome) :
      movedAway i ∈ u.2 ++ [e] := List.mem_append_left _ (h.gone i there)
  apply safe_noted_rename
  · intro f _
    refine ⟨h.mem, gone _, .inl ⟨dir, id, ?_⟩, by simpa using h.unmarked⟩
    exact List.mem_append_right _ (List.mem_singleton_self _)
  · refine fun e => ⟨h.mem, gone _, h.placed.imp_left ?_, by simpa using h.unmarked⟩
    exact fun ⟨dir, id, renamed⟩ => ⟨dir, id, List.mem_append_left _ renamed⟩

/-- Phase 5b. -/
theorem Placing.place (x : Compaction) :
    Upholds (segRecorder faulty fails) (Placing s mem) (fun _ => True) (place x) := by
  have cleared : Upholds (segRecorder faulty fails) (Placing s mem) (fun _ => True)
      (Proc.ignore (Proc.removeAll (SegPath.isStagedIn x.dir)) : SegProg Unit) :=
    .ignore (fileOp_other nofun fun _ touches => by cases touches)
  rw [SegmentStore.place]
  split
  · exact .bind (listIds _) fun _ => .bind (.forEach (fun _ id _ => rename x.dir id) ()) fun _ =>
      .bind cleared fun _ => .bind (.handle (listIds _) fun _ => .pure _) fun _ =>
        .forEach (fun _ id _ => .ignore (sync id)) ()
  · exact cleared

/-- The marker. -/
theorem safe_noted_writeMarker (h : Placing s mem u) :
    Safe (segRecorder faulty fails) (Outcome (Exchanged s mem) (Placing s mem)) (fun _ => True)
      writeMarker u := by
  have truncated : Upholds (segRecorder faulty fails) (Placing s mem) (fun _ => True)
      (Proc.truncate .marker : SegProg Unit) :=
    Placing.fileOp_other nofun fun _ touches => by cases touches
  have written : Upholds (segRecorder faulty fails) (Placing s mem) (fun _ => True)
      (Proc.write .marker compactDone : SegProg Unit) :=
    Placing.fileOp_other nofun fun _ touches => by cases touches
  rw [writeMarker]
  apply Safe.bind (truncated u h)
  swap
  · exact fun e v h => h
  intro _ v h
  apply Safe.bind (written v h)
  swap
  · exact fun e v h => h
  intro _ v h
  apply Proc.safe_noted_file
  · exact fun _ _ => trivial
  intro r fs step
  have gone (e : FsOp SegPath × Bool) (id : Nat) (there : (s.fs.file (.active id)).isSome) :
      movedAway id ∈ v.2 ++ [e] := List.mem_append_left _ (h.gone id there)
  cases r with
  | ok _ => exact ⟨h.mem, gone _⟩
  | error e =>
    refine ⟨h.mem, gone _, ?_, by simpa [Except.isOk, Except.toBool] using h.unmarked⟩
    rcases h.placed with ⟨dir, id, renamed⟩ | absent
    · exact .inl ⟨dir, id, List.mem_append_left _ renamed⟩
    · refine .inr fun id => ?_
      rw [Proc.withFs_fs, step.leads.untouched (fun touches => by cases touches)]
      exact absent id

/-- Phase 5c reports no errors. -/
theorem cleanUp_ok {M : Machine (ProcOp SegPath SegmentStore SegQuestion)
    (ProcOp.Res SegQuestion.Ans) OosLiteError (SegState × SegLog)} (ids : List Nat) :
    Safe M (fun r _ => r = .ok ()) (fun _ => True) (cleanUp ids) u := by
  have ignored {α : Type} (p : SegProg α) (v : SegState × SegLog) :
      Safe M (fun r _ => r = .ok ()) (fun _ => True) (Proc.ignore p) v :=
    (Proc.safe_ignore p v).2 ((safe_trivial p v).mono (fun _ _ _ => rfl) fun _ h => h)
  rw [cleanUp]
  apply Safe.bind (P := fun r _ => r = .ok ())
  · apply safe_forEach (fun _ _ _ _ => True) trivial
    · rintro _ id _ _ v _ _
      exact (ignored _ v).mono (fun r w ok => by rw [ok]; trivial) fun _ h => h
    · exact fun _ _ _ => rfl
  · exact fun _ v _ => ignored _ v
  · exact fun _ _ ok => by cases ok

/-- Phases 5a and 5b and the marker. -/
theorem safe_noted_swap (h : Moving s mem u) (fresh : ∀ id, movedAway id ∉ u.2)
    (unmarked : (.sync .marker, true) ∉ u.2) (x : Compaction) :
    Safe (segRecorder faulty fails)
      (fun r v => match r with
        | .ok _ => Exchanged s mem v
        | .error _ => Moving s mem v ∨ Placing s mem v) (fun _ => True) (swap x) u := by
  rw [swap]
  apply Safe.bind (safe_noted_moveOut h fresh unmarked)
  swap
  · exact fun e v moving => .inl moving
  intro ids v placing
  apply Safe.bind (Placing.place x v placing)
  swap
  · exact fun e v placing => .inr placing
  intro _ v placing
  apply Safe.bind (safe_noted_writeMarker placing)
  · exact fun _ v exchanged => exchanged
  · exact fun e v placing => .inr placing

/-! ## Phase 5c and the new writer -/

namespace Exchanged

theorem fileOp (o : FsOp SegPath) :
    Upholds (segRecorder faulty fails) (Exchanged s mem) (fun _ => True)
      (Proc.fileOp o : SegProg o.Res) := by
  intro u h
  apply Proc.safe_noted_file
  · exact fun _ _ => trivial
  · exact fun _ _ _ => ⟨h.mem, fun id there => List.mem_append_left _ (h.gone id there)⟩

theorem ask (q : SegQuestion) :
    Upholds (segRecorder faulty fails) (Exchanged s mem) (fun _ => True)
      (Proc.ask q : SegProg q.Ans) :=
  fun _ h => Proc.safe_noted_ask.2 fun _ _ => h

theorem cleanUp (ids : List Nat) :
    Upholds (segRecorder faulty fails) (Exchanged s mem) (fun _ => True) (cleanUp ids) :=
  .bind (.forEach (fun _ id _ => .ignore (fileOp (.remove (.old id)))) ()) fun _ =>
    .ignore (fileOp (.remove .marker))

theorem «open» (staging : Option Nat) (id resumeOffset maxSegmentSize : Nat) :
    Upholds (segRecorder faulty fails) (Exchanged s mem) (fun _ => True)
      (SegmentWriter.open staging id resumeOffset maxSegmentSize) := by
  have writeAll (path : SegPath) (bytes : Bytes) : Upholds (segRecorder faulty fails)
      (Exchanged s mem) (fun _ => True) (SegmentWriter.writeAll path bytes) :=
    .bind (.bind (ask _) fun _ => .bind (fileOp _) fun _ => .pure _) fun _ => .when (.throw _)
  have begun : Upholds (segRecorder faulty fails) (Exchanged s mem) (fun _ => True)
      (SegmentWriter.begin (.segment staging id) id resumeOffset) := by
    rw [SegmentWriter.begin]
    split
    · exact .bind (ask _) fun _ => .bind (writeAll _ _) fun _ => .bind (fileOp _) fun _ => .pure _
    · exact .bind (fileOp _) fun _ => .pure _
  exact .bind (fileOp _) fun _ => .bind begun fun _ => .pure _

end Exchanged

/-- Where the new writer cannot be opened, the new index is there already. -/
theorem safe_noted_finish (h : Exchanged s mem u) (x : Compaction) (ids : List Nat) :
    Safe (segRecorder faulty fails)
      (fun r v => ∀ e, r = .error e → Exchanged s (mem.setIndex .own (mem.index .new)) v)
      (fun _ => True) (finish x ids) u := by
  rw [finish]
  apply Safe.bind (((Exchanged.cleanUp ids u h).and (cleanUp_ok ids)).mono (fun _ _ h => h)
    fun _ _ => trivial)
  swap
  · exact fun e v h => by cases h.2
  rintro _ v ⟨h, -⟩
  apply Safe.bind (P := fun r w => ∀ e, r = .error e →
    Exchanged s (mem.setIndex .own (mem.index .new)) w)
  · rw [attach, safe_bind, Proc.safe_noted_load, thenSafe_ok, safe_bind, Proc.safe_noted_save,
      thenSafe_ok, h.mem]
    have replaced : Exchanged s (mem.setIndex .own (mem.index .new))
        (v.1.withMem (mem.setIndex .own (mem.index .new)), v.2) := ⟨rfl, h.gone⟩
    split
    all_goals
      apply Safe.bind (Exchanged.open _ _ _ _ _ replaced)
      · intro w v' _
        rw [safe_noted_set]
        exact fun _ ok => by cases ok
      · exact fun e v' kept _ _ => kept
  · exact fun _ w _ _ ok => by cases ok
  · exact fun e w kept _ _ => kept e rfl

end Swap

/-! ## What a failed compaction leaves -/

/-- Where a compaction is left that failed from the closing of the store's file on. -/
inductive Fails (s : SegState) (mem : SegmentStore) (u : SegState × SegLog) : Prop
  | moving (h : Moving s mem u)
  | placing (h : Placing s mem u)
  | exchanged (h : Exchanged s (mem.setIndex .own (mem.index .new)) u)

section Using

variable {s t : SegState} {L : Layout env} {n k : Nat} {log : SegLog} {reachable : ChunkId → Bool}

/-- The memory with the store's own file closed. -/
def closed (mem : SegmentStore) : SegmentStore :=
  mem.setWriter .own { mem.writer .own with isOpen := false }

theorem UnderWay.fresh (h : UnderWay log) (id : Nat) : movedAway id ∉ log :=
  h.not_mem (o := .rename (.active id) (.old id)) (p := .active id) rfl (.inl rfl) nofun true

theorem UnderWay.unmarked (h : UnderWay log) : (.sync .marker, true) ∉ log :=
  h.not_mem (o := .sync .marker) (p := .marker) rfl rfl nofun true

/-- The closing of the store's own file. -/
theorem AtClosing.safe_closeFile (h : AtClosing L n s t log) :
    Safe (segRecorder faulty fails)
      (fun _ u => Moving s (closed t.mem) u ∧ ∃ ok, u.2 = log ++ [(.sync (.active n), ok)])
      (fun _ => True) (SegmentWriter.closeFile .own) (t, log) := by
  obtain ⟨k, attached⟩ := h.attached
  obtain ⟨seg, f, m, -, hf, -, -, writer⟩ := attached.writer
  have path : (t.mem.writer .own).path = .active n := by rw [writer]; rfl
  have moving : Moving s (closed t.mem) (t.withMem (closed t.mem), log) :=
    ⟨rfl, fun id away => absurd away (h.underWay.fresh id), fun id _ => h.data id⟩
  apply safe_noted_closeFile (by rw [writer]) (by rw [writer])
  rw [path]
  refine safe_noting_perform.2 (Proc.safe_sync hf trivial trivial ?_ fun _ => ?_)
  · refine ⟨moving.snoc rfl (fun id => ?_) fun _ => by simp [movedAway], true, rfl⟩
    rw [Proc.withFs_fs, Fs.data, Fs.data, Fs.file_put]
    split
    · rename_i same
      rw [← same]
      exact (congrArg (Option.map File.data) hf).symm
    · rfl
  · exact ⟨moving.snoc rfl (fun _ => rfl) fun _ => by simp [movedAway], false, rfl⟩

theorem AtClosing.safe_fromClosing (h : AtClosing L n s t log) (x : Compaction) :
    Safe (segRecorder faulty fails)
      (fun r u => (∀ e, r = .error e → Fails s (closed t.mem) u) ∧ ¬ Early u.2) (fun _ => True)
      (fromClosing (some x)) (t, log) := by
  rw [fromClosing]
  apply Safe.bind h.safe_closeFile
  swap
  · rintro e u ⟨moving, ok, same⟩
    have grown : log ++ [(.sync (.active n), ok)] <+: u.2 := by rw [same]
    exact ⟨fun _ _ => .moving moving, h.underWay.not_early grown⟩
  rintro _ u ⟨moving, ok, same⟩
  have late (p : SegProg Nat) : Safe (segRecorder faulty fails) (fun _ v => ¬ Early v.2)
      (fun _ => True) p u :=
    (safe_noting_history p u).mono (fun _ v grown => h.underWay.not_early (same ▸ grown))
      fun _ _ => trivial
  have other {e : FsOp SegPath × Bool} (absent : e ∉ log) (diff : e.1 ≠ .sync (.active n)) :
      e ∉ u.2 := by
    rw [same, List.mem_append, List.mem_singleton, not_or]
    exact ⟨absent, fun eq => diff (congrArg Prod.fst eq)⟩
  have fresh (id : Nat) : movedAway id ∉ u.2 :=
    other (h.underWay.fresh id) nofun
  have unmarked : (.sync .marker, true) ∉ u.2 :=
    other h.underWay.unmarked nofun
  have failed : Safe (segRecorder faulty fails)
      (fun r v => ∀ e, r = .error e → Fails s (closed t.mem) v) (fun _ => True)
      (swap x >>= finish x) u := by
    apply Safe.bind (safe_noted_swap moving fresh unmarked x)
    · intro ids v exchanged
      exact (safe_noted_finish exchanged x ids).mono (fun _ _ h e failed => .exchanged (h e failed))
        fun _ h => h
    · exact fun e v failed _ _ => failed.elim .moving .placing
  exact (failed.and (late _)).mono (fun _ _ h => h) fun _ _ => trivial

/-! ## When the store can still be used -/

/-- What a chunk gives back while the store is attached to its files. -/
theorem Attached.located_iff (h : Attached .own none s L n k) {c : ChunkId} {d : Bytes} :
    Located env s c d ↔ L.Reads c d := by
  constructor
  · rintro ⟨loc, f, found, file, ok⟩
    have latest := h.index.latest c loc found
    obtain ⟨seg, hseg, -⟩ := Layout.mem_entries.1 latest.mem
    obtain ⟨g, there, content⟩ := h.content hseg
    obtain rfl := Option.some.inj (file.symm.trans there)
    exact ⟨loc, seg, latest, hseg, content ▸ ok⟩
  · rintro ⟨loc, seg, latest, hseg, ok⟩
    obtain ⟨loc', found⟩ := h.index.complete c loc latest.mem
    obtain rfl := (h.index.latest c loc' found).unique latest
    obtain ⟨f, there, content⟩ := h.content hseg
    exact ⟨loc', f, found, there, content ▸ ok⟩

/-- Every chunk that the index names is there. -/
theorem Attached.exists_located (h : Attached .own none s L n k) {V : Known} (sound : Sound V L)
    {c : ChunkId} (named : (s.mem.index .own).contains c = true) : ∃ d, Located env s c d := by
  obtain ⟨d, -, reads⟩ := sound.exists_reads h ((h.contains_iff c).1 named)
  exact ⟨d, h.located_iff.2 reads⟩

/-- What the store looks like where a compaction fails before it closes the store's file. -/
theorem Attached.usable (h : Attached .own none s L n k) {k' : Nat} (h' : Attached .own none t L n k')
    {V : Known} (sound : Sound V L) (clean : Clean t.fs) : Usable env s t := by
  constructor
  · intro c d reads
    rw [← OosLite.located_iff] at reads ⊢
    rw [h'.located_iff, ← h.located_iff]
    exact reads
  · intro data fits absent
    have held : Holds env V t {c | L.Has c} ∅ := ⟨L, n, k', h', sound, fun _ => Iff.rfl, nofun⟩
    have new : ChunkId.fromData env data ∉ {c | L.Has c} := fun has => by
      rw [(h.contains_iff _).2 has] at absent
      cases absent
    have known : Holds env (fun c d => c = ChunkId.fromData env data → d = data) t {c | L.Has c} ∅ := by
      apply held.known
      intro c has d _ same
      exact absurd (same ▸ has) new
    apply Safe.ends (total_segMachine _) (C := fun _ => True)
    apply Safe.bind ((known.putChunk tidy_steady clean.quiet fits fun _ => rfl).mono
      (fun _ _ post => post) fun _ _ => trivial)
    · intro put u ⟨_, ok, _, holds, _⟩
      cases ok
      obtain ⟨d, same, reads⟩ := holds.getChunk tidy_steady (Set.mem_insert _ _)
      apply (reads fun _ => True).mono
      · intro r v ⟨_, ok⟩
        rw [ok, same rfl]
      · exact fun _ h => h
    · exact fun e u ⟨_, ok, _⟩ => nomatch ok

/-- The writer is closed, and the index has no chunk that it had not before. -/
structure Shut (s t : SegState) : Prop where
  writer : t.mem.writer .own = { s.mem.writer .own with isOpen := false }
  index : ∀ c, (t.mem.index .own).contains c = true → (s.mem.index .own).contains c = true

/-- What the store looks like where it fails later. -/
theorem Shut.usable_iff (h : Shut s t) (own : (s.mem.writer .own).staging = none) :
    Usable env s t ↔ Crowded env s ∧ InPlace env s t := by
  have isClosed : (t.mem.writer .own).isOpen = false := by rw [h.writer]
  have absent {data : Bytes} (new : (s.mem.index .own).contains (ChunkId.fromData env data) = false) :
      (t.mem.index .own).contains (ChunkId.fromData env data) = false := by
    by_contra there
    rw [h.index _ (by simpa using there)] at new
    cases new
  have rotates (data : Bytes) : Rotates env t data ↔ Rotates env s data := by
    rw [Rotates, Rotates, h.writer]
  constructor
  · intro usable
    refine ⟨fun data fits new => ?_, fun c d located => ?_⟩
    · by_contra room
      have refused := safe_putChunk_closed isClosed (absent new) ((rotates data).not.2 room)
      have failed : Safe steady (fun r _ => ∃ e, r = .error e) (fun _ => True) (do
          let put ← putChunk env data
          getChunk env put.1) t := by
        apply Safe.bind refused
        · exact fun _ _ ⟨_, ok⟩ => nomatch ok
        · exact fun e _ _ => ⟨e, rfl⟩
      obtain ⟨r, u, run⟩ := (usable.puts data fits new).some
      obtain ⟨e, error⟩ := failed.returns run
      rw [error] at run
      exact nomatch (usable.puts data fits new).all _ _ run
    · rw [OosLite.located_iff] at located ⊢
      exact usable.reads c d located
  · intro ⟨crowded, inPlace⟩
    refine ⟨fun c d reads => ?_, fun data fits new => ?_⟩
    · rw [← OosLite.located_iff] at reads ⊢
      exact inPlace c d reads
    · apply Safe.ends (total_segMachine _) (C := fun _ => True)
      apply Safe.bind (safe_putChunk_rotates isClosed (absent new) (by rw [h.writer]; exact own)
        ((rotates data).2 (crowded data fits new)) fits)
      · intro put u ⟨ok, located⟩
        cases ok
        exact located.safe_getChunk.mono (fun _ _ post => post.1) fun _ h => h
      · exact fun e u ⟨ok, _⟩ => nomatch ok

/-- What is in its place while the old segments are moved away. -/
theorem Moving.inPlace_iff {mem : SegmentStore} (h : Moving s mem (t, log))
    (index : mem.index .own = s.mem.index .own)
    (held : ∀ c, (s.mem.index .own).contains c = true → ∃ d, Located env s c d) :
    InPlace env s t ↔ NamedStay s log := by
  have same : t.mem.index .own = s.mem.index .own := by rw [h.mem, index]
  constructor
  · intro inPlace c loc found away
    obtain ⟨d, located⟩ := held c (by rw [Std.ExtTreeMap.contains_eq_isSome_getElem?, found]; rfl)
    obtain ⟨loc', f, found', file, -⟩ := inPlace c d located
    rw [same, found] at found'
    cases found'
    rw [h.moved _ away] at file
    cases file
  · rintro stay c d ⟨loc, f, found, file, ok⟩
    have data := h.stays loc.segmentId (stay c loc found)
    rw [Fs.data, Fs.data, file] at data
    obtain ⟨g, there, content⟩ := Option.map_eq_some_iff.1 data
    exact ⟨loc, g, same ▸ found, there, content ▸ ok⟩

/-- Once all were moved away, no segment that the index names has stayed. -/
theorem not_namedStay (gone : ∀ id, (s.fs.file (.active id)).isSome → movedAway id ∈ log)
    {c : ChunkId} {d : Bytes} (located : Located env s c d) : ¬ NamedStay s log := by
  obtain ⟨loc, f, found, file, -⟩ := located
  exact fun stay => stay c loc found (gone loc.segmentId (by rw [file]; rfl))

/-- What the store looks like where a compaction fails from the closing of its file on. -/
theorem Fails.usable {v : SegState} {log' : SegLog} (h : Fails s (closed t.mem) (v, log'))
    (closing : AtClosing L n s t log) (copied : CopiedSome reachable s t)
    (own : (s.mem.writer .own).staging = none)
    (held : ∀ c, (s.mem.index .own).contains c = true → ∃ d, Located env s c d) :
    (Crowded env s ∧ NamedStay s log' → Usable env s v) ∧
      (Usable env s v → Crowded env s ∧ NamedStay s log' ∨ Overlaid log') := by
  have writer : (closed t.mem).writer .own = { s.mem.writer .own with isOpen := false } := by
    rw [closed, setWriter_writer, if_pos rfl, closing.writer]
  have index : (closed t.mem).index .own = s.mem.index .own := closing.index
  obtain ⟨c, named, unreached⟩ := copied.notAll
  obtain ⟨d, located⟩ := held c named
  cases h with
  | moving h =>
    have shut : Shut s v := ⟨by rw [h.mem, writer], fun c there => by rwa [h.mem, index] at there⟩
    rw [shut.usable_iff own, h.inPlace_iff index held]
    exact ⟨id, .inl⟩
  | placing h =>
    have shut : Shut s v := ⟨by rw [h.mem, writer], fun c there => by rwa [h.mem, index] at there⟩
    refine ⟨fun ⟨_, stay⟩ => absurd stay (not_namedStay h.gone located), fun usable => .inr ?_⟩
    refine ⟨h.placed.resolve_right fun absent => ?_, h.unmarked⟩
    obtain ⟨loc, f, -, file, -⟩ := ((shut.usable_iff own).1 usable).2 c d located
    rw [absent] at file
    cases file
  | exchanged h =>
    have newIndex : v.mem.index .own = t.mem.index .new := by
      rw [h.mem, setIndex_index, if_pos rfl]
      rfl
    have shut : Shut s v := by
      refine ⟨by rw [h.mem, setIndex_writer, writer], fun c there => ?_⟩
      exact (copied.some c (newIndex ▸ there)).1
    refine ⟨fun ⟨_, stay⟩ => absurd stay (not_namedStay h.gone located), fun usable => ?_⟩
    obtain ⟨loc, f, found, -⟩ := ((shut.usable_iff own).1 usable).2 c d located
    have there : (t.mem.index .new).contains c = true := by
      rw [← newIndex, Std.ExtTreeMap.contains_eq_isSome_getElem?, found]
      rfl
    rw [(copied.some c there).2] at unreached
    cases unreached

end Using

end Proofs

/-- After a compaction that failed the store can be used if nothing was done yet but to sync its last
file and to work in the staging directory, or if every new chunk starts a new file and no segment that
the index names was moved away; and else only, by what the new segments happen to hold, if they were
moved in. -/
theorem failed_compaction_usable_iff (env : Env) (reachable : ChunkId → Bool) {s t : SegState}
    {g : History} {log : SegLog} {e : OosLiteError}
    (reach : StoreReachable env (Spared env) ⟨.running s, g⟩)
    (run : Returns (segRecorder (fun _ => True) True) (compactAndReclaim env reachable) (s, [])
      (.error e) (t, log)) :
    (Early log ∨ Crowded env s ∧ NamedStay s log → Usable env s t) ∧
      (Usable env s t → (Early log ∨ Crowded env s ∧ NamedStay s log) ∨ Overlaid log) := by
  obtain ⟨clean, _, _, L, n, k, attached, sound, _, _⟩ := (storeInv reach).running s rfl
  obtain ⟨_, _, m, _, _, _, _, writer⟩ := attached.writer
  rw [compactAndReclaim_eq] at run
  rcases returns_bind.1 run with ⟨x, ⟨u, log'⟩, first, rest⟩ | ⟨_, first, same⟩
  · obtain ⟨closing, copied⟩ := (safe_beforeClosing attached).returns first
    cases x with
    | none => cases rest
    | some x =>
      obtain ⟨failed, late⟩ := (closing.safe_fromClosing x).returns rest
      obtain ⟨enough, needed⟩ := (failed e rfl).usable closing (copied x rfl) (by rw [writer])
        fun c named => attached.exists_located sound named
      exact ⟨fun condition => enough (condition.resolve_left late),
        fun usable => (needed usable).imp_left .inr⟩
  · cases same
    obtain ⟨closing, -⟩ := (safe_beforeClosing attached).returns first
    obtain ⟨k', attached'⟩ := closing.attached
    have usable := attached.usable attached' sound (clean.congr closing.old)
    exact ⟨fun _ => usable, fun _ => .inl (.inl closing.underWay.early)⟩

namespace StoreSample

/-- A program whose file operation behind that many fails. -/
def failAt {α : Type} (p : SegProg α) (count : Nat) (s : SegState) : Result α × SegState :=
  Proc.exec OosLiteError.ofIo (fun _ => true) answer p (List.replicate count none ++ [some 0]) s

theorem returns_failAt {α : Type} (p : SegProg α) (count : Nat) (s : SegState) :
    Returns brittle p s (failAt p count s).1 (failAt p count s).2 := by
  have legal (q : SegQuestion) : q.Allowed True (answer q) := by
    cases q with
    | entries index => exact List.Perm.refl _
    | accepts count => exact .inl rfl
    | _ => trivial
  exact (Proc.returns_exec legal p _ s).mono (Proc.machine_le _ _ _ _ fun _ _ => trivial)

/-- The chunk that is kept cannot be copied. -/
def unread : Result (Option Compaction) × SegState := failAt (beforeClosing env keep) 5 both

/-- The two chunks in a store whose segments are full at once. -/
def crowded : SegState :=
  (run ((StoreOp.put other).run env) (run ((StoreOp.put chunk).run env)
    (run (openStore env 1) ⟨empty, memory⟩).2).2).2

def copied : Result (Option Compaction) × SegState := failAt (beforeClosing env keep) 100 crowded

/-- The store's own file cannot be synced before it is closed. -/
def unsynced : Result Unit × SegState := failAt (SegmentWriter.closeFile .own) 0 copied.2

/-- The new segment cannot be renamed. -/
def unplaced : Result Nat × SegState := failAt (compactAndReclaim env keep) 12 both

/-- The chunk that is kept, as a store gives it back. -/
def got (s : SegState) : Result Bytes := (run (getChunk env (ChunkId.fromData env chunk)) s).1

theorem fails : unread.1.isOk = false ∧ unsynced.1.isOk = false ∧ unplaced.1.isOk = false ∧
    (copied.1.toOption.bind id).isSome = true ∧
    (crowded.mem.writer .own).maxSegmentSize < (crowded.mem.writer .own).currentOffset ∧
    got both = .ok chunk ∧ got unplaced.2 ≠ .ok chunk := by
  decide +kernel

theorem reaches_crowded : ∃ g, StoreReachable env (Spared env) ⟨.running crowded, g⟩ :=
  reaches_puts (by decide +kernel)

theorem crowded_crowded : Crowded env crowded := by
  intro data _ _
  obtain ⟨-, -, -, -, full, -⟩ := fails
  rw [Rotates]
  omega

theorem exists_copied : ∃ x, copied.1 = .ok (some x) := by
  obtain ⟨-, -, -, some, -⟩ := fails
  cases h : copied.1 with
  | ok x =>
    rw [h] at some
    exact (Option.isSome_iff_exists.1 some).imp fun _ same => congrArg Except.ok same
  | error e =>
    rw [h] at some
    cases some

/-- How the compaction of the crowded store ends, and what was done to its files. -/
theorem compacts_unsynced : ∃ e log, NamedStay crowded log ∧
    Returns (segRecorder (fun _ => True) True) (compactAndReclaim env keep) (crowded, []) (.error e)
      (unsynced.2, log) := by
  obtain ⟨g, reach⟩ := reaches_crowded
  obtain ⟨-, -, -, L, n, k, attached, -⟩ := (storeInv reach).running _ rfl
  obtain ⟨x, hx⟩ := exists_copied
  obtain ⟨e, he⟩ := Result.exists_error fails.2.1
  have first := returns_failAt (beforeClosing env keep) 100 crowded
  rw [show (failAt (beforeClosing env keep) 100 crowded).1 = .ok (some x) from hx] at first
  obtain ⟨log, first⟩ := first.noted []
  have last := returns_failAt (SegmentWriter.closeFile .own) 0 copied.2
  rw [show (failAt (SegmentWriter.closeFile .own) 0 copied.2).1 = .error e from he] at last
  obtain ⟨log', last⟩ := last.noted log
  obtain ⟨closing, -⟩ := (safe_beforeClosing attached).returns first
  obtain ⟨-, ok, same⟩ := closing.safe_closeFile.returns last
  refine ⟨e, log', fun c loc _ away => ?_, ?_⟩
  · rw [show log' = _ from same, List.mem_append, List.mem_singleton] at away
    rcases away with away | away
    · exact closing.underWay.fresh _ away
    · cases away
  · rw [compactAndReclaim_eq]
    exact returns_bind.2 (.inl ⟨some x, _, first, returns_bind.2 (.inr ⟨e, last, rfl⟩)⟩)

end StoreSample

/-- The store after the chunk that is kept could not be read, and one whose segments are full after
its file could not be synced. -/
theorem failed_compaction_usable_iff_unread :
    Usable StoreSample.env StoreSample.both StoreSample.unread.2 ∧
      Usable StoreSample.env StoreSample.crowded StoreSample.unsynced.2 := by
  constructor
  · obtain ⟨g, reach⟩ := StoreSample.reaches_both
    obtain ⟨e, he⟩ := Result.exists_error StoreSample.fails.1
    have first := StoreSample.returns_failAt (beforeClosing StoreSample.env StoreSample.keep) 5
      StoreSample.both
    rw [show (StoreSample.failAt (beforeClosing StoreSample.env StoreSample.keep) 5
      StoreSample.both).1 = .error e from he] at first
    obtain ⟨log, first⟩ := first.noted []
    obtain ⟨-, -, -, L, n, k, attached, -⟩ := (storeInv reach).running _ rfl
    obtain ⟨closing, -⟩ := (safe_beforeClosing attached).returns first
    have run : Returns (segRecorder (fun _ => True) True)
        (compactAndReclaim StoreSample.env StoreSample.keep) (StoreSample.both, []) (.error e)
        (StoreSample.unread.2, log) := by
      rw [compactAndReclaim_eq]
      exact returns_bind.2 (.inr ⟨e, first, rfl⟩)
    exact (failed_compaction_usable_iff StoreSample.env StoreSample.keep reach run).1
      (.inl closing.underWay.early)
  · obtain ⟨g, reach⟩ := StoreSample.reaches_crowded
    obtain ⟨e, log, stay, run⟩ := StoreSample.compacts_unsynced
    exact (failed_compaction_usable_iff StoreSample.env StoreSample.keep reach run).1
      (.inr ⟨StoreSample.crowded_crowded, stay⟩)

/-- Where the new segment cannot be renamed, the chunk that is kept is not read any more. -/
theorem failed_rename_loses_chunks :
    ¬ ∀ (reachable : ChunkId → Bool) (s t : SegState) (g : History) (e : OosLiteError),
      StoreReachable StoreSample.env (Spared StoreSample.env) ⟨.running s, g⟩ →
      Returns brittle (compactAndReclaim StoreSample.env reachable) s (.error e) t →
      Usable StoreSample.env s t := by
  intro all
  obtain ⟨g, reach⟩ := StoreSample.reaches_both
  obtain ⟨-, -, fails, -, -, given, lost⟩ := StoreSample.fails
  obtain ⟨e, he⟩ := Result.exists_error fails
  have run := StoreSample.returns_failAt (compactAndReclaim StoreSample.env StoreSample.keep) 12
    StoreSample.both
  rw [show (StoreSample.failAt (compactAndReclaim StoreSample.env StoreSample.keep) 12
    StoreSample.both).1 = .error e from he] at run
  have usable := all _ _ _ g e reach run
  have before := StoreSample.returns_run (getChunk StoreSample.env
    (ChunkId.fromData StoreSample.env StoreSample.chunk)) StoreSample.both
  rw [show (StoreSample.run (getChunk StoreSample.env
    (ChunkId.fromData StoreSample.env StoreSample.chunk)) StoreSample.both).1 =
      .ok StoreSample.chunk from given] at before
  have after := usable.reads _ _ (located_iff.1 (.of_returns before))
  exact lost (after.all _ _ (StoreSample.returns_run _ _))

end OosLite
