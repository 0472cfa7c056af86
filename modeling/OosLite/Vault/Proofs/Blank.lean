import OosLite.Engine.Proofs.Sealed

/-!
# Stores that were never opened

Before an open has returned there is nothing in a store but, perhaps, the first segment without a
record and an empty log. Opening it again and again, stopped anywhere, leaves it so.
-/

namespace OosLite

open Files Effect SegmentStore

variable {env : Env} {faulty : FsOp SegPath → Prop} {fails : Prop} {fs fs' : Fs SegPath}

/-- There are no files but active segments. -/
def OnlyActive (fs : Fs SegPath) : Prop := ∀ p f, fs.file p = some f → p.isActive = true

namespace OnlyActive

theorem powerCut (h : OnlyActive fs) (cut : fs.PowerCut fs') : OnlyActive fs' := by
  intro p f there
  have same := cut.isSome p
  rw [there] at same
  obtain ⟨g, before⟩ := Option.isSome_iff_exists.1 same.symm
  exact h p g before

end OnlyActive

/-- A program that makes no files but active segments. -/
abbrev KeepsActive (faulty : FsOp SegPath → Prop) (fails : Prop) {α : Type} (p : SegProg α) : Prop :=
  Proc.Guards OosLiteError.ofIo faulty (SegQuestion.Allowed fails) OnlyActive p

namespace KeepsActive

/-- An operation on active segments. -/
theorem active {o : FsOp SegPath} (only : ∀ q, Fs.Touches o q → q.isActive = true) :
    KeepsActive faulty fails (Proc.fileOp o : SegProg o.Res) := by
  apply Maintains.fileOp
  intro fs fs' h leads p f there
  by_cases touched : Fs.Touches o p
  · exact only p touched
  · exact h p f (leads.untouched touched ▸ there)

/-- Removing and syncing, and renaming to active segments. -/
theorem inherited {o : FsOp SegPath} (kind : (∃ p, o = .sync p) ∨ (∃ p, o = .remove p) ∨
      (∃ select, o = .removeAll select) ∨ ∃ source target, o = .rename source target)
    (target : ∀ p q, o = .rename p q → q.isActive = true) :
    KeepsActive faulty fails (Proc.fileOp o : SegProg o.Res) := by
  apply Maintains.fileOp
  intro fs fs' h leads q f there
  obtain ⟨p, g, before, same | rename, -⟩ := leads.inherited kind there
  · exact same ▸ h p g before
  · exact target p q rename

theorem remove (p : SegPath) : KeepsActive faulty fails (Proc.remove p : SegProg Unit) :=
  inherited (.inr (.inl ⟨p, rfl⟩)) fun _ _ same => by cases same

theorem listIds (select : SegPath → Bool) : KeepsActive faulty fails (listIds select) :=
  Maintains.bind (active fun _ => False.elim) fun _ => .pure _

theorem restoreOld (id : Nat) : KeepsActive faulty fails (restoreOld id) := by
  apply Maintains.bind (active fun _ => False.elim)
  intro present
  apply Maintains.bind (.when (remove _))
  intro _
  apply inherited (.inr (.inr (.inr ⟨_, _, rfl⟩)))
  intro p q same
  cases same
  rfl

theorem settle (done : Bool) (ids : List Nat) : KeepsActive faulty fails (settle done ids) := by
  have marker : KeepsActive faulty fails (Proc.ignore (Proc.remove .marker) : SegProg Unit) :=
    .ignore (remove _)
  rw [SegmentStore.settle]
  split
  · split
    · exact Maintains.bind (.forEach (fun _ _ _ => .ignore (remove _)) _) fun _ => marker
    · exact Maintains.bind (.forEach (fun _ id _ => restoreOld id) _) fun _ => marker
  · exact Maintains.bind (active fun _ => False.elim) fun _ => .when marker

theorem recoverSegment (newestId : Nat) (b : Nat × Nat) (id : Nat) :
    KeepsActive faulty fails (recoverSegment env newestId b id) := by
  apply Maintains.bind (active fun _ => False.elim)
  intro content
  apply Maintains.bind (.ofExcept _)
  intro header
  apply Maintains.bind .load
  intro store
  apply Maintains.bind (.save _)
  intro _
  apply Maintains.bind (.ofExcept _)
  intro repair
  have cut (len : Nat) : KeepsActive faulty fails (Proc.setLen (.active id) len : SegProg Unit) :=
    active fun q same => by rw [show q = .active id from same]; rfl
  have sync : KeepsActive faulty fails (Proc.sync (.active id) : SegProg Unit) :=
    active fun q same => by rw [show q = .active id from same]; rfl
  exact Maintains.bind (.when (Maintains.bind (cut _) fun _ => sync)) fun _ => .pure _

theorem recoverAndIndex : KeepsActive faulty fails (recoverAndIndex env) := by
  apply Maintains.bind
  · exact .handle (Maintains.bind (active fun _ => False.elim) fun _ => .pure _) fun _ => .pure _
  intro done
  apply Maintains.bind
  · exact .ignore (inherited (.inr (.inr (.inl ⟨_, rfl⟩))) fun _ _ same => by cases same)
  intro _
  apply Maintains.bind (listIds _)
  intro olds
  apply Maintains.bind (settle done olds)
  intro _
  apply Maintains.bind (listIds _)
  intro ids
  simp only
  split
  · exact .pure _
  · exact .forEach (fun b id _ => recoverSegment _ b id) _

theorem openWriter (id resumeOffset maxSegmentSize : Nat) :
    KeepsActive faulty fails (SegmentWriter.open none id resumeOffset maxSegmentSize) := by
  have own (q : SegPath) (same : q = .active id) : q.isActive = true := by
    rw [same]
    rfl
  have create : KeepsActive faulty fails (Proc.create (.active id) : SegProg Unit) := active own
  have sync : KeepsActive faulty fails (Proc.sync (.active id) : SegProg Unit) := active own
  have write (new : Bytes) : KeepsActive faulty fails (Proc.write (.active id) new : SegProg Unit) := active own
  apply Maintains.bind create
  intro _
  apply Maintains.bind ?_ fun _ => .pure _
  unfold SegmentWriter.begin
  split
  · apply Maintains.bind (.ask _)
    intro createdAt
    apply Maintains.bind
    · apply Maintains.bind
      · exact Maintains.bind (.ask _) fun _ => Maintains.bind (write _) fun _ => .pure _
      · exact fun _ => .when (.throw _)
    · exact fun _ => Maintains.bind sync fun _ => .pure _
  · exact Maintains.bind (active fun _ => False.elim) fun _ => .pure _

theorem openStore (maxSegmentSize : Nat) : KeepsActive faulty fails (openStore env maxSegmentSize) := by
  apply Maintains.bind .load
  intro store
  apply Maintains.bind (.save _)
  intro _
  apply Maintains.bind recoverAndIndex
  intro found
  exact Maintains.bind (openWriter _ _ _) fun _ => Maintains.bind .load fun _ => .save _

end KeepsActive

/-! ## The log -/

/-- Nothing has ever been appended to the log. -/
def BlankLog (fs : Fs WalPath) : Prop := ∀ f, fs.file .log = some f → f.data = [] ∧ f.durable = []

/-- A log of no records at all. -/
theorem blankLog_iff {fs : Fs WalPath} : BlankLog fs ↔ Wal.Intact env (fun _ => False) fs := by
  have nil {bytes : Bytes} : bytes = [] ↔ Wal.Front env (fun _ => False) bytes := by
    constructor
    · rintro rfl
      exact .nil
    · rintro ⟨frames, good, front⟩
      cases frames with
      | nil => exact List.prefix_nil.1 front
      | cons frame rest => exact (good.each frame List.mem_cons_self).elim
  exact forall₂_congr fun f _ => and_congr nil nil

theorem BlankLog.powerCut {fs fs' : Fs WalPath} (h : BlankLog fs) (cut : fs.PowerCut fs') :
    BlankLog fs' := by
  intro f there
  cases before : fs.file .log with
  | none =>
    rw [cut.absent before] at there
    cases there
  | some g =>
    obtain ⟨img, survives, same⟩ := cut.present before
    rw [same] at there
    obtain rfl := Option.some.inj there
    obtain ⟨data, durable⟩ := h g before
    have nothing : img = [] := by
      rcases survives.1 with below | below
      · exact List.prefix_nil.1 (durable ▸ below)
      · exact List.prefix_nil.1 (data ▸ below)
    exact ⟨nothing, nothing⟩

/-! ## Opening -/

/-- What an attempt to open a new store leaves of it. -/
structure Disk.Blank (d : Disk) : Prop where
  segments : OnlyActive d.segments
  log : BlankLog d.wal
  tables : d.tables = .empty

namespace Disk.Blank

theorem powerCut {d d' : Disk} (h : d.Blank) (cut : d.PowerCut d') : d'.Blank :=
  ⟨h.segments.powerCut cut.segments, h.log.powerCut cut.wal, cut.tables.trans h.tables⟩

theorem new : Disk.Blank .new := by
  refine ⟨fun p f there => ?_, fun f there => ?_, rfl⟩
  · simp [Disk.new, Fs.file] at there
  · simp [Disk.new, Fs.file] at there

/-- Opening it does not write anything but the header of the first segment. -/
theorem openInternal {f : Faults} (only : f.OnlyMetadata) {d : Disk} (h : d.Blank) {s : StorageEngine}
    (starts : s.Starts d) :
    Safe (engineMachine f) (fun _ t => t.disk.Blank) (fun t => t.disk.Blank)
      (StorageEngine.openInternal env) s := by
  obtain ⟨segments, wal, tables⟩ := starts
  have active : OnlyActive s.segmentStore.fs := segments ▸ h.segments
  have log : BlankLog s.wal.fs := wal ▸ h.log
  have none : s.metadataStore = .empty := tables.trans h.tables
  unfold StorageEngine.openInternal
  rw [safe_bind]
  apply StorageEngine.safe_segments
  apply (KeepsActive.openStore 0 s.segmentStore active).mono
  · intro r g active'
    cases r with
    | error e => exact ⟨active', log, none⟩
    | ok _ =>
      have intact := (@blankLog_iff env _).1 log
      rw [thenSafe_ok, safe_bind]
      apply StorageEngine.safe_log
      apply (Wal.Intact.openWithVault (s := s.wal) intact only.wal).mono
      · rintro r w ⟨ok, -, frames, lists⟩
        have log' : BlankLog w.fs := blankLog_iff.2 lists.intact
        have nothing : frames = [] := List.eq_nil_iff_forall_not_mem.2 fun _ => lists.good.each _
        subst nothing
        rw [ok, thenSafe_ok]
        unfold StorageEngine.recover
        rw [safe_bind]
        apply StorageEngine.safe_log
        apply (lists.read only.wal).mono ?_ fun _ never => never.elim
        rintro r u ⟨rfl, found⟩
        rw [found, thenSafe_ok]
        exact safe_when (fun some => absurd rfl some) fun _ => ⟨active', log', none⟩
      · intro w intact'
        exact ⟨active', blankLog_iff.2 intact', none⟩
  · exact fun g active' => ⟨active', log, none⟩

end Disk.Blank

/-- A store in which nothing was ever written. -/
structure Disk.Unwritten (d : Disk) : Prop where
  segments : ∀ p, d.segments.file p = none
  log : BlankLog d.wal
  tables : d.tables = .empty

theorem Disk.Blank.unwritten {d : Disk} (h : d.Blank)
    (no : ∀ p, p.isActive = true → d.segments.file p = none) : d.Unwritten := by
  refine ⟨fun p => ?_, h.log, h.tables⟩
  cases there : d.segments.file p with
  | none => rfl
  | some f =>
    rw [no p (h.segments p f there)] at there
    cases there

namespace Disk.Unwritten

theorem new : Disk.Unwritten .new := by
  refine ⟨fun p => ?_, Blank.new.log, rfl⟩
  simp [Disk.new, Fs.file]

/-- A store with any key may begin there. -/
theorem begins {d : Disk} (h : d.Unwritten) (files : Set Bytes) :
    Remains env files .empty d ∧ LeavesSealed env (piecesOf env files) d.segments := by
  have unneeded (c : ChunkId) (hc : c ∈ d.tables.needed env) : False := by
    obtain ⟨id, manifest, found, -⟩ := hc
    rw [h.tables, MetadataStore.getManifest_of_none (by simp [MetadataStore.empty])] at found
    cases found
  refine ⟨⟨.inr (recoverable_of_empty h.segments fun L no => ?_), ?_, ?_⟩, ?_, .of_empty h.segments⟩
  · exact ⟨fun r hr => by simp [no] at hr, fun c hc => (unneeded c hc).elim⟩
  · exact (blankLog_iff.1 h.log).mono fun _ => False.elim
  · rw [h.tables]
  · intro p f _ there
    rw [h.segments] at there
    cases there

end Disk.Unwritten

end OosLite
