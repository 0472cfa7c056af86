import OosLite.Segment.Proofs.Disk
import Mathlib.Data.List.Nodup

/-!
# Recovery

From a recoverable directory, `recover_and_index` gets to a layout with the wanted property,
and a crash in it leaves a recoverable directory. Removing old segments and the marker may
fail; what that can spoil is said in the conclusions.
-/

namespace OosLite

open Files Effect SegmentStore

variable {env : Env}

/-- The removals whose results the store ignores. -/
def Cleanup (o : FsOp SegPath) : Prop := o = .remove .marker ∨ ∃ id, o = .remove (.old id)

/-- Files outside the staging directories are the same. -/
def SameStore (fs fs' : Fs SegPath) : Prop :=
  ∀ p : SegPath, p.isStaging = false → fs'.file p = fs.file p

section Congr

variable {fs fs' : Fs SegPath}

theorem SameStore.refl (fs : Fs SegPath) : SameStore fs fs := fun _ _ => rfl

theorem SameStore.trans {fs'' : Fs SegPath} (h : SameStore fs fs') (h' : SameStore fs' fs'') :
    SameStore fs fs'' := fun p hp => (h' p hp).trans (h p hp)

theorem SameStore.dropAll {select : SegPath → Bool}
    (staged : ∀ p, select p = true → p.isStaging = true) (fs : Fs SegPath) :
    SameStore fs (fs.dropAll select) := by
  intro p hp
  rw [Fs.file_dropAll, if_neg]
  intro selected
  rw [staged p selected] at hp
  cases hp

theorem Quiet.congr (same : SameStore fs fs') (h : Quiet fs) : Quiet fs' :=
  h.imp (fun none id => (same _ rfl).trans (none id)) (same .marker rfl).trans

theorem Swapping.congr {O N : Layout env} (same : SameStore fs fs') (h : Swapping fs O N) :
    Swapping fs' O N where
  unmarked f img hf := h.unmarked f img ((same .marker rfl).symm.trans hf)
  old id seg hseg := by
    rw [same (.old id) rfl, same (.active id) rfl]
    exact h.old id seg hseg
  new id none := by
    rw [same (.old id) rfl, same (.active id) rfl]
    exact h.new id none

theorem Recoverable.congr {P : Layout env → Prop} (same : SameStore fs fs')
    (h : Recoverable fs P) : Recoverable fs' P := by
  cases h with
  | settled L n k quiet disk all =>
    exact .settled L n k (quiet.congr same) (disk.congr fun id => same _ rfl) all
  | swapping O N swapping all => exact .swapping O N (swapping.congr same) all

end Congr

variable {faulty : FsOp SegPath → Prop} {C : SegState → Prop}

theorem not_faulty_list (tidy : ∀ o, faulty o → Cleanup o) (select : SegPath → Bool) :
    ¬ faulty (.list select) := by
  intro h
  simpa [Cleanup] using tidy _ h

/-- The numbers of the files that are there, each once. -/
theorem safe_listIds {fails : Prop} {select : SegPath → Bool} {s : SegState}
    {Q : Result (List Nat) → SegState → Prop} (always : ∀ select, ¬ faulty (.list select))
    (path : Nat → SegPath)
    (number : ∀ id, (path id).id = id) (selects : ∀ p, select p = true ↔ ∃ id, path id = p)
    (done : ∀ ids : List Nat, ids.Nodup → (∀ id, id ∈ ids ↔ (s.fs.file (path id)).isSome) →
      Q (.ok ids) s) : Safe (segMachine faulty fails) Q C (listIds select) s := by
  rw [listIds, safe_bind]
  refine Proc.safe_list (fun ps perm => ?_) fun h => absurd h (always _)
  refine done _ ?_ fun id => ?_
  · refine List.Nodup.map_on (fun p hp q hq same => ?_) (perm.nodup_iff.2 (s.fs.nodup_listing _))
    obtain ⟨-, hp⟩ := (s.fs.mem_listing _ _).1 (perm.mem_iff.1 hp)
    obtain ⟨-, hq⟩ := (s.fs.mem_listing _ _).1 (perm.mem_iff.1 hq)
    obtain ⟨i, rfl⟩ := (selects p).1 hp
    obtain ⟨j, rfl⟩ := (selects q).1 hq
    rw [number, number] at same
    rw [same]
  · rw [List.mem_map]
    constructor
    · rintro ⟨p, hp, rfl⟩
      obtain ⟨present, hp⟩ := (s.fs.mem_listing _ _).1 (perm.mem_iff.1 hp)
      obtain ⟨i, rfl⟩ := (selects p).1 hp
      rwa [number]
    · intro present
      exact ⟨path id, perm.mem_iff.2 ((s.fs.mem_listing _ _).2
        ⟨present, (selects _).2 ⟨id, rfl⟩⟩), number id⟩

theorem selects_active (p : SegPath) : p.isActive = true ↔ ∃ id, SegPath.active id = p := by
  cases p <;> simp [SegPath.isActive]

theorem selects_old (p : SegPath) : p.isOld = true ↔ ∃ id, SegPath.old id = p := by
  cases p <;> simp [SegPath.isOld]

theorem selects_staged (dir : Nat) (p : SegPath) :
    p.isStagedIn dir = true ↔ ∃ id, SegPath.staging dir id = p := by
  cases p <;> simp [SegPath.isStagedIn, eq_comm]

/-! ## The rest of a compaction -/

theorem safe_readMarker (tidy : ∀ o, faulty o → Cleanup o) {s : SegState}
    {Q : Result Bool → SegState → Prop}
    (done : Q (.ok (decide (s.fs.data .marker = some compactDone))) s) :
    Safe (segMachine faulty) Q C readMarker s := by
  rw [readMarker, safe_handle, safe_bind]
  refine Proc.safe_read (fun f hf => ?_) (fun absent => ?_) fun h =>
    absurd (tidy _ h) (by simp [Cleanup])
  · simpa [Fs.data, hf] using done
  · simpa [Fs.data, absent] using done

theorem MarkerDone.data {fs : Fs SegPath} (h : MarkerDone fs) :
    fs.data .marker = some compactDone := by
  rw [Fs.data, h]
  rfl

theorem Unmarked.data {fs : Fs SegPath} (h : Unmarked fs) : fs.data .marker ≠ some compactDone := by
  intro done
  obtain ⟨f, hf, same⟩ := Option.map_eq_some_iff.1 done
  exact h f f.data hf f.survives_data same

/-- No file that a process would read has lost what is on the medium. -/
def Forward (fs : Fs SegPath) : Prop :=
  ∀ id f, fs.file (.active id) = some f → f.durable <+: f.data

/-- A directory in which no compaction is left to finish or to undo. -/
def Settled (P : Layout env → Prop) (fs : Fs SegPath) : Prop :=
  ∃ L n k, OnDisk .active fs L n k ∧ (∀ j, k ≤ j → P (L.cut n j)) ∧ Forward fs ∧ ¬ Dead fs

theorem Exactly.forward {fs : Fs SegPath} {L : Layout env} (h : Exactly .active fs L) :
    Forward fs := by
  intro id f hf
  rw [h id] at hf
  obtain ⟨seg, -, rfl⟩ := Option.map_eq_some_iff.1 hf
  exact List.prefix_rfl

theorem Exactly.alive {fs : Fs SegPath} {L : Layout env} (h : Exactly .active fs L) :
    ¬ Dead fs := by
  rintro ⟨id, f, hf, short⟩
  rw [h id] at hf
  obtain ⟨seg, -, rfl⟩ := Option.map_eq_some_iff.1 hf
  have := seg.length_bytes
  simp only [Segment.whole] at short
  omega

theorem Exactly.settled {fs : Fs SegPath} {L : Layout env} {P : Layout env → Prop}
    (h : Exactly .active fs L) (hP : P L) : Settled P fs := by
  obtain ⟨n, last⟩ := h.exists_last fun _ => rfl
  refine ⟨L, n, (L n).elim 0 (·.records.length), h.onDisk last ?_, fun j hj => ?_, h.forward,
    h.alive⟩
  · intro seg hseg
    rw [hseg]
    exact Nat.le_refl _
  · rw [Layout.cut_of_length_le]
    · exact hP
    · intro seg hseg
      rwa [hseg] at hj

theorem Settled.congr {P : Layout env → Prop} {fs fs' : Fs SegPath}
    (same : ∀ id, fs'.file (.active id) = fs.file (.active id)) (h : Settled P fs) :
    Settled P fs' := by
  obtain ⟨L, n, k, disk, all, forward, alive⟩ := h
  refine ⟨L, n, k, disk.congr same, all, fun id f hf => forward id f (by rw [← same id, hf]), ?_⟩
  rintro ⟨id, f, hf, short⟩
  exact alive ⟨id, f, by rw [← same id, hf], short⟩

theorem Settled.recoverable {P : Layout env → Prop} {fs : Fs SegPath} (h : Settled P fs)
    (quiet : Quiet fs) : Recoverable fs P := by
  obtain ⟨L, n, k, disk, all, -⟩ := h
  exact .settled L n k quiet disk all

/-- No removal that recovery ignores can spoil the directory: nothing is removed but by undoing a
swap, or the removals work. -/
def Orderly (faulty : FsOp SegPath → Prop) (fs : Fs SegPath) : Prop :=
  ¬ MarkerDone fs ∨ ∀ o, ¬ faulty o

/-- What a crash in recovery leaves: a recoverable directory, unless the removal of an old segment
failed and that of the marker did not. -/
def RecoveryCut (faulty : FsOp SegPath → Prop) (P : Layout env → Prop) (fs : Fs SegPath)
    (s : SegState) : Prop :=
  CrashSafe P s ∨ ¬ Orderly faulty fs ∧ ¬ Quiet s.fs

theorem RecoveryCut.quiet {P : Layout env → Prop} {fs : Fs SegPath} {s : SegState}
    (h : RecoveryCut faulty P fs s) (quiet : Orderly faulty fs ∨ Quiet s.fs) : CrashSafe P s :=
  h.resolve_right fun h => quiet.elim h.1 h.2

theorem Settled.cut {P : Layout env → Prop} {fs : Fs SegPath} {s : SegState}
    (h : Settled P s.fs) (quiet : Orderly faulty fs → Quiet s.fs) : RecoveryCut faulty P fs s := by
  by_cases quiet' : Quiet s.fs
  · exact .inl (h.recoverable quiet').crashSafe
  · exact .inr ⟨fun orderly => quiet' (quiet orderly), quiet'⟩

/-- What settling leaves: the old segments are gone, or back in place, or the marker was there
and a removal failed. -/
structure SettlePost (faulty : FsOp SegPath → Prop) (P : Layout env → Prop) (s : SegState)
    (r : Result Unit) (s' : SegState) : Prop where
  ok : r = .ok ()
  mem : s'.mem = s.mem
  settled : Settled P s'.fs
  noOld : ¬ MarkerDone s.fs → ∀ id, s'.fs.file (.old id) = none
  clean : (∀ o, ¬ faulty o) → (∀ id, s'.fs.file (.old id) = none) ∧ s'.fs.file .marker = none

/-- The removal of the marker, at the end of each branch. -/
theorem safe_remove_marker {P : Layout env → Prop} {s t : SegState} (mem : t.mem = s.mem)
    (settled : Settled P t.fs)
    (noOld : ¬ MarkerDone s.fs → ∀ id, t.fs.file (.old id) = none)
    (clean : (∀ o, ¬ faulty o) → ∀ id, t.fs.file (.old id) = none) :
    Safe (segMachine faulty) (SettlePost faulty P s) (RecoveryCut faulty P s.fs)
      (Proc.ignore (Proc.remove .marker)) t := by
  have others (p : SegPath) (hp : p ≠ .marker) : (t.fs.drop .marker).file p = t.fs.file p := by
    rw [Fs.file_drop, if_neg (Ne.symm hp)]
  have dropped : Settled P (t.fs.drop .marker) := settled.congr fun id => others _ (by simp)
  have noOld' : ¬ MarkerDone s.fs → ∀ id, (t.fs.drop .marker).file (.old id) = none :=
    fun unmarked id => by rw [others _ (by simp), noOld unmarked id]
  refine Proc.safe_ignore_remove ?_ ?_ ?_ fun fail => ?_
  · exact settled.cut fun orderly => .inl (orderly.elim noOld clean)
  · exact Settled.cut (s := t.withFs (t.fs.drop .marker)) dropped fun orderly => .inl fun id => by
      rw [Proc.withFs_fs, others _ (by simp)]
      exact orderly.elim noOld clean id
  · refine ⟨rfl, mem, dropped, noOld', fun sound => ⟨fun id => ?_, by simp⟩⟩
    rw [Proc.withFs_fs, others _ (by simp), clean sound id]
  · exact ⟨rfl, mem, settled, noOld, fun sound => ⟨clean sound, fail.resolve_left (sound _)⟩⟩

section Restore

variable {fs fs' : Fs SegPath} {O N : Layout env} {id : Nat} {seg : Segment env}

/-- The active file of a number may go while its old segment is there. -/
theorem Swapping.removeActive (h : Swapping fs O N) (hseg : O id = some seg)
    (old : fs.file (.old id) = some seg.whole)
    (others : ∀ p, p ≠ .active id → fs'.file p = fs.file p)
    (gone : fs'.file (.active id) = none) : Swapping fs' O N where
  unmarked f img hf := h.unmarked f img (by rw [← others _ (by simp), hf])
  old i seg' hi := by
    by_cases same : i = id
    · subst same
      obtain rfl := Option.some.inj (hseg.symm.trans hi)
      exact .inl ⟨by rw [others _ (by simp), old], .inl gone⟩
    · rw [others (.old i) (by simp), others (.active i) (by simp [same])]
      exact h.old i seg' hi
  new i hi := by
    have other : i ≠ id := fun same => by rw [same, hseg] at hi; cases hi
    rw [others (.old i) (by simp), others (.active i) (by simp [other])]
    exact h.new i hi

/-- An old segment back in place. -/
theorem Swapping.restore (h : Swapping fs O N) (hseg : O id = some seg)
    (others : ∀ p, p ≠ .active id → p ≠ .old id → fs'.file p = fs.file p)
    (gone : fs'.file (.old id) = none) (active : fs'.file (.active id) = some seg.whole) :
    Swapping fs' O N where
  unmarked f img hf := h.unmarked f img (by rw [← others _ (by simp) (by simp), hf])
  old i seg' hi := by
    by_cases same : i = id
    · subst same
      obtain rfl := Option.some.inj (hseg.symm.trans hi)
      exact .inr ⟨gone, active⟩
    · rw [others (.old i) (by simp) (by simp [same]), others (.active i) (by simp [same]) (by simp)]
      exact h.old i seg' hi
  new i hi := by
    have other : i ≠ id := fun same => by rw [same, hseg] at hi; cases hi
    rw [others (.old i) (by simp) (by simp [other]), others (.active i) (by simp [other]) (by simp)]
    exact h.new i hi

theorem Swapping.exists_old (h : Swapping fs O N) (there : (fs.file (.old id)).isSome) :
    ∃ seg, O id = some seg ∧ fs.file (.old id) = some seg.whole := by
  cases hO : O id with
  | none => rw [(h.new id hO).1] at there; cases there
  | some seg =>
    rcases h.old id seg hO with ⟨old, -⟩ | ⟨old, -⟩
    · exact ⟨seg, rfl, old⟩
    · rw [old] at there; cases there

end Restore

/-- Putting one old segment back in place. -/
theorem safe_restoreOld (tidy : ∀ o, faulty o → Cleanup o) {P : Layout env → Prop}
    {O N : Layout env} {s : SegState} (swapping : Swapping s.fs O N)
    (all : ∀ L, Overlay O N L → P L) {id : Nat} (there : (s.fs.file (.old id)).isSome) :
    Safe (segMachine faulty)
      (fun r s' => r = .ok () ∧ s'.mem = s.mem ∧ Swapping s'.fs O N ∧
        ∀ i, s'.fs.file (.old i) = if i = id then none else s.fs.file (.old i))
      (CrashSafe P) (restoreOld id) s := by
  obtain ⟨seg, hseg, old⟩ := swapping.exists_old there
  have safe (t : SegState) (h : Swapping t.fs O N) : CrashSafe P t :=
    (Recoverable.swapping O N h all).crashSafe
  rw [restoreOld, safe_bind]
  refine Proc.safe_exists ?_ fun h => absurd (tidy _ h) (by simp [Cleanup])
  rw [thenSafe_ok]
  refine Safe.bind (P := fun r t => r = .ok () ∧ t.mem = s.mem ∧
    (∀ p, p ≠ .active id → t.fs.file p = s.fs.file p) ∧ t.fs.file (.active id) = none)
    (safe_when (fun present => ?_) fun absent => ?_) ?_ ?_
  · obtain ⟨f, hf⟩ := Option.isSome_iff_exists.1 present
    refine Proc.safe_remove hf (safe _ swapping) (safe _ ?_) ?_
      fun h => absurd (tidy _ h) (by simp [Cleanup])
    · exact swapping.removeActive hseg old (fun p hp => by simp [Ne.symm hp]) (by simp)
    · exact ⟨rfl, rfl, fun p hp => by simp [Ne.symm hp], by simp⟩
  · exact ⟨rfl, rfl, fun _ _ => rfl, by simpa using absent⟩
  · rintro ⟨⟩ t ⟨-, mem, others, gone⟩
    have source : t.fs.file (.old id) = some seg.whole := by rw [others _ (by simp), old]
    have moved : ∀ p, p ≠ .active id → p ≠ .old id →
        ((t.fs.drop (.old id)).put (.active id) seg.whole).file p = s.fs.file p := by
      intro p hp hp'
      rw [← others p hp]
      simp [Ne.symm hp, Ne.symm hp']
    have back := swapping.restore hseg moved (by simp) (by simp)
    refine Proc.safe_rename source (safe _ (swapping.removeActive hseg old others gone))
      (safe _ back) ?_ fun h => absurd (tidy _ h) (by simp [Cleanup])
    · refine ⟨rfl, mem, back, fun i => ?_⟩
      by_cases same : i = id
      · subst same; simp
      · rw [if_neg same]
        exact moved (.old i) (by simp) (by simp [same])
  · rintro e t ⟨ok, -⟩
    cases ok

theorem not_present {fs : Fs SegPath} {ids : List Nat} {path : Nat → SegPath}
    (mem : ∀ id, id ∈ ids ↔ (fs.file (path id)).isSome) {id : Nat} (h : id ∉ ids) :
    fs.file (path id) = none := by
  have := (mem id).not.1 h
  rwa [Bool.not_eq_true, Option.isSome_eq_false_iff, Option.isNone_iff_eq_none] at this

/-- Removing old segments that may go: whatever fails, nothing else changes. -/
theorem safe_removeOld {s : SegState} (safe : ∀ t : SegState,
      (∀ p, (∀ id, p ≠ .old id) → t.fs.file p = s.fs.file p) → C t) (ids : List Nat) :
    Safe (segMachine faulty)
      (fun r t => r = .ok () ∧ t.mem = s.mem ∧
        (∀ p, (∀ id, p ≠ .old id) → t.fs.file p = s.fs.file p) ∧
        (∀ id, t.fs.file (.old id) = none ∨ t.fs.file (.old id) = s.fs.file (.old id)) ∧
        ((∀ o, ¬ faulty o) → ∀ id ∈ ids, t.fs.file (.old id) = none)) C
      (Prog.forEach (fun _ id => Proc.ignore (Proc.remove (.old id))) () ids) s := by
  refine safe_forEach (fun before _ _ t => t.mem = s.mem ∧
    (∀ p, (∀ id, p ≠ .old id) → t.fs.file p = s.fs.file p) ∧
    (∀ id, t.fs.file (.old id) = none ∨ t.fs.file (.old id) = s.fs.file (.old id)) ∧
    ((∀ o, ¬ faulty o) → ∀ id ∈ before, t.fs.file (.old id) = none)) ?_ ?_ ?_
  · exact ⟨rfl, fun _ _ => rfl, fun _ => .inr rfl, fun _ _ h => by cases h⟩
  · rintro before id rest - t - ⟨tmem, others, olds, gone⟩
    have others' : ∀ p, (∀ id, p ≠ .old id) → (t.fs.drop (.old id)).file p = s.fs.file p := by
      intro p hp
      rw [Fs.file_drop, if_neg (hp id).symm, others p hp]
    refine Proc.safe_ignore_remove (safe t others) (safe (t.withFs _) others') ?_ fun fail => ?_
    · refine ⟨tmem, others', fun i => ?_, fun sound i hi => ?_⟩
      · rw [Proc.withFs_fs, Fs.file_drop]
        split
        · exact .inl rfl
        · exact olds i
      · rw [Proc.withFs_fs, Fs.file_drop]
        split
        · rfl
        · rename_i other
          rcases List.mem_append.1 hi with hi | hi
          · exact gone sound i hi
          · exact absurd (by rw [List.mem_singleton.1 hi]) other
    · refine ⟨tmem, others, olds, fun sound i hi => ?_⟩
      rcases List.mem_append.1 hi with hi | hi
      · exact gone sound i hi
      · rw [List.mem_singleton.1 hi]
        exact fail.resolve_left (sound _)
  · rintro - t ⟨tmem, others, olds, gone⟩
    exact ⟨rfl, tmem, others, olds, gone⟩

/-- Without old segments there is at most a marker to remove. -/
theorem safe_settle_nil (tidy : ∀ o, faulty o → Cleanup o) {P : Layout env → Prop} {s : SegState}
    (settled : Settled P s.fs) (noOld : ∀ id, s.fs.file (.old id) = none) (done : Bool) :
    Safe (segMachine faulty) (SettlePost faulty P s) (RecoveryCut faulty P s.fs) (settle done []) s := by
  rw [settle, if_neg (by simp), safe_bind]
  refine Proc.safe_exists ?_ fun h => absurd (tidy _ h) (by simp [Cleanup])
  rw [thenSafe_ok]
  refine safe_when (fun _ => ?_) fun absent => ?_
  · exact safe_remove_marker rfl settled (fun _ => noOld) fun _ => noOld
  · exact ⟨rfl, rfl, settled, fun _ => noOld, fun _ => ⟨noOld, by simpa using absent⟩⟩

/-- After a finished compaction the old segments go. -/
theorem safe_settle_done {P : Layout env → Prop} {s : SegState} (settled : Settled P s.fs)
    (done : MarkerDone s.fs) {ids : List Nat}
    (mem : ∀ id, id ∈ ids ↔ (s.fs.file (.old id)).isSome) (some : ids ≠ []) :
    Safe (segMachine faulty) (SettlePost faulty P s) (RecoveryCut faulty P s.fs) (settle true ids) s := by
  rw [settle, if_pos some, if_pos rfl]
  refine Safe.bind (safe_removeOld (fun t others => ?_) ids) ?_ ?_
  · exact .inl (Settled.recoverable (settled.congr fun id => others _ (by simp))
      (.inr ((others .marker (by simp)).trans done))).crashSafe
  · rintro ⟨⟩ t ⟨-, tmem, others, olds, gone⟩
    refine safe_remove_marker tmem (settled.congr fun id => others _ (by simp))
      (fun unmarked => absurd done unmarked) fun sound id => ?_
    by_cases hid : id ∈ ids
    · exact gone sound id hid
    · exact (olds id).elim (fun h => h) (·.trans (not_present mem hid))
  · rintro e t ⟨ok, -⟩
    cases ok

/-- A compaction that did not finish is undone. -/
theorem safe_settle_swapping (tidy : ∀ o, faulty o → Cleanup o) {P : Layout env → Prop}
    {O N : Layout env} {s : SegState} (swapping : Swapping s.fs O N)
    (all : ∀ L, Overlay O N L → P L) {ids : List Nat} (nodup : ids.Nodup)
    (mem : ∀ id, id ∈ ids ↔ (s.fs.file (.old id)).isSome) :
    Safe (segMachine faulty) (SettlePost faulty P s) (RecoveryCut faulty P s.fs) (settle false ids) s := by
  have settled {t : SegState} (swapping : Swapping t.fs O N)
      (noOld : ∀ id, t.fs.file (.old id) = none) : Settled P t.fs := by
    obtain ⟨L, overlay, exactly⟩ := swapping.exactly noOld
    exact exactly.settled (all L overlay)
  by_cases none : ids = []
  · subst none
    have noOld (id : Nat) : s.fs.file (.old id) = Option.none := not_present mem (by simp)
    exact safe_settle_nil tidy (settled swapping noOld) noOld false
  rw [settle, if_pos none, if_neg (by simp)]
  refine Safe.bind (P := fun r t => r = .ok () ∧ t.mem = s.mem ∧ Swapping t.fs O N ∧
    ∀ id, t.fs.file (.old id) = Option.none) (Safe.mono (C := CrashSafe P)
      (safe_forEach (fun before _ _ t => t.mem = s.mem ∧ Swapping t.fs O N ∧
        ∀ id, t.fs.file (.old id) = if id ∈ before then Option.none else s.fs.file (.old id))
        ⟨rfl, swapping, fun _ => by simp⟩ ?_ ?_) (fun _ _ h => h) fun _ h => .inl h) ?_ ?_
  · rintro before id rest - t split ⟨tmem, swapping, olds⟩
    have hid : id ∈ ids ∧ id ∉ before := by
      rw [← split] at nodup ⊢
      exact ⟨by simp, fun hb => (List.disjoint_of_nodup_append nodup) hb (by simp)⟩
    refine (safe_restoreOld tidy swapping all ?_).mono ?_ fun _ h => h
    · rw [olds id, if_neg hid.2]
      exact (mem id).1 hid.1
    · rintro r u ⟨rfl, umem, swapping, olds'⟩
      refine ⟨umem.trans tmem, swapping, fun i => ?_⟩
      rw [olds' i, olds i]
      simp only [List.mem_append, List.mem_singleton]
      split <;> split <;> simp_all
  · rintro - t ⟨tmem, swapping, olds⟩
    refine ⟨rfl, tmem, swapping, fun id => ?_⟩
    rw [olds id]
    split
    · rfl
    · rename_i hid
      exact not_present mem hid
  · rintro ⟨⟩ t ⟨-, tmem, swapping, noOld⟩
    exact safe_remove_marker tmem (settled swapping noOld) (fun _ => noOld) fun _ => noOld
  · rintro e t ⟨ok, -⟩
    cases ok

theorem safe_settle (tidy : ∀ o, faulty o → Cleanup o) {P : Layout env → Prop} {s : SegState}
    (h : Recoverable s.fs P) (forward : Forward s.fs) (alive : ¬ Dead s.fs) {ids : List Nat}
    (nodup : ids.Nodup)
    (mem : ∀ id, id ∈ ids ↔ (s.fs.file (.old id)).isSome) :
    Safe (segMachine faulty) (SettlePost faulty P s) (RecoveryCut faulty P s.fs)
      (settle (decide (s.fs.data .marker = some compactDone)) ids) s := by
  cases h with
  | settled L n k quiet disk all =>
    have settled : Settled P s.fs := ⟨L, n, k, disk, all, forward, alive⟩
    by_cases none : ids = []
    · subst none
      exact safe_settle_nil tidy settled (fun id => not_present mem (by simp)) _
    · have done : MarkerDone s.fs := by
        obtain ⟨id, hid⟩ := List.exists_mem_of_ne_nil _ none
        refine quiet.resolve_left fun noOld => ?_
        have := (mem id).1 hid
        rw [noOld id] at this
        cases this
      rw [decide_eq_true done.data]
      exact safe_settle_done settled done mem none
  | swapping O N swapping all =>
    rw [decide_eq_false swapping.unmarked.data]
    exact safe_settle_swapping tidy swapping all nodup mem

/-! ## Scanning the segments -/

theorem readHeader_bytes (seg : Segment env) (tail : Bytes) :
    ∃ h, readHeader (seg.bytes ++ tail) = .ok h := by
  obtain ⟨h, ok⟩ := seg.accepted (Framing.join seg.records ++ tail)
  exact ⟨h, by rw [readHeader, Segment.bytes, List.append_assoc, ok]⟩

/-- A scan finds the whole records. -/
theorem scanSegment_bytes (seg : Segment env) {tail : Bytes}
    (stops : tail = [] ∨ ∃ reason, nextRecord env tail = .stop reason) :
    scanSegment env (seg.bytes ++ tail) =
      ⟨seg.found, seg.bytes.length, Framing.tailReason (nextRecord env) tail⟩ := by
  have few := Framing.length_le_join fun f hf => (seg.isFrame f hf).nonempty
  have rest : (seg.bytes ++ tail).drop segmentHeaderSize = Framing.join seg.records ++ tail := by
    rw [Segment.bytes, List.append_assoc, ← seg.length_header, List.drop_left]
  have enough : seg.records.length < (seg.bytes ++ tail).length + 1 := by
    rw [List.length_append, Segment.length_bytes]
    omega
  rw [scanSegment, rest, Framing.scan_join seg.isFrame stops enough, Segment.found,
    Segment.length_bytes]

/-- One segment: its records are indexed, and what follows them is cut off. -/
theorem safe_recoverSegment (tidy : ∀ o, faulty o → Cleanup o) {s : SegState} {id newestId : Nat}
    {b : Nat × Nat} {seg : Segment env} {f : File} {tail : Bytes}
    (hf : s.fs.file (.active id) = some f) (data : f.data = seg.bytes ++ tail)
    (stops : tail = [] ∨ id = newestId ∧ ∃ reason, nextRecord env tail = .stop reason ∧
      reason.repairable = true)
    (safe : tail ≠ [] → ∀ t : SegState, (∀ p, p ≠ .active id → t.fs.file p = s.fs.file p) →
      (t.fs.file (.active id) = some f ∨ t.fs.file (.active id) = some ⟨f.durable, seg.bytes⟩ ∨
        t.fs.file (.active id) = some seg.whole) → C t) :
    Safe (segMachine faulty)
      (fun r t => r = .ok (id, seg.bytes.length) ∧
        t.mem = s.mem.setIndex .own
          (insertAll (s.mem.index .own) (seg.found.map (entry id))) ∧
        (∀ p, p ≠ .active id → t.fs.file p = s.fs.file p) ∧
        (tail = [] ∧ t.fs.file (.active id) = some f ∨
          tail ≠ [] ∧ t.fs.file (.active id) = some seg.whole))
      C (recoverSegment env newestId b id) s := by
  obtain ⟨h, header⟩ := readHeader_bytes seg tail
  have stops' : tail = [] ∨ ∃ reason, nextRecord env tail = .stop reason :=
    stops.imp (fun h => h) fun ⟨_, reason, h, _⟩ => ⟨reason, h⟩
  rw [recoverSegment, safe_bind]
  refine Proc.safe_read (fun f' hf' => ?_) (fun absent => ?_) fun h =>
    absurd (tidy _ h) (by simp [Cleanup])
  swap
  · rw [hf] at absent
    cases absent
  obtain rfl : f = f' := Option.some.inj (hf.symm.trans hf')
  rw [thenSafe_ok, safe_bind, data, header, safe_ofExcept, thenSafe_ok, scanSegment_bytes seg stops']
  simp only
  rw [safe_bind, Proc.safe_load, thenSafe_ok, safe_bind, Proc.safe_save, thenSafe_ok, safe_bind]
  rcases stops with rfl | ⟨newest, reason, stop, repairable⟩
  · -- the records fill the file
    have verdict : judge (decide (id = newestId)) seg.bytes.length
        (Framing.tailReason (nextRecord env) []) = .ok false := rfl
    rw [verdict, safe_ofExcept, thenSafe_ok, safe_bind, Prog.when, if_neg (by simp)]
    exact ⟨rfl, rfl, fun _ _ => rfl, .inl ⟨rfl, hf⟩⟩
  · by_cases empty : tail = []
    · subst empty
      have verdict : judge (decide (id = newestId)) seg.bytes.length
          (Framing.tailReason (nextRecord env) []) = .ok false := rfl
      rw [verdict, safe_ofExcept, thenSafe_ok, safe_bind, Prog.when, if_neg (by simp)]
      exact ⟨rfl, rfl, fun _ _ => rfl, .inl ⟨rfl, hf⟩⟩
    · have verdict : judge (decide (id = newestId)) seg.bytes.length
          (Framing.tailReason (nextRecord env) tail) = .ok true := by
        rw [Framing.tailReason, if_neg (by simpa using empty), stop]
        simp [judge, newest, repairable]
      rw [verdict, safe_ofExcept, thenSafe_ok, safe_bind, Prog.when, if_pos rfl, safe_bind]
      have front : f.data.take seg.bytes.length = seg.bytes := by rw [data, List.take_left]
      refine Proc.safe_setLen (f := f) hf (by rw [data, List.length_append]; omega) ?_ ?_ ?_
        fun h => absurd (tidy _ h) (by simp [Cleanup])
      · exact safe empty _ (fun _ _ => rfl) (.inl hf)
      · exact safe empty _ (fun p hp => by simp [Ne.symm hp]) (.inr (.inl (by simp [front])))
      · rw [thenSafe_ok]
        refine Proc.safe_sync (f := ⟨f.durable, seg.bytes⟩) (by simp [front]) ?_ ?_ ?_
          fun h => absurd (tidy _ h) (by simp [Cleanup])
        · exact safe empty _ (fun p hp => by simp [Ne.symm hp]) (.inr (.inl (by simp [front])))
        · exact safe empty _ (fun p hp => by simp [Ne.symm hp])
            (.inr (.inr (by simp [Segment.whole])))
        · exact ⟨rfl, rfl, fun p hp => by simp [Ne.symm hp], .inr ⟨empty, by simp [Segment.whole]⟩⟩

/-- The segments of some numbers. -/
def Layout.restrict (L : Layout env) (ids : List Nat) : Layout env := fun id =>
  if id ∈ ids then L id else none

theorem Layout.entries_restrict_append (L : Layout env) (before : List Nat) {id : Nat}
    {seg : Segment env} (hseg : L id = some seg) :
    (L.restrict (before ++ [id])).entries =
      (L.restrict before).entries ∪ {e | e ∈ seg.found.map (entry id)} := by
  ext e
  constructor
  · rintro ⟨i, seg', hi, he⟩
    rw [restrict] at hi
    split at hi
    · rename_i hmem
      rcases List.mem_append.1 hmem with hb | hb
      · exact .inl ⟨i, seg', by rw [restrict, if_pos hb, hi], he⟩
      · obtain rfl := List.mem_singleton.1 hb
        obtain rfl := Option.some.inj (hseg.symm.trans hi)
        exact .inr he
    · cases hi
  · rintro (⟨i, seg', hi, he⟩ | he)
    · rw [restrict] at hi
      split at hi
      · rename_i hmem
        exact ⟨i, seg', by rw [restrict, if_pos (by simp [hmem]), hi], he⟩
      · cases hi
    · exact ⟨id, seg, by rw [restrict, if_pos (by simp), hseg], he⟩

theorem Layout.restrict_all {L : Layout env} {ids : List Nat} (mem : ∀ id, id ∈ ids ↔ (L id).isSome) :
    L.restrict ids = L := by
  funext id
  rw [restrict]
  split
  · rfl
  · rename_i hid
    cases hL : L id with
    | none => rfl
    | some seg => exact absurd ((mem id).2 (by rw [hL]; rfl)) hid

/-- The next segment in the order of numbers is indexed after the ones before it. -/
theorem IndexOf.segment {L : Layout env} {before : List Nat} {id : Nat} {seg : Segment env}
    {index : SegmentIndex} (h : IndexOf (L.restrict before).entries index) (hseg : L id = some seg)
    (below : ∀ i ∈ before, i < id) :
    IndexOf (L.restrict (before ++ [id])).entries
      (SegmentStore.insertAll index (seg.found.map (entry id))) := by
  rw [L.entries_restrict_append before hseg]
  refine h.insertAll (seg.pairwise_entries id) fun e he e' he' => .inl ?_
  obtain ⟨seg', hseg', -⟩ := Layout.mem_entries.1 he
  rw [Layout.restrict] at hseg'
  split at hseg'
  · rename_i hmem
    rw [Layout.segmentId_of_mem he']
    exact below _ hmem
  · cases hseg'

/-- What `recover_and_index` leaves: the layout that is there, with its index, and where to go
on writing. -/
def Recovered (P : Layout env → Prop) (s : SegState) (r : Result (Nat × Nat)) (t : SegState) :
    Prop :=
  ∃ (L : Layout env) (n k : Nat) (index : SegmentIndex), OnDisk .active t.fs L n k ∧
    (∀ j, k ≤ j → P (L.cut n j)) ∧ IndexOf L.entries index ∧ t.mem = s.mem.setIndex .own index ∧
    (L = .empty ∧ r = .ok (1, 0) ∨
      ∃ seg f, L n = some seg ∧ r = .ok (n, seg.bytes.length) ∧
        t.fs.file (.active n) = some f ∧ f.data = seg.bytes ∧ f.durable <+: f.data)

theorem RecoveryCut.onDisk {P : Layout env → Prop} {fs : Fs SegPath} {s : SegState}
    {L : Layout env} {n k : Nat} (disk : OnDisk .active s.fs L n k)
    (all : ∀ j, k ≤ j → P (L.cut n j)) (quiet : Orderly faulty fs → Quiet s.fs) :
    RecoveryCut faulty P fs s := by
  by_cases quiet' : Quiet s.fs
  · exact .inl (Recoverable.settled L n k quiet' disk all).crashSafe
  · exact .inr ⟨fun orderly => quiet' (quiet orderly), quiet'⟩

/-- The numbers in order. -/
theorem pairwise_mergeSort {ids : List Nat} (nodup : ids.Nodup) :
    ids.mergeSort.Pairwise (· < ·) := by
  have le := @List.pairwise_mergeSort Nat (fun a b => decide (a ≤ b))
    (fun a b c h h' => by simp only [decide_eq_true_eq] at *; omega)
    (fun a b => by simp only [Bool.or_eq_true, decide_eq_true_eq]; omega) ids
  have distinct : ids.mergeSort.Nodup := (List.mergeSort_perm ids _).nodup_iff.2 nodup
  refine (le.and distinct).imp fun {a b} h => ?_
  have := of_decide_eq_true h.1
  have := h.2
  omega

/-- The loop over the segments: whole records, and behind those of the newest segment at most
something that is repaired. -/
theorem safe_scanSegments (tidy : ∀ o, faulty o → Cleanup o) {s : SegState} {L : Layout env}
    {n : Nat} {seg : Segment env} {f : File} {tail : Bytes} (hseg : L n = some seg)
    (hf : s.fs.file (.active n) = some f) (data : f.data = seg.bytes ++ tail)
    (stops : tail = [] ∨ ∃ reason, nextRecord env tail = .stop reason ∧ reason.repairable = true)
    (sealed : ∀ id seg', id ≠ n → L id = some seg' →
      ∃ f', s.fs.file (.active id) = some f' ∧ f'.data = seg'.bytes)
    (fresh : s.mem.index .own = ∅) {ids : List Nat}
    (sorted : ids.Pairwise (· < ·)) (mem : ∀ id, id ∈ ids ↔ (L id).isSome)
    (newest : ids.getLast? = some n)
    (safe : ∀ t : SegState, (∀ p, p ≠ .active n → t.fs.file p = s.fs.file p) →
      (t.fs.file (.active n) = some f ∨ t.fs.file (.active n) = some ⟨f.durable, seg.bytes⟩ ∨
        t.fs.file (.active n) = some seg.whole) → C t) (b : Nat × Nat) :
    Safe (segMachine faulty)
      (fun r t => r = .ok (n, seg.bytes.length) ∧
        (∃ index, t.mem = s.mem.setIndex .own index ∧ IndexOf L.entries index) ∧
        (∀ p, p ≠ .active n → t.fs.file p = s.fs.file p) ∧
        (tail = [] ∧ t.fs.file (.active n) = some f ∨
          tail ≠ [] ∧ t.fs.file (.active n) = some seg.whole))
      C (Prog.forEach (recoverSegment env n) b ids) s := by
  have le_last : ∀ id ∈ ids, id ≤ n := by
    obtain ⟨init, rfl⟩ := List.getLast?_eq_some_iff.1 newest
    intro id hid
    rcases List.mem_append.1 hid with h | h
    · exact Nat.le_of_lt ((List.pairwise_append.1 sorted).2.2 id h n (by simp))
    · exact Nat.le_of_eq (List.mem_singleton.1 h)
  refine safe_forEach (fun before _ b t => ∃ index, t.mem = s.mem.setIndex .own index ∧
    IndexOf (L.restrict before).entries index ∧
    (∀ p, p ≠ .active n → t.fs.file p = s.fs.file p) ∧
    (n ∉ before → t.fs.file (.active n) = some f) ∧
    (n ∈ before → b = (n, seg.bytes.length) ∧
      (tail = [] ∧ t.fs.file (.active n) = some f ∨
        tail ≠ [] ∧ t.fs.file (.active n) = some seg.whole))) ?_ ?_ ?_
  · refine ⟨∅, ?_, ?_, fun _ _ => rfl, fun _ => hf, fun h => by cases h⟩
    · rw [← fresh]
      simp [setIndex]
    · have : L.restrict [] = .empty := by funext id; simp [Layout.restrict, Layout.empty]
      rw [this, Layout.entries_empty]
      exact IndexOf.empty
  · rintro before id rest b t split ⟨index, tmem, indexed, others, pending, -⟩
    have below : ∀ i ∈ before, i < id := by
      rw [← split] at sorted
      intro i hi
      exact (List.pairwise_append.1 sorted).2.2 i hi id (by simp)
    have top : id ≤ n := le_last id (by rw [← split]; simp)
    have notYet : n ∉ before := fun hn => by
      have := below n hn
      omega
    have pending := pending notYet
    have indexMem (u : SegState) {id : Nat} {seg' : Segment env} (hmem : u.mem = t.mem.setIndex .own
        (insertAll (t.mem.index .own) (seg'.found.map (entry id)))) :
        u.mem = s.mem.setIndex .own (insertAll index (seg'.found.map (entry id))) := by
      rw [hmem, tmem]
      simp [setIndex]
    by_cases same : id = n
    · subst same
      refine (safe_recoverSegment tidy pending data (stops.imp (fun h => h) fun h => ⟨rfl, h⟩)
        fun _ u others' file => safe u (fun p hp => (others' p hp).trans (others p hp)) file).mono ?_
        fun _ h => h
      rintro r u ⟨rfl, umem, others', file⟩
      exact ⟨_, indexMem u umem, indexed.segment hseg below,
        fun p hp => (others' p hp).trans (others p hp), fun hn => absurd (by simp) hn,
        fun _ => ⟨rfl, file⟩⟩
    · obtain ⟨seg', hid⟩ := Option.isSome_iff_exists.1 ((mem id).1 (by rw [← split]; simp))
      obtain ⟨f', hf', data'⟩ := sealed id seg' same hid
      have there : t.fs.file (.active id) = some f' := by rw [others _ (by simp [same]), hf']
      refine (safe_recoverSegment tidy there (show f'.data = seg'.bytes ++ [] by simpa using data')
        (.inl rfl) fun h => absurd rfl h).mono ?_ fun _ h => h
      rintro r u ⟨rfl, umem, others', ⟨-, file⟩ | ⟨h, -⟩⟩
      swap
      · exact absurd rfl h
      have unmoved (p : SegPath) : u.fs.file p = t.fs.file p := by
        by_cases hp : p = .active id
        · rw [hp, file, there]
        · exact others' p hp
      refine ⟨_, indexMem u umem, indexed.segment hid below,
        fun p hp => (unmoved p).trans (others p hp), fun _ => (unmoved _).trans pending, fun hn => ?_⟩
      rcases List.mem_append.1 hn with h | h
      · exact absurd h notYet
      · exact absurd (List.mem_singleton.1 h).symm same
  · rintro b t ⟨index, tmem, indexed, others, -, final⟩
    obtain ⟨rfl, file⟩ := final (List.mem_of_getLast? newest)
    rw [Layout.restrict_all mem] at indexed
    exact ⟨rfl, ⟨index, tmem, indexed⟩, others, file⟩

theorem safe_recoverSegments (tidy : ∀ o, faulty o → Cleanup o) {P : Layout env → Prop}
    {fs₀ : Fs SegPath} {s : SegState} {L : Layout env} {n k : Nat} {seg : Segment env}
    (disk : OnDisk .active s.fs L n k) (hseg : L n = some seg) (forward : Forward s.fs)
    (alive : ¬ Dead s.fs) (quiet : Orderly faulty fs₀ → Quiet s.fs)
    (all : ∀ j, k ≤ j → P (L.cut n j)) (fresh : s.mem.index .own = ∅) {ids : List Nat}
    (sorted : ids.Pairwise (· < ·)) (mem : ∀ id, id ∈ ids ↔ (L id).isSome)
    (newest : ids.getLast? = some n) (b : Nat × Nat) :
    Safe (segMachine faulty)
      (fun r t => Recovered P s r t ∧ ∀ p, p.isActive = false → t.fs.file p = s.fs.file p)
      (RecoveryCut faulty P fs₀) (Prog.forEach (recoverSegment env n) b ids) s := by
  obtain ⟨f, hf, part⟩ := disk.newest seg hseg
  have long : segmentHeaderSize ≤ f.data.length := by
    by_contra short
    exact alive ⟨n, f, hf, Nat.lt_of_not_le short⟩
  obtain ⟨j, tail, hj, data, stops, keeps⟩ := Segment.exists_take part.data long
  have hkj : k ≤ j := by
    rcases Nat.eq_zero_or_pos k with rfl | pos
    · exact Nat.zero_le _
    · exact keeps k part.bound (part.kept pos).2.length_le
  -- the newest segment with the records that are there
  obtain ⟨L', hL'⟩ : ∃ L', L' = L.cut n j := ⟨_, rfl⟩
  have self : L' n = some (seg.take j) := by rw [hL', Layout.cut_self hseg]
  have other {id : Nat} (h : id ≠ n) : L' id = L id := by rw [hL', Layout.cut_of_ne L h]
  have taken : (seg.take j).bytes <+: seg.bytes := seg.isPrefix_take j
  have whole : Partly (seg.take j).whole seg k :=
    ⟨taken, taken, fun _ => ⟨seg.take_mono hkj, seg.take_mono hkj⟩, part.bound⟩
  have mem' (id : Nat) : id ∈ ids ↔ (L' id).isSome := by
    rw [mem id]
    by_cases same : id = n
    · rw [same, self, hseg]
      rfl
    · rw [other same]
  refine (safe_scanSegments tidy self hf data stops (fun id seg' hid h => ?_) fresh sorted mem'
    newest (fun t others file => ?_) b).mono ?_ fun _ h => h
  · rw [other hid] at h
    exact ⟨_, by rw [disk.sealed id hid, h]; rfl, rfl⟩
  · have quiet' : Orderly faulty fs₀ → Quiet t.fs := fun orderly => (quiet orderly).imp
      (fun none id => (others _ (by simp)).trans (none id)) (others .marker (by simp)).trans
    have cutPart : Partly ⟨f.durable, (seg.take j).bytes⟩ seg k :=
      ⟨part.durable, taken, fun pos => ⟨(part.kept pos).1, seg.take_mono hkj⟩, part.bound⟩
    rcases file with h | h | h
    · exact .onDisk (disk.replace (by simp) hseg others h part) all quiet'
    · exact .onDisk (disk.replace (by simp) hseg others h cutPart) all quiet'
    · exact .onDisk (disk.replace (by simp) hseg others h whole) all quiet'
  · rintro r t ⟨rfl, ⟨index, tmem, indexed⟩, others, file⟩
    have still : ∃ f', t.fs.file (.active n) = some f' ∧ f'.data = (seg.take j).bytes ∧
        f'.durable <+: f'.data ∧ Partly f' (seg.take j) k := by
      rcases file with ⟨rfl, file⟩ | ⟨-, file⟩
      · rw [List.append_nil] at data
        have durable : f.durable <+: (seg.take j).bytes := data ▸ forward n f hf
        refine ⟨f, file, data, data ▸ durable, durable, data ▸ List.prefix_rfl, fun pos => ?_, ?_⟩
        · rw [Segment.take_take, Nat.min_eq_left hkj]
          exact part.kept pos
        · rw [Segment.records_take, List.length_take]
          omega
      · refine ⟨_, file, rfl, List.prefix_rfl, .whole _ ?_⟩
        rw [Segment.records_take, List.length_take]
        omega
    obtain ⟨f', there, content, behind, part'⟩ := still
    refine ⟨⟨L', n, k, index, ?_, fun i hi => ?_, indexed, tmem, .inr ?_⟩, fun p hp => ?_⟩
    · refine ⟨fun id hid => ?_, fun none => ?_, fun seg' hseg' => ?_, fun id above => ?_⟩
      · rw [others _ (by simp [hid]), other hid, disk.sealed id hid]
      · rw [self] at none
        cases none
      · obtain rfl := Option.some.inj (self.symm.trans hseg')
        exact ⟨f', there, part'⟩
      · rw [other (by omega), disk.last id above]
    · rw [hL', Layout.cut_cut]
      exact all _ (by omega)
    · exact ⟨_, f', self, rfl, there, content, behind⟩
    · refine others p fun same => ?_
      rw [same] at hp
      cases hp

/-- Recovery of a recoverable directory without files that are too short. -/
theorem safe_recoverAndIndex (tidy : ∀ o, faulty o → Cleanup o) {P : Layout env → Prop}
    {s : SegState} (h : Recoverable s.fs P) (forward : Forward s.fs) (alive : ¬ Dead s.fs)
    (fresh : s.mem.index .own = ∅) :
    Safe (segMachine faulty)
      (fun r t => Recovered P s r t ∧
        (¬ MarkerDone s.fs → ∀ id, t.fs.file (.old id) = none) ∧
        ((∀ o, ¬ faulty o) → (∀ id, t.fs.file (.old id) = none) ∧ t.fs.file .marker = none))
      (RecoveryCut faulty P s.fs) (recoverAndIndex env) s := by
  rw [recoverAndIndex, safe_bind]
  refine safe_readMarker tidy ?_
  rw [thenSafe_ok, safe_bind, Proc.safe_ignore]
  have staged (select : SegPath → Bool) (sub : ∀ p, select p = true → p.isStaging = true) :
      SameStore s.fs (s.fs.dropAll select) := .dropAll sub s.fs
  refine Proc.safe_removeAll (fun gone sub => ?_) ?_ fun h => absurd (tidy _ h) (by simp [Cleanup])
  · exact .inl (h.congr (staged gone sub)).crashSafe
  obtain ⟨s₁, hs₁⟩ : ∃ s₁, s₁ = s.withFs (s.fs.dropAll SegPath.isStaging) := ⟨_, rfl⟩
  have same : SameStore s.fs s₁.fs := hs₁ ▸ staged _ fun _ h => h
  have marker : MarkerDone s₁.fs ↔ MarkerDone s.fs := by
    rw [MarkerDone, MarkerDone, same .marker rfl]
  have data : s.fs.data .marker = s₁.fs.data .marker := by
    rw [Fs.data, Fs.data, same .marker rfl]
  have forward₁ : Forward s₁.fs := fun id f hf => forward id f (by rw [← same _ rfl, hf])
  have alive₁ : ¬ Dead s₁.fs := by
    rintro ⟨id, f, hf, short⟩
    exact alive ⟨id, f, by rw [← same _ rfl, hf], short⟩
  rw [← hs₁, thenSafe_ok, safe_bind]
  refine safe_listIds (not_faulty_list tidy) .old (fun _ => rfl) selects_old fun olds nodup present => ?_
  rw [thenSafe_ok, data]
  refine Safe.bind (Safe.mono (safe_settle tidy (h.congr same) forward₁ alive₁ nodup present)
    (fun _ _ h => h) fun t ht => ?_) ?_ ?_
  · exact ht.imp (fun h => h) fun h => ⟨by rw [Orderly, ← marker]; exact h.1, h.2⟩
  swap
  · rintro e t post
    cases post.ok
  rintro ⟨⟩ t ⟨-, tmem, ⟨L, n, k, disk, all, forward, alive⟩, noOld, clean⟩
  rw [marker] at noOld
  rw [safe_bind]
  refine safe_listIds (not_faulty_list tidy) .active (fun _ => rfl) selects_active fun ids nodup listed => ?_
  rw [thenSafe_ok]
  have isSome (id : Nat) : (t.fs.file (.active id)).isSome = (L id).isSome := by
    by_cases hid : id = n
    · subst hid
      cases hL : L id with
      | none => rw [disk.absent hL]; rfl
      | some seg =>
        obtain ⟨f, hf, -⟩ := disk.newest seg hL
        rw [hf]
        rfl
    · rw [disk.sealed id hid]
      cases L id <;> rfl
  have perm := List.mergeSort_perm ids fun a b => decide (a ≤ b)
  have mem (id : Nat) : id ∈ ids.mergeSort ↔ (L id).isSome := by
    rw [perm.mem_iff, listed, isSome]
  have fresh' : t.mem.index .own = ∅ := by rw [tmem, hs₁]; exact fresh
  have mem₁ : t.mem = s.mem := by rw [tmem, hs₁]; rfl
  have quiet : Orderly faulty s.fs → Quiet t.fs := fun orderly =>
    .inl (orderly.elim noOld fun sound => (clean sound).1)
  simp only
  split
  · rename_i none
    have empty : L = .empty := by
      funext id
      have : id ∉ ids.mergeSort := by rw [List.getLast?_eq_none_iff.1 none]; simp
      rw [mem, Bool.not_eq_true, Option.isSome_eq_false_iff, Option.isNone_iff_eq_none] at this
      exact this
    refine ⟨⟨L, n, k, ∅, disk, all, ?_, ?_, .inl ⟨empty, rfl⟩⟩, noOld, clean⟩
    · rw [empty, Layout.entries_empty]
      exact .empty
    · rw [← fresh', mem₁]
      simp [setIndex]
  · rename_i newest last
    have sorted := pairwise_mergeSort nodup
    have there : (L newest).isSome := (mem newest).1 (List.mem_of_getLast? last)
    obtain ⟨seg, hseg⟩ := Option.isSome_iff_exists.1 there
    -- the newest file is the one that may be torn, if any is
    obtain ⟨k', disk', all'⟩ : ∃ k', OnDisk .active t.fs L newest k' ∧
        ∀ j, k' ≤ j → P (L.cut newest j) := by
      by_cases hn : newest = n
      · subst hn
        exact ⟨k, disk, all⟩
      · have top : ∀ id, newest < id → L id = none := by
          intro id above
          obtain ⟨init, split⟩ := List.getLast?_eq_some_iff.1 last
          by_contra some
          have hid := (mem id).2 (Option.isSome_iff_ne_none.2 some)
          rw [split] at hid sorted
          rcases List.mem_append.1 hid with h | h
          · have := (List.pairwise_append.1 sorted).2.2 id h newest (by simp)
            omega
          · have := List.mem_singleton.1 h
            omega
        have below : newest < n := by
          by_contra above
          have := disk.last newest (by omega)
          rw [this] at hseg
          cases hseg
        have noN : L n = none := top n below
        have exactly : Exactly .active t.fs L := by
          intro id
          by_cases hid : id = n
          · rw [hid, disk.absent noN, noN]
            rfl
          · exact disk.sealed id hid
        refine ⟨seg.records.length, exactly.onDisk top fun seg' h => ?_, fun j hj => ?_⟩
        · rw [Option.some.inj (hseg.symm.trans h)]
        · rw [Layout.cut_of_length_le fun seg' h => by
            rwa [← Option.some.inj (hseg.symm.trans h)]]
          have := all k (Nat.le_refl k)
          rwa [Layout.cut_of_length_le fun seg' h => by rw [noN] at h; cases h] at this
    refine (safe_recoverSegments tidy disk' hseg forward alive quiet all' fresh' sorted mem
      last (1, 0)).mono ?_ fun _ h => h
    rintro r u ⟨⟨L', n', k'', index, disk'', all'', indexed, umem, found⟩, others⟩
    refine ⟨⟨L', n', k'', index, disk'', all'', indexed, by rw [umem, mem₁], found⟩,
      fun unmarked id => ?_, fun sound => ⟨fun id => ?_, ?_⟩⟩
    · rw [others _ rfl, noOld unmarked id]
    · rw [others _ rfl, (clean sound).1 id]
    · rw [others _ rfl, (clean sound).2]

end OosLite
