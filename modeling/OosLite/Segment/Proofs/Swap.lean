import OosLite.Segment.Proofs.Compaction

/-!
# The swap of a compaction

Phases 5a and 5b and the marker take the directory from the old segments to the new ones through
states from which recovery gets back or forward; phase 5c and step 6 finish the compaction.
-/

namespace OosLite

open Files Effect SegmentStore

variable {env : Env} {faulty : FsOp SegPath → Prop} {C : SegState → Prop}

/-! ## Phase 5a -/

/-- Some active files have been renamed. -/
structure MovedOut (done : List Nat) (fs fs' : Fs SegPath) : Prop where
  active : ∀ id, fs'.file (.active id) = if id ∈ done then none else fs.file (.active id)
  old : ∀ id, fs'.file (.old id) = if id ∈ done then fs.file (.active id) else fs.file (.old id)
  others : ∀ p : SegPath, p.isActive = false → p.isOld = false → fs'.file p = fs.file p

theorem MovedOut.next {done : List Nat} {fs fs' : Fs SegPath} (h : MovedOut done fs fs') {id : Nat}
    {f : File} (new : id ∉ done) (hf : fs'.file (.active id) = some f) :
    MovedOut (done ++ [id]) fs ((fs'.drop (.active id)).put (.old id) f) := by
  have there : fs.file (.active id) = some f := by rw [← hf, h.active, if_neg new]
  refine ⟨fun i => ?_, fun i => ?_, fun p active old => ?_⟩
  · by_cases same : i = id
    · subst same
      simp
    · simp [same, Ne.symm same, h.active]
  · by_cases same : i = id
    · subst same
      simp [there]
    · simp [same, Ne.symm same, h.old]
  · have ne₁ : SegPath.old id ≠ p := fun same => by subst same; cases old
    have ne₂ : SegPath.active id ≠ p := fun same => by subst same; cases active
    rw [Fs.file_put, if_neg ne₁, Fs.file_drop, if_neg ne₂, h.others p active old]

theorem safe_moveOut (tidy : ∀ o, faulty o → Cleanup o) {s : SegState}
    (safe : ∀ (done : List Nat) (t : SegState), MovedOut done s.fs t.fs → C t) :
    Safe (segMachine faulty)
      (fun r t => t.mem = s.mem ∧ ∃ ids, r = .ok ids ∧
        (∀ id, id ∈ ids ↔ (s.fs.file (.active id)).isSome) ∧ MovedOut ids s.fs t.fs)
      C moveOut s := by
  rw [moveOut, safe_bind]
  refine safe_listIds (not_faulty_list tidy) .active (fun _ => rfl) selects_active fun ids nodup mem => ?_
  rw [thenSafe_ok]
  refine Safe.bind (P := fun r t => r = .ok () ∧ t.mem = s.mem ∧ MovedOut ids s.fs t.fs)
    (safe_forEach (fun before _ _ t => t.mem = s.mem ∧ MovedOut before s.fs t.fs) ?_ ?_ ?_) ?_ ?_
  · exact ⟨rfl, by simp, by simp, fun _ _ _ => rfl⟩
  · rintro before id rest - t split ⟨tmem, moved⟩
    have new : id ∈ ids ∧ id ∉ before := by
      rw [← split] at nodup ⊢
      exact ⟨by simp, fun hb => (List.disjoint_of_nodup_append nodup) hb (by simp)⟩
    obtain ⟨f, hf⟩ := Option.isSome_iff_exists.1 ((mem id).1 new.1)
    have hf' : t.fs.file (.active id) = some f := by rw [moved.active, if_neg new.2, hf]
    have next := moved.next new.2 hf'
    refine Proc.safe_rename hf' (safe before t moved) (safe _ _ next) ⟨tmem, next⟩
      fun h => absurd (tidy _ h) (by simp [Cleanup])
  · exact fun _ t h => ⟨rfl, h⟩
  · rintro ⟨⟩ t ⟨-, tmem, moved⟩
    exact ⟨tmem, ids, rfl, mem, moved⟩
  · rintro e t ⟨ok, -⟩
    cases ok

/-- While the old segments move out, all of them are there. -/
theorem MovedOut.swapping {done : List Nat} {fs fs' : Fs SegPath} {L : Layout env}
    (h : MovedOut done fs fs') (old : Exactly .active fs L)
    (noOld : ∀ id, fs.file (.old id) = none) (unmarked : Unmarked fs) (N : Layout env) :
    Swapping fs' L N where
  unmarked f img hf := unmarked f img (by rw [← h.others _ rfl rfl, hf])
  old id seg hseg := by
    rw [h.active, h.old, old id, hseg, noOld id]
    split
    · exact .inl ⟨rfl, .inl rfl⟩
    · exact .inr ⟨rfl, rfl⟩
  new id free := by
    rw [h.active, h.old, old id, free, noOld id]
    split
    · exact ⟨rfl, .inl rfl⟩
    · exact ⟨rfl, .inl rfl⟩

/-! ## Phase 5b -/

/-- Some new segments have been moved in. -/
structure MovedIn (dir : Nat) (done : List Nat) (fs fs' : Fs SegPath) : Prop where
  active : ∀ id, fs'.file (.active id) =
    if id ∈ done then fs.file (.staging dir id) else fs.file (.active id)
  staged : ∀ id, id ∉ done → fs'.file (.staging dir id) = fs.file (.staging dir id)
  old : SameOld fs fs'

theorem MovedIn.next {dir : Nat} {done : List Nat} {fs fs' : Fs SegPath}
    (h : MovedIn dir done fs fs') {id : Nat} {f : File} (new : id ∉ done)
    (hf : fs'.file (.staging dir id) = some f) :
    MovedIn dir (done ++ [id]) fs ((fs'.drop (.staging dir id)).put (.active id) f) := by
  have there : fs.file (.staging dir id) = some f := by rw [← hf, h.staged id new]
  refine ⟨fun i => ?_, fun i hi => ?_, fun i => ?_, ?_⟩
  · by_cases same : i = id
    · subst same
      simp [there]
    · simp [same, Ne.symm same, h.active]
  · have other : id ≠ i := fun same => hi (by simp [same])
    have := h.staged i fun hmem => hi (by simp [hmem])
    simp [other, this]
  · simp [h.old.1]
  · simp [h.old.2]

/-- Syncing files that are on the medium changes nothing. -/
theorem safe_sync_placed (tidy : ∀ o, faulty o → Cleanup o) {s : SegState}
    (whole : ∀ id f, s.fs.file (.active id) = some f → f.Synced)
    (safe : ∀ t : SegState, (∀ p, t.fs.file p = s.fs.file p) → C t) {ids : List Nat}
    (mem : ∀ id, id ∈ ids → (s.fs.file (.active id)).isSome) :
    Safe (segMachine faulty)
      (fun r t => r = .ok () ∧ t.mem = s.mem ∧ ∀ p, t.fs.file p = s.fs.file p) C
      (Prog.forEach (fun _ id => Proc.ignore (Proc.sync (.active id))) () ids) s := by
  refine safe_forEach (fun _ _ _ t => t.mem = s.mem ∧ ∀ p, t.fs.file p = s.fs.file p)
    ⟨rfl, fun _ => rfl⟩ ?_ fun _ _ h => ⟨rfl, h⟩
  rintro before id rest - t split ⟨tmem, same⟩
  obtain ⟨f, hf⟩ := Option.isSome_iff_exists.1 (mem id (by rw [← split]; simp))
  have hf' : t.fs.file (.active id) = some f := by rw [same, hf]
  have unchanged (p : SegPath) :
      (t.fs.put (.active id) ⟨f.data, f.data⟩).file p = s.fs.file p := by
    rw [Fs.file_put]
    split
    · rename_i hp
      have synced : f.durable = f.data := whole id f hf
      rw [← hp, hf]
      exact congrArg (fun d => some (File.mk d f.data)) synced.symm
    · exact same p
  rw [Proc.safe_ignore]
  exact Proc.safe_sync hf' (safe t same) (safe _ unchanged) ⟨tmem, unchanged⟩
    fun h => absurd (tidy _ h) (by simp [Cleanup])

/-- The layout a compaction leads to. -/
def target (x : Compaction) (N : Layout env) : Layout env :=
  if x.retainedCount > 0 then N else .empty

/-- The new segments are moved in where the old ones are gone. -/
theorem safe_place (tidy : ∀ o, faulty o → Cleanup o) {s : SegState} {x : Compaction}
    {N : Layout env} (gone : ∀ id, s.fs.file (.active id) = none)
    (new : Exactly (.segment (some x.dir)) s.fs N)
    (safe : ∀ t : SegState, SameOld s.fs t.fs → (∀ id, t.fs.file (.active id) = none ∨
      t.fs.file (.active id) = (target x N id).map Segment.whole) → C t) :
    Safe (segMachine faulty)
      (fun r t => r = .ok () ∧ t.mem = s.mem ∧ SameOld s.fs t.fs ∧
        Exactly .active t.fs (target x N)) C (place x) s := by
  have staged (p : SegPath) (hp : p.isStagedIn x.dir = true) : p.isStaging = true := by
    obtain ⟨id, rfl⟩ := (selects_staged x.dir p).1 hp
    rfl
  rw [place]
  split
  · rename_i some
    rw [target, if_pos some] at safe ⊢
    rw [moveIn, safe_bind]
    refine safe_listIds (not_faulty_list tidy) (.staging x.dir) (fun _ => rfl) (selects_staged x.dir)
      fun ids nodup mem => ?_
    rw [thenSafe_ok]
    have moving {done : List Nat} {t : SegState} (moved : MovedIn x.dir done s.fs t.fs) (id : Nat) :
        t.fs.file (.active id) = none ∨
          t.fs.file (.active id) = (N id).map Segment.whole := by
      rw [moved.active]
      split
      · exact .inr (new id)
      · exact .inl (gone id)
    refine Safe.bind (P := fun r t => r = .ok () ∧ t.mem = s.mem ∧ MovedIn x.dir ids s.fs t.fs)
      (safe_forEach (fun before _ _ t => t.mem = s.mem ∧ MovedIn x.dir before s.fs t.fs)
        ?_ ?_ ?_) ?_ ?_
    · exact ⟨rfl, by simp, by simp, ⟨fun _ => rfl, rfl⟩⟩
    · rintro before id rest - t split ⟨tmem, moved⟩
      have fresh : id ∈ ids ∧ id ∉ before := by
        rw [← split] at nodup ⊢
        exact ⟨by simp, fun hb => (List.disjoint_of_nodup_append nodup) hb (by simp)⟩
      obtain ⟨f, hf⟩ := Option.isSome_iff_exists.1 ((mem id).1 fresh.1)
      have hf' : t.fs.file (.staging x.dir id) = Option.some f := by rw [moved.staged id fresh.2, hf]
      have next := moved.next fresh.2 hf'
      exact Proc.safe_rename hf' (safe t moved.old (moving moved))
        (safe (t.withFs _) next.old (moving (t := t.withFs _) next)) ⟨tmem, next⟩
        fun h => absurd (tidy _ h) (by simp [Cleanup])
    · exact fun _ t h => ⟨rfl, h⟩
    swap
    · rintro e t ⟨ok, -⟩
      cases ok
    rintro ⟨⟩ t ⟨-, tmem, moved⟩
    have placed : Exactly .active t.fs N := by
      intro id
      rw [moved.active]
      split
      · exact new id
      · rename_i absent
        have := (mem id).not.1 absent
        rw [Bool.not_eq_true, Option.isSome_eq_false_iff, Option.isNone_iff_eq_none] at this
        rw [gone id, ← new id]
        exact this.symm
    rw [safe_bind, Proc.safe_ignore]
    refine Proc.safe_removeAll (fun gone sub => ?_) ?_
      fun h => absurd (tidy _ h) (by simp [Cleanup])
    · have same : SameStore t.fs (t.fs.dropAll gone) := .dropAll (fun p hp => staged p (sub p hp)) _
      exact safe _ (moved.old.trans same.sameOld) fun id => .inr ((same _ rfl).trans (placed id))
    obtain ⟨u, hu⟩ : ∃ u, u = t.withFs (t.fs.dropAll (SegPath.isStagedIn x.dir)) := ⟨_, rfl⟩
    have same : SameStore t.fs u.fs := hu ▸ .dropAll staged _
    have placed' : Exactly .active u.fs N := placed.congr fun id => same _ rfl
    have old' := moved.old.trans same.sameOld
    rw [← hu, thenSafe_ok, safe_bind, safe_handle]
    refine safe_listIds (not_faulty_list tidy) .active (fun _ => rfl) selects_active fun ids' _ mem' => ?_
    simp only
    rw [thenSafe_ok]
    refine (safe_sync_placed tidy (fun id f hf => ?_) (fun v same' => ?_)
      fun id hid => (mem' id).1 hid).mono ?_ fun _ hc => hc
    · rw [placed' id] at hf
      obtain ⟨seg, -, rfl⟩ := Option.map_eq_some_iff.1 hf
      rfl
    · exact safe v (old'.trans ⟨fun _ => same' _, same' _⟩)
        fun id => .inr ((same' _).trans (placed' id))
    · rintro r v ⟨rfl, vmem, same'⟩
      refine ⟨rfl, ?_, old'.trans ⟨fun _ => same' _, same' _⟩, placed'.congr fun id => same' _⟩
      rw [vmem, hu]
      exact tmem
  · rename_i none
    rw [target, if_neg none] at safe ⊢
    rw [Proc.safe_ignore]
    have same (gone : SegPath → Bool) (sub : ∀ p, gone p = true → p.isStagedIn x.dir = true) :
        SameStore s.fs (s.fs.dropAll gone) := .dropAll (fun p hp => staged p (sub p hp)) _
    refine Proc.safe_removeAll (fun some sub => ?_) ?_
      fun h => absurd (tidy _ h) (by simp [Cleanup])
    · exact safe _ (same some sub).sameOld fun id => .inl ((same some sub _ rfl).trans (gone id))
    · have all := same _ fun _ h => h
      exact ⟨rfl, rfl, all.sameOld, fun id => (all _ rfl).trans (gone id)⟩

/-! ## The marker -/

theorem safe_writeMarker (tidy : ∀ o, faulty o → Cleanup o) {s : SegState}
    (safe : ∀ t : SegState, (∀ p, p ≠ .marker → t.fs.file p = s.fs.file p) → C t) :
    Safe (segMachine faulty)
      (fun r t => r = .ok () ∧ t.mem = s.mem ∧
        (∀ p, p ≠ .marker → t.fs.file p = s.fs.file p) ∧ MarkerDone t.fs) C writeMarker s := by
  rw [writeMarker, safe_bind]
  obtain ⟨fs, hfs⟩ : ∃ fs, fs = s.fs.emptied .marker := ⟨_, rfl⟩
  have others (p : SegPath) (hp : p ≠ .marker) : fs.file p = s.fs.file p := by
    rw [hfs, Fs.file_emptied, if_neg (Ne.symm hp)]
  obtain ⟨old, marker⟩ : ∃ old, fs.file .marker = some ⟨old, []⟩ := by
    rw [hfs, Fs.file_emptied, if_pos rfl]
    exact ⟨_, rfl⟩
  have start : fs.cursor .marker = 0 := by
    rw [hfs, Fs.cursor_emptied, if_pos rfl]
  have written (new : Bytes) : Bytes.writeAt [] 0 new = new := by simp [Bytes.writeAt]
  refine Proc.safe_truncate hfs (safe s fun _ _ => rfl) (safe _ others) ?_
    fun h => absurd (tidy _ h) (by simp [Cleanup])
  rw [thenSafe_ok, safe_bind]
  refine Proc.safe_write marker (fun n _ => safe _ fun p hp => ?_) ?_
    fun h => absurd (tidy _ h) (by simp [Cleanup])
  · simp [Ne.symm hp, others p hp]
  rw [thenSafe_ok]
  refine Proc.safe_sync (f := ⟨old, compactDone⟩) (by simp [start, written])
    (safe _ fun p hp => ?_) (safe _ fun p hp => ?_) ⟨rfl, rfl, fun p hp => ?_, ?_⟩
    fun h => absurd (tidy _ h) (by simp [Cleanup])
  · simp [Ne.symm hp, others p hp]
  · simp [Ne.symm hp, others p hp]
  · simp [Ne.symm hp, others p hp]
  · simp [MarkerDone]

/-! ## The swap as a whole -/

/-- A swap that is done but for the removal of the old segments. -/
structure Swapped (s t : SegState) (T : Layout env) (oldFiles : List Nat) : Prop where
  mem : t.mem = s.mem
  active : Exactly .active t.fs T
  marker : MarkerDone t.fs
  old : ∀ id, (t.fs.file (.old id)).isSome → id ∈ oldFiles ∨ (s.fs.file (.old id)).isSome

theorem safe_swap (tidy : ∀ o, faulty o → Cleanup o) {P : Layout env → Prop} {s : SegState}
    {x : Compaction} {reachable : ChunkId → Bool} {L N : Layout env}
    (h : Prepared reachable x s L N) (overlays : ∀ L', Overlay L (target x N) L' → P L')
    (result : P (target x N)) :
    Safe (segMachine faulty)
      (fun r t => ∃ ids, r = .ok ids ∧ Swapped s t (target x N) ids)
      (fun t => (∀ id, s.fs.file (.old id) = none) → Unmarked s.fs → CrashSafe P t)
      (swap x) s := by
  rw [swap]
  refine Safe.bind (safe_moveOut tidy fun done t moved noOld unmarked => ?_) ?_ ?_
  · exact (Recoverable.swapping L (target x N)
      (moved.swapping h.old noOld unmarked _) overlays).crashSafe
  swap
  · rintro e t ⟨_, _, ok, -⟩
    cases ok
  rintro ids t ⟨tmem, _, same, mem, moved⟩
  cases same
  have gone (id : Nat) : t.fs.file (.active id) = none := by
    rw [moved.active]
    split
    · rfl
    · rename_i absent
      have := (mem id).not.1 absent
      rwa [Bool.not_eq_true, Option.isSome_eq_false_iff, Option.isNone_iff_eq_none] at this
  have new : Exactly (.segment (some x.dir)) t.fs N :=
    h.new.congr fun id => moved.others _ rfl rfl
  -- the old segments under their second names, the first names free for the new ones
  have swapping {u : SegState} (same : SameOld t.fs u.fs) (active : ∀ id,
        u.fs.file (.active id) = none ∨
          u.fs.file (.active id) = (target x N id).map Segment.whole)
      (noOld : ∀ id, s.fs.file (.old id) = none) (unmarked : Unmarked u.fs) :
      Swapping u.fs L (target x N) := by
    refine ⟨unmarked, fun id seg hseg => .inl ⟨?_, active id⟩, fun id free => ⟨?_, active id⟩⟩
    · have hid : id ∈ ids := (mem id).2 (by rw [h.old id, hseg]; rfl)
      rw [same.1, moved.old, if_pos hid, h.old id, hseg]
      rfl
    · have hid : id ∉ ids := fun hid => by
        have := (mem id).1 hid
        rw [h.old id, free] at this
        cases this
      rw [same.1, moved.old, if_neg hid, noOld id]
  refine Safe.bind (safe_place tidy gone new fun u same active noOld unmarked => ?_) ?_ ?_
  · have unmarked' : Unmarked u.fs := fun f img hf =>
      unmarked f img (by rw [← moved.others _ rfl rfl, ← same.2, hf])
    exact (Recoverable.swapping _ _ (swapping same active noOld unmarked') overlays).crashSafe
  swap
  · rintro e u ⟨ok, -⟩
    cases ok
  rintro ⟨⟩ u ⟨-, umem, same, placed⟩
  refine Safe.bind (safe_writeMarker tidy fun v others noOld _ fs cut => ?_) ?_ ?_
  · -- the marker that survives decides between the old segments and the new ones
    have placed' : Exactly .active fs (target x N) :=
      (placed.congr fun id => others _ (by simp)).powerCut cut
    by_cases done : MarkerDone fs
    · obtain ⟨n, last⟩ := placed'.exists_last fun _ => rfl
      refine .settled _ n ((target x N n).elim 0 (·.records.length)) (.inr done)
        (placed'.onDisk last fun seg hseg => ?_) fun j hj => ?_
      · rw [hseg]
        exact Nat.le_refl _
      · rw [Layout.cut_of_length_le fun seg hseg => by rwa [hseg] at hj]
        exact result
    · refine .swapping _ _ ⟨fun f img hf survives same => done ?_, fun id seg hseg => .inl ?_,
        fun id free => ?_⟩ overlays
      · have synced : f.Synced := by
          cases hm : v.fs.file .marker with
          | none => rw [cut.absent hm] at hf; cases hf
          | some g =>
            obtain ⟨img', -, there⟩ := cut.present hm
            rw [there] at hf
            obtain rfl := Option.some.inj hf
            rfl
        obtain ⟨durable, data⟩ := f
        obtain rfl : durable = data := synced
        have := File.survives_synced (f := ⟨durable, durable⟩) rfl survives
        rw [MarkerDone, hf, ← same, this]
      · have hid : id ∈ ids := (mem id).2 (by rw [h.old id, hseg]; rfl)
        refine ⟨cut.synced (f := seg.whole) ?_ rfl, .inr (placed' id)⟩
        rw [others _ (by simp), same.1, moved.old, if_pos hid, h.old id, hseg]
        rfl
      · have hid : id ∉ ids := fun hid => by
          have := (mem id).1 hid
          rw [h.old id, free] at this
          cases this
        refine ⟨cut.absent ?_, .inr (placed' id)⟩
        rw [others _ (by simp), same.1, moved.old, if_neg hid, noOld id]
  · rintro ⟨⟩ v ⟨-, vmem, others, marker⟩
    rw [safe_pure]
    refine ⟨ids, rfl, ⟨?_, placed.congr fun id => others _ (by simp), marker, fun id hid => ?_⟩⟩
    · rw [vmem, umem, tmem]
    · rw [others _ (by simp), same.1, moved.old] at hid
      split at hid
      · exact .inl ‹_›
      · exact .inr hid
  · rintro e v ⟨ok, -⟩
    cases ok

/-! ## Phase 5c and step 6 -/

/-- What a crash after the swap leaves: a recoverable directory, unless the removal of an old
segment failed and that of the marker did not. -/
def FinishCut (P : Layout env → Prop) (t : SegState) : Prop := CrashSafe P t ∨ ¬ Quiet t.fs

theorem FinishCut.onDisk {P : Layout env → Prop} {t : SegState} {L : Layout env} {n k : Nat}
    (disk : OnDisk .active t.fs L n k) (all : ∀ j, k ≤ j → P (L.cut n j)) : FinishCut P t := by
  by_cases quiet : Quiet t.fs
  · exact .inl (Recoverable.settled L n k quiet disk all).crashSafe
  · exact .inr quiet

theorem FinishCut.exactly {P : Layout env → Prop} {t : SegState} {L : Layout env}
    (h : Exactly .active t.fs L) (result : P L) : FinishCut P t := by
  obtain ⟨n, last⟩ := h.exists_last fun _ => rfl
  refine .onDisk (h.onDisk (k := (L n).elim 0 (·.records.length)) last fun seg hseg => ?_)
    fun j hj => ?_
  · rw [hseg]
    exact Nat.le_refl _
  · rw [Layout.cut_of_length_le fun seg hseg => by rwa [hseg] at hj]
    exact result

theorem safe_cleanUp {P : Layout env → Prop} {s : SegState} {T : Layout env}
    (active : Exactly .active s.fs T) (result : P T) (marker : MarkerDone s.fs) (ids : List Nat) :
    Safe (segMachine faulty)
      (fun r t => r = .ok () ∧ t.mem = s.mem ∧ Exactly .active t.fs T ∧
        (∀ p, p.isOld = false → p ≠ .marker → t.fs.file p = s.fs.file p) ∧
        ((∀ o, ¬ faulty o) → t.fs.file .marker = none ∧
          ∀ id, (t.fs.file (.old id)).isSome → id ∉ ids ∧ (s.fs.file (.old id)).isSome))
      (fun t => FinishCut P t ∧ ((∀ o, ¬ faulty o) →
        (∀ id, (s.fs.file (.old id)).isSome → id ∈ ids) → Quiet t.fs)) (cleanUp ids) s := by
  have others' {p : SegPath} (old : p.isOld = false) : ∀ id, p ≠ .old id := fun id same => by
    subst same
    cases old
  rw [cleanUp]
  refine Safe.bind (safe_removeOld (fun t others => ?_) ids) ?_ ?_
  · exact ⟨.exactly (active.congr fun id => others _ (by simp)) result,
      fun _ _ => .inr ((others .marker (by simp)).trans marker)⟩
  swap
  · rintro e t ⟨ok, -⟩
    cases ok
  rintro ⟨⟩ t ⟨-, tmem, others, olds, gone⟩
  have active' : Exactly .active t.fs T := active.congr fun id => others _ (by simp)
  have dropped (p : SegPath) (hp : p ≠ .marker) : (t.fs.drop .marker).file p = t.fs.file p := by
    rw [Fs.file_drop, if_neg (Ne.symm hp)]
  have remaining (sound : ∀ o, ¬ faulty o) (id : Nat) (there : (t.fs.file (.old id)).isSome) :
      id ∉ ids ∧ (s.fs.file (.old id)).isSome := by
    refine ⟨fun hid => ?_, ?_⟩
    · rw [gone sound id hid] at there
      cases there
    · rcases olds id with h | h
      · rw [h] at there
        cases there
      · rwa [h] at there
  refine Proc.safe_ignore_remove ⟨.exactly active' result, fun _ _ => .inr ?_⟩
    ⟨.exactly (t := t.withFs _) (active'.congr fun id => dropped _ (by simp)) result,
      fun sound all => .inl fun id => ?_⟩ ?_ fun fail => ?_
  · exact (others .marker (by simp)).trans marker
  · rw [Proc.withFs_fs, dropped _ (by simp)]
    by_contra there
    obtain ⟨out, old⟩ := remaining sound id (Option.isSome_iff_ne_none.2 there)
    exact out (all id old)
  · refine ⟨rfl, tmem, active'.congr fun id => dropped _ (by simp), fun p old marker => ?_,
      fun sound => ⟨by simp, fun id there => remaining sound id ?_⟩⟩
    · rw [Proc.withFs_fs, dropped p marker, others p (others' old)]
    · rwa [Proc.withFs_fs, dropped _ (by simp)] at there
  · exact ⟨rfl, tmem, active', fun p old _ => others p (others' old),
      fun sound => ⟨fail.resolve_left (sound _), remaining sound⟩⟩

/-- The layout of the store after a compaction: the new segments, or a fresh first one. -/
def Attaches (x : Compaction) (N L' : Layout env) : Prop :=
  if x.retainedCount > 0 then L' = N else ∃ header, L' = Layout.empty.put 1 (.created env header)

theorem safe_attach (tidy : ∀ o, faulty o → Cleanup o) {P : Layout env → Prop} {s : SegState}
    {x : Compaction} {N : Layout env} (active : Exactly .active s.fs (target x N))
    (index : IndexOf N.entries (s.mem.index .new))
    (count : x.retainedCount = (s.mem.index .new).size)
    (writer : ∃ n m seg, (∀ id, n < id → N id = none) ∧ N n = some seg ∧
      x.newWriter = { staging := some x.dir, currentSegmentId := n, isOpen := true, buffer := []
                      currentOffset := seg.bytes.length, maxSegmentSize := m })
    (result : ∀ L', Attaches x N L' ∨ L' = target x N → P L') :
    Safe (segMachine faulty)
      (fun r t => r = .ok () ∧ (∃ L' n k, Attaches x N L' ∧ Attached .own none t L' n k ∧
          L'.cut n k = L') ∧ SameOutside none s.fs t.fs)
      (fun t => FinishCut P t ∧ SameOld s.fs t.fs) (attach x) s := by
  rw [attach, safe_bind, Proc.safe_load, thenSafe_ok, safe_bind, Proc.safe_save, thenSafe_ok]
  obtain ⟨s₁, hs₁⟩ : ∃ s₁, s₁ = s.withMem (s.mem.setIndex .own (s.mem.index .new)) := ⟨_, rfl⟩
  have fs₁ : s₁.fs = s.fs := hs₁ ▸ rfl
  have index₁ : s₁.mem.index .own = s.mem.index .new := by simp [hs₁]
  rw [← hs₁]
  rw [← fs₁] at active
  by_cases some : x.retainedCount > 0
  · rw [if_pos some]
    rw [target, if_pos some] at active
    obtain ⟨n, m, seg, last, hseg, hw⟩ := writer
    have there : s₁.fs.file (.segment none n) = Option.some seg.whole := by
      rw [SegPath.segment, active n, hseg]
      rfl
    have long : seg.bytes.length ≠ 0 := by
      have := seg.length_bytes
      simp only [segmentHeaderSize] at this
      omega
    have attaches : Attaches x N N := by rw [Attaches, if_pos some]
    rw [hw]
    refine Safe.bind (safe_open_resume tidy Option.none there long (fun t same => ?_) _) ?_ ?_
    · exact ⟨.exactly (active.congr fun id => same _) (result N (.inl attaches)),
        fs₁ ▸ ⟨fun _ => same _, same _⟩⟩
    · rintro w t ⟨m', ok, tmem, same, cursor⟩
      cases ok
      rw [safe_set]
      refine ⟨rfl, ⟨N, n, seg.records.length, attaches, ⟨?_, ?_, ?_⟩, ?_⟩, fun p _ => ?_⟩
      · exact (active.congr fun id => same _).onDisk last fun seg' h => by
          rw [Option.some.inj (hseg.symm.trans h)]
      · rw [Proc.withMem_mem, setWriter_index, tmem, index₁]
        exact index
      · exact ⟨seg, _, m', hseg, by rw [Proc.withMem_fs, same]; exact there, rfl, cursor, by simp⟩
      · exact Layout.cut_of_length_le fun seg' h => by rw [Option.some.inj (hseg.symm.trans h)]
      · rw [Proc.withMem_fs, same, fs₁]
    · rintro e t ⟨_, ok, -⟩
      cases ok
  · rw [if_neg some]
    rw [target, if_neg some] at active
    have none : N.entries = ∅ := by
      rw [Set.eq_empty_iff_forall_notMem]
      rintro ⟨c, loc⟩ hmem
      obtain ⟨loc', found⟩ := index.complete c loc hmem
      have empty : s.mem.index .new = ∅ := by
        rw [Std.ExtTreeMap.eq_empty_iff_size_eq_zero]
        omega
      rw [empty] at found
      simp at found
    have attaches (header : SegmentHeader) :
        Attaches x N (Layout.empty.put 1 (.created env header)) := by
      rw [Attaches, if_neg some]
      exact ⟨header, rfl⟩
    refine Safe.bind (safe_open_new tidy Option.none (active 1) (fun t creating => ?_)
      _) ?_ ?_
    · obtain ⟨others, file⟩ := creating
      refine ⟨?_, fs₁ ▸ ⟨fun _ => others _ (by simp [SegPath.segment]),
        others _ (by simp [SegPath.segment])⟩⟩
      rcases file with absent | ⟨header, f, hf, durable, data⟩
      · refine .exactly (L := .empty) (fun id => ?_) (result _ (.inr ?_))
        · by_cases hid : id = 1
          · rw [hid]
            exact absent
          · rw [others _ (by simpa [SegPath.segment] using hid), active id]
        · rw [target, if_neg some]
      · refine .onDisk (OnDisk.created Option.none active (fun _ _ => rfl) others hf
          durable data) fun j _ => ?_
        rw [Layout.cut_put_created]
        exact result _ (.inl (attaches header))
    · rintro w t ⟨header, m, ok, tmem, others, file, cursor⟩
      cases ok
      rw [safe_set]
      refine ⟨rfl, ⟨_, 1, 0, attaches header, ⟨.created Option.none active (fun _ _ => rfl)
        (fun p hp => (others p hp).1) file List.prefix_rfl List.prefix_rfl, ?_, ?_⟩,
        Layout.cut_put_created ..⟩, fun p hp => ?_⟩
      · rw [Layout.entries_put_created header rfl, Layout.entries_empty, Proc.withMem_mem,
          setWriter_index, tmem, index₁, ← none]
        exact index
      · exact ⟨_, _, m, Layout.put_self .., file, by simp, by simpa using cursor,
          by simp [segmentHeaderSize]⟩
      · rw [Proc.withMem_fs, (others p (hp 1)).1, fs₁]
    · rintro e t ⟨_, _, ok, -⟩
      cases ok

end OosLite
