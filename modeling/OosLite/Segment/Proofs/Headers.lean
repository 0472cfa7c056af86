import OosLite.Segment.Proofs.EachFile

/-!
# Headers that are on the medium

A file whose header is on the medium keeps it through every power cut. Recovery and the swap of
a compaction keep all headers; and where a header is missing, a store does not open.
-/

namespace OosLite

open Files Effect SegmentStore

variable {env : Env} {faulty : FsOp SegPath → Prop}

/-- A file that is as long as a header, and keeps these bytes in a power cut. -/
def Headed (f : File) : Prop :=
  ∃ header : Bytes, header.length = segmentHeaderSize ∧ header <+: f.durable ∧ header <+: f.data

theorem Headed.length_le {f : File} (h : Headed f) : segmentHeaderSize ≤ f.data.length := by
  obtain ⟨header, length, -, data⟩ := h
  exact length ▸ data.length_le

theorem Headed.synced {f : File} (h : Headed f) : Headed ⟨f.data, f.data⟩ := by
  obtain ⟨header, length, -, data⟩ := h
  exact ⟨header, length, data, data⟩

theorem Headed.survives {f : File} (h : Headed f) {img : Bytes} (hi : f.Survives img) :
    Headed ⟨img, img⟩ := by
  obtain ⟨header, length, durable, data⟩ := h
  have kept := hi.2 header durable data
  exact ⟨header, length, kept, kept⟩

theorem lasting_headed : Lasting Headed := fun _ _ h survives => h.survives survives

theorem Segment.headed (seg : Segment env) : Headed seg.whole :=
  ⟨seg.header, seg.length_header, List.prefix_append _ _, List.prefix_append _ _⟩

/-- The segments, and the new ones of one compaction. -/
def SegPath.Covered (dir : Nat) : SegPath → Prop
  | .active _ | .old _ => True
  | .staging d _ => d = dir
  | .marker => False

theorem SegPath.covers (dir : Nat) : Covers (SegPath.Covered dir) where
  active _ := trivial
  old _ := trivial
  marker h := h

/-- All segments, and the new ones of one compaction, have their headers. -/
def Solid (dir : Nat) (fs : Fs SegPath) : Prop :=
  ∀ p f, SegPath.Covered dir p → fs.file p = some f → Headed f

namespace Solid

variable {dir : Nat} {fs fs' : Fs SegPath}

theorem alive (h : Solid dir fs) : ¬ Dead fs := by
  rintro ⟨id, f, hf, short⟩
  have := (h (.active id) f trivial hf).length_le
  omega

theorem powerCut (h : Solid dir fs) (cut : fs.PowerCut fs') : Solid dir fs' :=
  EachFile.powerCut lasting_headed h cut

end Solid

/-! ## Operations that keep the headers -/

/-- A program that keeps the headers. -/
abbrev KeepsHeaders (faulty : FsOp SegPath → Prop) (dir : Nat) {α : Type} (p : SegProg α) : Prop :=
  Proc.Guards OosLiteError.ofIo faulty (SegQuestion.Allowed False) (Solid dir) p

namespace KeepsHeaders

variable {dir : Nat}

/-- Cutting off what is behind the header keeps it. -/
theorem setLen (p : SegPath) {len : Nat} (long : segmentHeaderSize ≤ len) :
    KeepsHeaders faulty dir (Proc.setLen p len : SegProg Unit) := by
  refine Maintains.fileOp fun fs fs' solid leads q f covered hf => ?_
  rcases leads.cases nofun nofun with rfl | ⟨r, done⟩
  · exact solid q f covered hf
  simp only [Fs.Done] at done
  split at done
  · rename_i g hg
    rw [done.2, Fs.file_put] at hf
    split at hf
    · rename_i same
      obtain rfl := Option.some.inj hf
      obtain ⟨header, length, durable, data⟩ := solid p g (same ▸ covered) hg
      refine ⟨header, length, durable, List.IsPrefix.trans ?_ (List.prefix_append _ _)⟩
      exact List.prefix_take_iff.2 ⟨data, by omega⟩
    · exact solid q f covered hf
  · rw [done.2] at hf
    exact solid q f covered hf

theorem recoverSegment (newestId : Nat) (b : Nat × Nat) (id : Nat) :
    KeepsHeaders faulty dir (recoverSegment env newestId b id) :=
  Maintains.bind (KeepsFiles.read _) fun _ => Maintains.bind (.ofExcept _) fun _ =>
    Maintains.bind .load fun _ => Maintains.bind (.save _) fun _ =>
      Maintains.bind (.ofExcept _) fun _ => Maintains.bind
        (.when (Maintains.bind (setLen _ (Framing.le_stop ..)) fun _ =>
          KeepsFiles.sync lasting_headed _)) fun _ => .pure _

theorem recoverAndIndex : KeepsHeaders faulty dir (recoverAndIndex env) :=
  KeepsFiles.recoverAndIndex lasting_headed (SegPath.covers dir) recoverSegment

/-- Phases 5a and 5b and the marker. -/
theorem swap {x : Compaction} (hx : x.dir = dir) : KeepsHeaders faulty dir (swap x) :=
  KeepsFiles.swap lasting_headed (SegPath.covers dir) fun _ => hx

/-- Phase 5c. -/
theorem cleanUp (ids : List Nat) : KeepsHeaders faulty dir (cleanUp ids) :=
  KeepsFiles.cleanUp lasting_headed ids

end KeepsHeaders

/-! ## A missing header -/

section Dead

variable {C : SegState → Prop}

/-- Where nothing is to be undone, settling leaves the segments alone. -/
theorem safe_settle_active {s : SegState} (quiet : Quiet s.fs) {ids : List Nat}
    (mem : ∀ id, id ∈ ids ↔ (s.fs.file (.old id)).isSome) (p : Nat) :
    Safe (segMachine faulty) (fun _ t => Fs.Shows (.active p) (s.fs.file (.active p)) t.fs)
      (fun _ => True) (settle (decide (s.fs.data .marker = some compactDone)) ids) s := by
  have guards (q : SegPath) (hq : q ≠ .active p) : Proc.Guards OosLiteError.ofIo faulty
      (SegQuestion.Allowed False) (Fs.Shows (.active p) (s.fs.file (.active p)))
      (Proc.ignore (Proc.remove q) : SegProg Unit) := .ignore (.untouched (Ne.symm hq))
  rw [settle]
  split
  · rename_i some
    have done : MarkerDone s.fs := by
      obtain ⟨id, hid⟩ := List.exists_mem_of_ne_nil _ some
      refine quiet.resolve_left fun noOld => ?_
      have := (mem id).1 hid
      rw [noOld id] at this
      cases this
    rw [decide_eq_true done.data, if_pos rfl]
    exact (Maintains.bind (.forEach (fun _ id _ => guards (.old id) (by simp)) _)
      (fun _ => guards .marker (by simp)) s rfl).mono (fun _ _ h => h) fun _ _ => trivial
  · have whole : Proc.Guards OosLiteError.ofIo faulty (SegQuestion.Allowed False)
        (Fs.Shows (.active p) (s.fs.file (.active p))) (do
          let present ← Proc.exists? .marker
          Prog.when present (Proc.ignore (Proc.remove .marker)) : SegProg Unit) :=
      Maintains.bind (.untouched not_false) fun _ => .when (guards .marker (by simp))
    exact (whole s rfl).mono (fun _ _ h => h) fun _ _ => trivial

/-- The recovery of another segment leaves a segment alone. -/
theorem guards_recoverSegment {newestId id p : Nat} (other : id ≠ p) {f : Option File}
    (b : Nat × Nat) :
    Proc.Guards OosLiteError.ofIo faulty (SegQuestion.Allowed False) (Fs.Shows (.active p) f)
      (recoverSegment env newestId b id) := by
  have free : ¬ SegPath.active p = SegPath.active id := by simpa using Ne.symm other
  exact Maintains.bind (.untouched not_false) fun _ => Maintains.bind (.ofExcept _) fun _ =>
    Maintains.bind .load fun _ => Maintains.bind (.save _) fun _ =>
      Maintains.bind (.ofExcept _) fun _ => Maintains.bind
        (.when (Maintains.bind (.untouched free) fun _ => .untouched free)) fun _ => .pure _

/-- A store does not open while a segment file is shorter than its header. -/
theorem Dead.openStore {s : SegState} (dead : Dead s.fs) (quiet : Quiet s.fs)
    (tidy : ∀ o, faulty o → Cleanup o) (maxSegmentSize : Nat) :
    Safe (segMachine faulty) (fun r _ => ∃ e, r = .error e) (fun _ => True)
      (openStore env maxSegmentSize) s := by
  obtain ⟨p, f, hf, short⟩ := dead
  rw [SegmentStore.openStore, safe_bind, Proc.safe_load, thenSafe_ok, safe_bind, Proc.safe_save,
    thenSafe_ok, safe_bind, recoverAndIndex, safe_bind]
  refine safe_readMarker tidy ?_
  rw [thenSafe_ok, safe_bind, Proc.safe_ignore]
  refine Proc.safe_removeAll (fun _ _ => trivial) ?_ fun h => absurd (tidy _ h) (by simp [Cleanup])
  obtain ⟨s₁, hs₁⟩ : ∃ s₁ : SegState, s₁ = ((s.withMem (s.mem.setIndex .own ∅)).withFs
    (s.fs.dropAll SegPath.isStaging)) := ⟨_, rfl⟩
  have same : SameStore s.fs s₁.fs := hs₁ ▸ .dropAll (fun _ h => h) _
  have data : s.fs.data .marker = s₁.fs.data .marker := by
    rw [Fs.data, Fs.data, same .marker rfl]
  rw [Proc.withMem_fs, data, ← hs₁, thenSafe_ok, safe_bind]
  refine safe_listIds (not_faulty_list tidy) .old (fun _ => rfl) selects_old fun olds _ present => ?_
  rw [thenSafe_ok]
  refine Safe.bind (safe_settle_active (quiet.congr same) present p) ?_ fun e t _ => ⟨e, rfl⟩
  intro _ t there
  rw [Fs.Shows, same _ rfl, hf] at there
  rw [safe_bind]
  refine safe_listIds (not_faulty_list tidy) .active (fun _ => rfl) selects_active fun ids _ listed => ?_
  have hp : p ∈ ids.mergeSort := by
    rw [(List.mergeSort_perm ids _).mem_iff, listed, there]
    rfl
  rw [thenSafe_ok]
  simp only
  split
  · rename_i none
    rw [List.getLast?_eq_none_iff.1 none] at hp
    cases hp
  refine safe_forEach (fun done _ _ u => u.fs.file (.active p) = some f ∧ p ∉ done)
    ⟨there, by simp⟩ ?_ fun b u h => absurd hp h.2
  rintro done id rest b u - ⟨there, absent⟩
  by_cases this : id = p
  · subst this
    rw [recoverSegment, safe_bind]
    refine Proc.safe_read (fun f' hf' => ?_) (fun absent => ?_) fun h =>
      absurd (tidy _ h) (by simp [Cleanup])
    · obtain rfl := Option.some.inj (there.symm.trans hf')
      rw [thenSafe_ok, safe_bind, readHeader, SegmentHeader.readFrom, if_pos short, safe_ofExcept]
      exact ⟨_, rfl⟩
    · rw [there] at absent
      cases absent
  · refine (guards_recoverSegment this b u there).mono (fun r v hv => ?_) fun _ _ => trivial
    cases r with
    | ok _ => exact ⟨hv, by simp [absent, Ne.symm this]⟩
    | error e => exact ⟨e, rfl⟩

/-! ### Stores that never open again -/

/-- A file without a header that no power cut completes, in a directory where nothing is to be
undone. -/
structure Stuck (p : Nat) (f : File) (fs : Fs SegPath) : Prop where
  there : fs.file (.active p) = some f
  short : f.data.length < segmentHeaderSize ∧ f.durable.length < segmentHeaderSize
  quiet : Quiet fs

namespace Stuck

variable {p : Nat} {f : File} {fs fs' : Fs SegPath}

theorem dead (h : Stuck p f fs) : Dead fs := ⟨p, f, h.there, h.short.1⟩

theorem of_dead (dead : Dead fs) (forward : Forward fs) (quiet : Quiet fs) :
    ∃ p f, Stuck p f fs := by
  obtain ⟨p, f, there, short⟩ := dead
  have durable := (forward p f there).length_le
  exact ⟨p, f, there, ⟨short, by omega⟩, quiet⟩

theorem powerCut (h : Stuck p f fs) (cut : fs.PowerCut fs') : ∃ g, Stuck p g fs' := by
  obtain ⟨img, survives, there⟩ := cut.present h.there
  have short : img.length < segmentHeaderSize := by
    rcases survives.1 with front | front
    · exact Nat.lt_of_le_of_lt front.length_le h.short.2
    · exact Nat.lt_of_le_of_lt front.length_le h.short.1
  exact ⟨_, there, ⟨short, short⟩, h.quiet.powerCut cut⟩

theorem congr (h : Stuck p f fs) (same : SameStore fs fs') : Stuck p f fs' :=
  ⟨(same _ rfl).trans h.there, h.short, h.quiet.congr same⟩

/-- The rest of a finished compaction goes, and nothing else. -/
theorem settle (sound : ∀ o, ¬ faulty o) {s : SegState} (h : Stuck p f s.fs) {ids : List Nat}
    (mem : ∀ id, id ∈ ids ↔ (s.fs.file (.old id)).isSome) :
    Safe (segMachine faulty) (fun _ t => Stuck p f t.fs) (fun t => Stuck p f t.fs)
      (settle (decide (s.fs.data .marker = some compactDone)) ids) s := by
  have removed {t : SegState} (there : t.fs.file (.active p) = some f)
      (none : ∀ id, t.fs.file (.old id) = none) : Stuck p f (t.fs.drop .marker) := by
    refine ⟨by simp [there], h.short, .inl fun id => ?_⟩
    simp [none id]
  rw [SegmentStore.settle]
  by_cases some : ids = []
  · have none (id : Nat) : s.fs.file (.old id) = none := by
      have absent : ¬ (s.fs.file (.old id)).isSome := by
        rw [← mem id, some]
        exact List.not_mem_nil
      simpa using absent
    rw [if_neg (not_not_intro some), safe_bind]
    refine Proc.safe_exists ?_ fun fails => absurd fails (sound _)
    rw [thenSafe_ok]
    apply safe_when
    · intro _
      have gone := removed h.there none
      exact Proc.safe_ignore_remove h gone gone fun _ => h
    · exact fun _ => h
  · have done : MarkerDone s.fs := by
      obtain ⟨id, hid⟩ := List.exists_mem_of_ne_nil _ some
      refine h.quiet.resolve_left fun noOld => ?_
      have present := (mem id).1 hid
      rw [noOld id] at present
      cases present
    rw [if_pos some, decide_eq_true done.data, if_pos rfl]
    -- the marker stays until every old segment is gone
    refine Safe.bind (P := fun r t => r = .ok () ∧ t.fs.file (.active p) = Option.some f ∧
      ∀ id, t.fs.file (.old id) = Option.none) ?_ ?_ fun e t failed => by cases failed.1
    · apply safe_forEach fun before _ _ t => t.fs.file (.active p) = Option.some f ∧ MarkerDone t.fs ∧
        ∀ id, (t.fs.file (.old id)).isSome → id ∈ ids ∧ id ∉ before
      · exact ⟨h.there, done, fun id there => ⟨(mem id).2 there, List.not_mem_nil⟩⟩
      · rintro before id rest _ t _ ⟨there, marked, remaining⟩
        have stays : Stuck p f t.fs := ⟨there, h.short, .inr marked⟩
        have marked' : MarkerDone (t.fs.drop (.old id)) := by
          unfold MarkerDone
          rw [Fs.file_drop, if_neg (by simp)]
          exact marked
        have goes : Stuck p f (t.fs.drop (.old id)) := ⟨by simp [there], h.short, .inr marked'⟩
        refine Proc.safe_ignore_remove stays goes ?_ fun fail => ?_
        · refine ⟨by simp [there], marked', fun other present => ?_⟩
          simp only [Proc.withFs_fs, Fs.file_drop] at present
          by_cases same : SegPath.old id = .old other
          · rw [if_pos same] at present
            cases present
          · rw [if_neg same] at present
            obtain ⟨listed, before'⟩ := remaining other present
            have differs : other ≠ id := fun equal => same (by rw [equal])
            exact ⟨listed, by simp [before', differs]⟩
        · have absent := fail.resolve_left (sound _)
          refine ⟨there, marked, fun other present => ?_⟩
          obtain ⟨listed, before'⟩ := remaining other present
          have differs : other ≠ id := by
            intro equal
            rw [equal, absent] at present
            cases present
          exact ⟨listed, by simp [before', differs]⟩
      · rintro _ t ⟨there, _, remaining⟩
        refine ⟨rfl, there, fun id => ?_⟩
        have absent : ¬ (t.fs.file (.old id)).isSome :=
          fun present => (remaining id present).2 (remaining id present).1
        simpa using absent
    · rintro _ t ⟨_, there, noOld⟩
      have stays : Stuck p f t.fs := ⟨there, h.short, .inl noOld⟩
      have gone := removed there noOld
      exact Proc.safe_ignore_remove stays gone gone fun _ => stays

/-- An operation on another segment. -/
theorem untouched {o : FsOp SegPath} {id : Nat} (other : id ≠ p)
    (only : ∀ q, Fs.Touches o q → q = .active id) :
    Proc.Guards OosLiteError.ofIo faulty (SegQuestion.Allowed False) (Stuck p f)
      (Proc.fileOp o : SegProg o.Res) := by
  apply Maintains.fileOp
  intro fs fs' h leads
  have same (q : SegPath) (hq : q ≠ .active id) : fs'.file q = fs.file q :=
    leads.untouched fun touched => hq (only q touched)
  refine ⟨(same _ (by simpa using Ne.symm other)).trans h.there, h.short, ?_⟩
  exact h.quiet.imp (fun none i => (same _ (by simp)).trans (none i)) (same _ (by simp)).trans

theorem guards_recoverSegment {newestId id : Nat} (other : id ≠ p) (b : Nat × Nat) :
    Proc.Guards OosLiteError.ofIo faulty (SegQuestion.Allowed False) (Stuck p f)
      (recoverSegment env newestId b id) := by
  apply Maintains.bind (untouched (o := .read _) other fun _ touched => touched.elim)
  intro content
  apply Maintains.bind (.ofExcept _)
  intro header
  apply Maintains.bind .load
  intro store
  apply Maintains.bind (.save _)
  intro _
  apply Maintains.bind (.ofExcept _)
  intro repair
  apply Maintains.bind
  · apply Maintains.when
    apply Maintains.bind (untouched (o := .setLen _ _) other fun _ touched => touched)
    exact fun _ => untouched (o := .sync _) other fun _ touched => touched
  · exact fun _ => .pure _

/-- Opening such a store fails, and leaves it so. -/
theorem openStore (sound : ∀ o, ¬ faulty o) {s : SegState} (h : Stuck p f s.fs)
    (maxSegmentSize : Nat) :
    Safe (segMachine faulty) (fun r t => (∃ e, r = .error e) ∧ Stuck p f t.fs)
      (fun t => Stuck p f t.fs) (openStore env maxSegmentSize) s := by
  have tidy (o : FsOp SegPath) (fails : faulty o) : Cleanup o := absurd fails (sound o)
  rw [SegmentStore.openStore, safe_bind, Proc.safe_load, thenSafe_ok, safe_bind, Proc.safe_save,
    thenSafe_ok, safe_bind, recoverAndIndex, safe_bind]
  apply safe_readMarker tidy
  rw [thenSafe_ok, safe_bind, Proc.safe_ignore]
  refine Proc.safe_removeAll (fun gone sub => h.congr (.dropAll sub _)) ?_
    fun fails => absurd fails (sound _)
  obtain ⟨s₁, hs₁⟩ : ∃ s₁ : SegState, s₁ = ((s.withMem (s.mem.setIndex .own ∅)).withFs
    (s.fs.dropAll SegPath.isStaging)) := ⟨_, rfl⟩
  have same : SameStore s.fs s₁.fs := hs₁ ▸ .dropAll (fun _ h => h) _
  have data : s.fs.data .marker = s₁.fs.data .marker := by
    rw [Fs.data, Fs.data, same .marker rfl]
  rw [Proc.withMem_fs, data, ← hs₁, thenSafe_ok, safe_bind]
  refine safe_listIds (not_faulty_list tidy) .old (fun _ => rfl) selects_old fun olds _ present => ?_
  rw [thenSafe_ok]
  apply Safe.bind ((h.congr same).settle sound present)
  · intro _ t stuck
    rw [safe_bind]
    refine safe_listIds (not_faulty_list tidy) .active (fun _ => rfl) selects_active
      fun ids _ listed => ?_
    have member : p ∈ ids.mergeSort := by
      rw [(List.mergeSort_perm ids _).mem_iff, listed, stuck.there]
      rfl
    rw [thenSafe_ok]
    simp only
    split
    · rename_i none
      rw [List.getLast?_eq_none_iff.1 none] at member
      cases member
    apply safe_forEach fun done _ _ u => Stuck p f u.fs ∧ p ∉ done
    · exact ⟨stuck, List.not_mem_nil⟩
    · rintro done id rest b u _ ⟨stuck, absent⟩
      by_cases own : id = p
      · subst own
        rw [recoverSegment, safe_bind]
        refine Proc.safe_read (fun g there => ?_) (fun none => ?_) fun fails =>
          absurd fails (sound _)
        · obtain rfl := Option.some.inj (stuck.there.symm.trans there)
          rw [thenSafe_ok, safe_bind, readHeader, SegmentHeader.readFrom, if_pos h.short.1,
            safe_ofExcept]
          exact ⟨⟨_, rfl⟩, stuck⟩
        · rw [stuck.there] at none
          cases none
      · apply (guards_recoverSegment own b u stuck).mono ?_ fun _ left => left
        intro r v left
        cases r with
        | ok _ => exact ⟨left, by simp [absent, Ne.symm own]⟩
        | error e => exact ⟨⟨e, rfl⟩, left⟩
    · exact fun b u done => absurd member done.2
  · exact fun e t stuck => ⟨⟨e, rfl⟩, stuck⟩

end Stuck

end Dead

end OosLite
