import OosLite.Segment.Proofs.EachFile
import OosLite.Segment.Proofs.Buffering

/-!
# What is behind the headers

A process writes records behind the headers of its segments, fails at any operation, is stopped
anywhere, and goes on. What is there stays of one kind: nothing but what appends of this kind, torn
or whole, have left.
-/

namespace OosLite

open Files Effect SegmentStore Framing

/-- What is behind the header of a file, as the process sees it and on the medium. -/
def Body (R : Bytes → Prop) (f : File) : Prop :=
  R (f.data.drop segmentHeaderSize) ∧ R (f.durable.drop segmentHeaderSize)

/-- The contents of all segment files are of one kind. -/
abbrev Bodies (R : Bytes → Prop) (fs : Fs SegPath) : Prop := EachFile (· ≠ .marker) (Body R) fs

theorem covers_segments : Covers (· ≠ SegPath.marker) where
  active _ := nofun
  old _ := nofun
  marker h := h rfl

variable {R : Bytes → Prop}

theorem Body.drop (content : Content R) {x y : Bytes} (h : R (y.drop segmentHeaderSize))
    (front : x <+: y) : R (x.drop segmentHeaderSize) :=
  content.of_prefix h (front.drop segmentHeaderSize)

theorem Body.short (content : Content R) {x : Bytes} (short : x.length ≤ segmentHeaderSize) :
    R (x.drop segmentHeaderSize) := by
  rw [List.drop_eq_nil_iff.2 short]
  exact content.nil

theorem Body.lasting (content : Content R) : Lasting (Body R) := by
  intro f img body survives
  have kept : R (img.drop segmentHeaderSize) := by
    rcases survives.1 with durable | data
    · exact Body.drop content body.2 durable
    · exact Body.drop content body.1 data
  exact ⟨kept, kept⟩

/-- The operations that may fail: no look at a directory, and no write that is not counted. -/
structure Reliable (faulty : FsOp SegPath → Prop) : Prop where
  counted : Counted faulty
  list : ∀ select, ¬ faulty (.list select)
  removeAll : ∀ select, ¬ faulty (.removeAll select)

variable {env : Env} {faulty : FsOp SegPath → Prop} {fails : Prop}

/-! ## Recovery -/

theorem nextRecord_sized (bs : Bytes) (h : RecordHeader) (size : Nat)
    (item : nextRecord env bs = .item h size) : 0 < size ∧ size ≤ bs.length := by
  obtain ⟨read, rfl, fits⟩ := nextRecord_eq_item item
  have header := (RecordHeader.readFrom_eq_some read).2.1
  omega

theorem judge_eq_false {newest : Bool} {offset : Nat} {reason : Option SegmentStop}
    (h : judge newest offset reason = .ok false) : reason = none := by
  cases reason with
  | none => rfl
  | some reason =>
    rw [judge] at h
    split at h <;> cases h

theorem readHeader_long {content : Bytes} {h : SegmentHeader} (ok : readHeader content = .ok h) :
    segmentHeaderSize ≤ content.length := by
  by_contra short
  rw [readHeader, SegmentHeader.readFrom, if_pos (Nat.lt_of_not_le short)] at ok
  cases ok

/-- The same segments are there. -/
def SameIds (fs fs' : Fs SegPath) : Prop :=
  ∀ id, (fs'.file (.active id)).isSome = (fs.file (.active id)).isSome

theorem SameIds.put {fs : Fs SegPath} {id : Nat} {f : File} (hf : fs.file (.active id) = some f)
    (g : File) : SameIds fs (fs.put (.active id) g) := by
  intro i
  rw [Fs.file_put]
  split
  · rename_i same
    rw [← same, hf]
    rfl
  · rfl

theorem Body.put {fs : Fs SegPath} (bodies : Bodies R fs) {p : SegPath} {g : File} (body : Body R g) :
    Bodies R (fs.put p g) := by
  intro q f hq hf
  rw [Fs.file_put] at hf
  split at hf
  · obtain rfl := Option.some.inj hf
    exact body
  · exact bodies q f hq hf

theorem Bodies.synced {fs : Fs SegPath} (bodies : Bodies R fs) {p : SegPath} (segment : p ≠ .marker)
    {f : File} (hf : fs.file p = some f) : Bodies R (fs.put p ⟨f.data, f.data⟩) :=
  Body.put bodies ⟨(bodies p f segment hf).1, (bodies p f segment hf).1⟩

/-- The end of a segment is cut off. -/
theorem safe_repair (content : Content R) {s : SegState} (bodies : Bodies R s.fs) {id : Nat} {f : File}
    (hf : s.fs.file (.active id) = some f) {len : Nat} (within : len ≤ f.data.length) :
    Safe (segMachine faulty fails)
      (fun r t => Bodies R t.fs ∧ SameIds s.fs t.fs ∧
        (r = .ok () → ∃ g, t.fs.file (.active id) = some g ∧ g.data.length = len))
      (fun t => Bodies R t.fs) (do Proc.setLen (.active id) len; Proc.sync (.active id)) s := by
  have body := bodies (.active id) f (fun h => by cases h) hf
  have front := Body.drop content body.1 (List.take_prefix len f.data)
  have first : Bodies R (s.fs.put (.active id) { f with data := f.data.take len }) :=
    Body.put bodies ⟨front, body.2⟩
  have second : Bodies R ((s.fs.put (.active id) { f with data := f.data.take len }).put (.active id)
      ⟨f.data.take len, f.data.take len⟩) := Body.put first ⟨front, front⟩
  have ids := SameIds.put hf
  rw [safe_bind]
  apply Proc.safe_setLen hf within bodies first
  · change Safe _ _ _ _ _
    apply Proc.safe_sync (f := { f with data := f.data.take len }) (by simp) first second
    · refine ⟨second, fun i => ?_, fun _ => ⟨⟨f.data.take len, f.data.take len⟩, by simp, ?_⟩⟩
      · exact (SameIds.put (f := { f with data := f.data.take len }) (by simp) _ i).trans (ids _ i)
      · exact List.length_take_of_le within
    · intro _
      exact ⟨first, ids _, fun h => by cases h⟩
  · intro _
    exact ⟨bodies, fun _ => rfl, fun h => by cases h⟩

/-- A recovered segment ends where its scan stops. -/
theorem safe_recoverSegment_body (content : Content R) {s : SegState} (bodies : Bodies R s.fs)
    (newestId : Nat) (b : Nat × Nat) (id : Nat) :
    Safe (segMachine faulty fails)
      (fun r t => Bodies R t.fs ∧ SameIds s.fs t.fs ∧
        ∀ v, r = .ok v → ∃ f, t.fs.file (.active id) = some f ∧ v = (id, f.data.length) ∧
          segmentHeaderSize ≤ f.data.length)
      (fun t => Bodies R t.fs) (recoverSegment env newestId b id) s := by
  rw [recoverSegment, safe_bind]
  apply Proc.safe_read
  · intro f hf
    rw [thenSafe_ok, safe_bind, safe_ofExcept]
    cases header : readHeader f.data with
    | error e => exact ⟨bodies, fun _ => rfl, fun _ h => by cases h⟩
    | ok h =>
      have long := readHeader_long header
      have all : segmentHeaderSize + (f.data.drop segmentHeaderSize).length = f.data.length := by
        rw [List.length_drop]
        omega
      have bounds := Framing.stop_le (@nextRecord_sized env) (f.data.length + 1) segmentHeaderSize
        (f.data.drop segmentHeaderSize) (by rw [List.length_drop]; omega)
      have begins := Framing.le_stop (nextRecord env) (f.data.length + 1) segmentHeaderSize
        (f.data.drop segmentHeaderSize)
      rw [all] at bounds
      rw [thenSafe_ok, safe_bind, Proc.safe_load, thenSafe_ok, safe_bind, Proc.safe_save, thenSafe_ok,
        safe_bind, safe_ofExcept]
      unfold scanSegment
      generalize Framing.scan (nextRecord env) (f.data.length + 1) segmentHeaderSize
        (f.data.drop segmentHeaderSize) = found at bounds begins ⊢
      -- the index changes, and the files do not
      obtain ⟨u, hu, fs⟩ : ∃ u : SegState, u = s.withMem (s.mem.setIndex .own
          (insertAll (s.mem.index .own) (found.items.map (entry id)))) ∧ u.fs = s.fs := ⟨_, rfl, rfl⟩
      rw [← hu]
      cases judged : judge (id = newestId) found.stop found.reason with
      | error e => exact ⟨fs ▸ bodies, fs ▸ fun _ => rfl, fun _ h => by cases h⟩
      | ok repair =>
        rw [thenSafe_ok, safe_bind]
        apply safe_when
        · intro _
          apply (safe_repair content (fs ▸ bodies) (fs ▸ hf) bounds.1).mono
          · rintro r t ⟨kept, ids, done⟩
            cases r with
            | error e => exact ⟨kept, fs ▸ ids, fun _ h => by cases h⟩
            | ok _ =>
              obtain ⟨g, there, length⟩ := done rfl
              refine ⟨kept, fs ▸ ids, fun v ok => ?_⟩
              cases ok
              exact ⟨g, there, by rw [length], length ▸ begins⟩
          · exact fun _ kept => kept
        · intro no
          have sound : repair = false := by simpa using no
          rw [sound] at judged
          have stop := bounds.2 (judge_eq_false judged)
          refine ⟨fs ▸ bodies, fs ▸ fun _ => rfl, fun v ok => ?_⟩
          cases ok
          exact ⟨f, fs ▸ hf, by rw [stop], long⟩
  · intro _
    exact ⟨bodies, fun _ => rfl, fun _ h => by cases h⟩
  · intro _
    exact ⟨bodies, fun _ => rfl, fun _ h => by cases h⟩

/-- Where a store goes on writing: at the end of its newest segment, or in the first one of an empty
directory. -/
def Resumes (fs : Fs SegPath) (found : Nat × Nat) : Prop :=
  found = (1, 0) ∧ (∀ id, fs.file (.active id) = none) ∨
    ∃ f, fs.file (.active found.1) = some f ∧ found.2 = f.data.length ∧
      segmentHeaderSize ≤ f.data.length ∧ ∀ id g, found.1 < id → fs.file (.active id) = some g →
        g.data.length ≤ segmentHeaderSize

theorem keepsFiles_recoverSegment (content : Content R) (newestId : Nat) (b : Nat × Nat) (id : Nat) :
    KeepsFiles faulty fails (· ≠ .marker) (Body R) (recoverSegment env newestId b id) := by
  intro s bodies
  apply (safe_recoverSegment_body content bodies newestId b id).mono
  · exact fun _ _ h => h.1
  · exact fun _ h => h

theorem safe_recoverSegments_resumes {s : SegState} {newestId : Nat} {ids : List Nat}
    (mem : ∀ id, id ∈ ids ↔ (s.fs.file (.active id)).isSome) (sorted : ids.Pairwise (· < ·))
    (nonempty : ids ≠ []) :
    Safe (segMachine faulty fails) (fun r t => ∀ found, r = .ok found → Resumes t.fs found)
      (fun _ => True) (Prog.forEach (recoverSegment env newestId) (1, 0) ids) s := by
  have anything : Content fun _ => True := ⟨trivial, fun _ _ => trivial⟩
  have always (fs : Fs SegPath) : Bodies (fun _ => True) fs := fun _ _ _ _ => ⟨trivial, trivial⟩
  apply safe_forEach (fun done _ b t => SameIds s.fs t.fs ∧
    (done ≠ [] → done.getLast? = some b.1 ∧ ∃ f, t.fs.file (.active b.1) = some f ∧
      b.2 = f.data.length ∧ segmentHeaderSize ≤ f.data.length))
  · exact ⟨fun _ => rfl, fun no => absurd rfl no⟩
  · intro done id rest b t split ⟨same, _⟩
    apply (safe_recoverSegment_body anything (always t.fs) newestId b id).mono
    · intro r u ⟨_, same', found⟩
      cases r with
      | error e => exact nofun
      | ok v =>
        obtain ⟨f, hf, rfl, long⟩ := found v rfl
        exact ⟨fun i => (same' i).trans (same i), fun _ => ⟨by simp, f, hf, rfl, long⟩⟩
    · exact fun _ _ => trivial
  · intro b t ⟨same, last⟩ found ok
    cases ok
    obtain ⟨newest, f, hf, length, long⟩ := last nonempty
    refine .inr ⟨f, hf, length, long, fun id g above hg => ?_⟩
    have absent : id ∉ ids := by
      intro there
      -- no number is beyond the last one of the sorted list
      obtain ⟨front, rfl⟩ := List.getLast?_eq_some_iff.1 newest
      rw [List.pairwise_append] at sorted
      rcases List.mem_append.1 there with there | there
      · have := sorted.2.2 id there b.1 (by simp)
        omega
      · have := List.mem_singleton.1 there
        omega
    rw [mem, ← same id, hg] at absent
    exact absurd rfl absent

/-- Whatever was going on, a store that recovers finds where to go on. -/
theorem safe_recoverAndIndex_resumes (reliable : Reliable faulty) (s : SegState) :
    Safe (segMachine faulty fails) (fun r t => ∀ found, r = .ok found → Resumes t.fs found)
      (fun _ => True) (recoverAndIndex env) s := by
  rw [recoverAndIndex]
  apply Safe.bind (safe_trivial _ _)
  · intro done t _
    apply Safe.bind (safe_trivial _ _)
    · intro _ t _
      apply Safe.bind (safe_trivial _ _)
      · intro olds t _
        apply Safe.bind (safe_trivial _ _)
        · intro _ t _
          rw [safe_bind]
          apply safe_listIds reliable.list .active (fun _ => rfl) selects_active
          intro ids nodup listed
          have perm := List.mergeSort_perm ids fun a b => decide (a ≤ b)
          have mem (id : Nat) : id ∈ ids.mergeSort ↔ (t.fs.file (.active id)).isSome := by
            rw [perm.mem_iff, listed]
          rw [thenSafe_ok]
          simp only
          split
          · rename_i none
            rw [List.getLast?_eq_none_iff] at none
            intro found ok
            cases ok
            refine .inl ⟨rfl, fun id => ?_⟩
            have absent : id ∉ ids.mergeSort := by simp [none]
            rw [mem] at absent
            exact Option.not_isSome_iff_eq_none.1 absent
          · rename_i newestId newest
            apply safe_recoverSegments_resumes mem
            · exact pairwise_mergeSort nodup
            · intro none
              rw [none] at newest
              cases newest
        · exact fun _ _ _ _ h => by cases h
      · exact fun _ _ _ _ h => by cases h
    · exact fun _ _ _ _ h => by cases h
  · exact fun _ _ _ _ h => by cases h

theorem safe_recoverAndIndex_body (content : Content R) (reliable : Reliable faulty) {s : SegState}
    (bodies : Bodies R s.fs) :
    Safe (segMachine faulty fails)
      (fun r t => Bodies R t.fs ∧ ∀ found, r = .ok found → Resumes t.fs found)
      (fun t => Bodies R t.fs) (recoverAndIndex env) s := by
  have keeps := @KeepsFiles.recoverAndIndex faulty fails _ (Body R) (Body.lasting content) covers_segments env
    (keepsFiles_recoverSegment content) s bodies
  apply (keeps.and (safe_recoverAndIndex_resumes reliable s)).mono
  · exact fun _ _ h => h
  · exact fun _ h => h.1

/-! ## Opening a segment -/

/-- An error of the files. -/
def OosLiteError.IsIo (e : OosLiteError) : Prop := ∃ kind message, e = .io kind message

theorem isIo {α : Type} {kind : IoError} (e : OosLiteError)
    (h : (.error (OosLiteError.ofIo kind) : Result α) = .error e) : e.IsIo := by
  cases h
  exact ⟨kind, "", rfl⟩

/-- A segment that is being started: nothing is behind its header. -/
structure Begins (path : SegPath) (fs fs' : Fs SegPath) : Prop where
  others : ∀ p, p ≠ path → fs'.file p = fs.file p ∧ fs'.cursor p = fs.cursor p
  short : ∀ f', fs'.file path = some f' → f'.data.length ≤ segmentHeaderSize ∧
    (f'.durable.length ≤ segmentHeaderSize ∨ ∃ f, fs.file path = some f ∧ f'.durable = f.durable)

theorem Begins.bodies (content : Content R) {path : SegPath} {fs fs' : Fs SegPath}
    (h : Begins path fs fs') (bodies : Bodies R fs) : Bodies R fs' := by
  intro p f hp hf
  by_cases this : p = path
  · subst this
    obtain ⟨data, durable⟩ := h.short f hf
    refine ⟨Body.short content data, ?_⟩
    rcases durable with durable | ⟨g, hg, same⟩
    · exact Body.short content durable
    · rw [same]
      exact (bodies p g hp hg).2
  · rw [(h.others p this).1] at hf
    exact bodies p f hp hf

/-- A new segment: its header is all there is in the file. -/
theorem safe_open_begin (counted : Counted faulty) {s : SegState} (staging : Option Nat) {id : Nat}
    (short : ∀ f, s.fs.file (.segment staging id) = some f → f.data.length ≤ segmentHeaderSize)
    (maxSegmentSize : Nat) :
    Safe (segMachine faulty fails)
      (fun r t => t.mem = s.mem ∧ Begins (.segment staging id) s.fs t.fs ∧
        (∀ w, r = .ok w → (∃ m, w = SegmentWriter.mk staging id true [] segmentHeaderSize m) ∧
          ∃ f, AtEnd (.segment staging id) t.fs f ∧ f.data.length = segmentHeaderSize) ∧
        ∀ e, r = .error e → e.IsIo)
      (fun t => Begins (.segment staging id) s.fs t.fs)
      (SegmentWriter.open staging id 0 maxSegmentSize) s := by
  have segment := SegPath.segment_ne_marker staging id
  obtain ⟨path, hpath⟩ : ∃ path, path = SegPath.segment staging id := ⟨_, rfl⟩
  rw [← hpath] at short segment ⊢
  rw [SegmentWriter.open]
  simp only [SegmentWriter.path, ← hpath]
  have same : Begins path s.fs s.fs := ⟨fun _ _ => ⟨rfl, rfl⟩, fun f hf => ⟨short f hf, .inr ⟨f, hf, rfl⟩⟩⟩
  -- the file before the header is written
  obtain ⟨f, fs, hfs, hf, length, begun⟩ : ∃ (f : File) (fs : Fs SegPath),
      fs = s.fs.opened path ∧ fs.file path = some f ∧ f.data.length ≤ segmentHeaderSize ∧
      Begins path s.fs fs := by
    have others (p : SegPath) (hp : p ≠ path) : (s.fs.opened path).file p = s.fs.file p ∧
        (s.fs.opened path).cursor p = s.fs.cursor p := ⟨by simp [Ne.symm hp], by simp [hp]⟩
    cases there : s.fs.file path with
    | none =>
      refine ⟨⟨[], []⟩, _, rfl, by simp [there], by simp, others, fun f' hf' => ?_⟩
      have empty : (⟨[], []⟩ : File) = f' := by simpa [there] using hf'
      rw [← empty]
      exact ⟨Nat.zero_le _, .inl (Nat.zero_le _)⟩
    | some f =>
      refine ⟨f, _, rfl, by simp [there], short f there, others, fun f' hf' => ?_⟩
      have same : f = f' := by simpa [there] using hf'
      rw [← same]
      exact ⟨short f there, .inr ⟨f, there, rfl⟩⟩
  have cursor : fs.cursor path = 0 := by rw [hfs]; simp
  rw [safe_bind]
  apply Proc.safe_create hfs same begun
  swap
  · intro _
    exact ⟨rfl, same, fun _ h => (by cases h), isIo⟩
  rw [thenSafe_ok, safe_bind, SegmentWriter.begin, if_pos rfl, safe_bind]
  apply Proc.safe_ask.2
  intro createdAt _
  obtain ⟨h, hh⟩ : ∃ h : SegmentHeader, h = { segmentId := id, createdAt } := ⟨_, rfl⟩
  have wrote (part : Bytes) : (fs.wrote path f part).file path =
      some ⟨f.durable, part ++ f.data.drop part.length⟩ := by
    simp [cursor, Bytes.writeAt]
  have written {part : Bytes} (sub : part <+: h.toBytes) : Begins path s.fs (fs.wrote path f part) := by
    refine ⟨fun p hp => ?_, fun f' hf' => ?_⟩
    · rw [Fs.file_wrote, if_neg (Ne.symm hp), Fs.cursor_wrote, if_neg hp]
      exact begun.others p hp
    · rw [wrote] at hf'
      obtain rfl := Option.some.inj hf'
      have le := sub.length_le
      rw [SegmentHeader.length_toBytes] at le
      refine ⟨?_, (begun.short f hf).2⟩
      rw [List.length_append, List.length_drop]
      omega
  rw [thenSafe_ok, safe_bind, ← hh]
  apply safe_writeAll counted segment hf
  · intro part sub
    exact written sub
  · have whole : h.toBytes ++ f.data.drop h.toBytes.length = h.toBytes := by
      rw [List.drop_eq_nil_iff.2 (by rwa [SegmentHeader.length_toBytes]), List.append_nil]
    have there : (fs.wrote path f h.toBytes).file path = some ⟨f.durable, h.toBytes⟩ := by
      rw [wrote, whole]
    have synced : Begins path s.fs ((fs.wrote path f h.toBytes).put path ⟨h.toBytes, h.toBytes⟩) := by
      refine ⟨fun p hp => ?_, fun f' hf' => ?_⟩
      · rw [Fs.file_put, if_neg (Ne.symm hp), Fs.cursor_put]
        exact (written List.prefix_rfl).others p hp
      · rw [Fs.file_put, if_pos rfl] at hf'
        obtain rfl := Option.some.inj hf'
        exact ⟨by simp, .inl (by simp)⟩
    rw [thenSafe_ok, safe_bind]
    apply Proc.safe_sync there (written List.prefix_rfl) synced
    · refine ⟨rfl, synced, fun w ok => ?_, fun _ h => by cases h⟩
      cases ok
      exact ⟨⟨_, rfl⟩, ⟨h.toBytes, h.toBytes⟩, ⟨by simp, by simp [cursor]⟩, by simp⟩
    · intro _
      exact ⟨rfl, written List.prefix_rfl, fun _ h => (by cases h), isIo⟩
  · intro _ count _
    exact ⟨rfl, written (List.take_prefix count _), fun _ h => (by cases h), isIo⟩

/-- A segment that is there: the writer goes on at its end. -/
theorem safe_open_end {s : SegState} (staging : Option Nat) {id : Nat} {f : File}
    (there : s.fs.file (.segment staging id) = some f) (long : segmentHeaderSize ≤ f.data.length)
    (maxSegmentSize : Nat) :
    Safe (segMachine faulty fails)
      (fun r t => t.mem = s.mem ∧ (∀ p, t.fs.file p = s.fs.file p) ∧
        (∀ w, r = .ok w → (∃ m, w = SegmentWriter.mk staging id true [] f.data.length m) ∧
          AtEnd (.segment staging id) t.fs f) ∧
        ∀ e, r = .error e → e.IsIo)
      (fun t => ∀ p, t.fs.file p = s.fs.file p)
      (SegmentWriter.open staging id f.data.length maxSegmentSize) s := by
  have pos : f.data.length ≠ 0 := by
    simp only [segmentHeaderSize] at long
    omega
  rw [SegmentWriter.open]
  simp only [SegmentWriter.path]
  rw [safe_bind]
  apply Proc.safe_create (Fs.opened_of_file there).symm
  · exact fun _ => rfl
  · exact fun _ => rfl
  · rw [thenSafe_ok, safe_bind, SegmentWriter.begin, if_neg pos, safe_bind]
    apply Proc.safe_seek
    · refine ⟨rfl, fun _ => rfl, fun w ok => ?_, fun _ h => by cases h⟩
      cases ok
      exact ⟨⟨_, rfl⟩, there, by simp⟩
    · intro _
      exact ⟨rfl, fun _ => rfl, fun _ h => (by cases h), isIo⟩
  · intro _
    exact ⟨rfl, fun _ => rfl, fun _ h => (by cases h), isIo⟩

/-! ## A writer at the end of its segment -/

/-- A writer appends: its file and its buffer are of one kind, and no later segment has a body. Where
it matters, its offset is the end of what it wrote. -/
structure Writes (R : Bytes → Prop) (exact : Prop) (side : Side) (staging : Option Nat)
    (s : SegState) : Prop where
  isOpen : (s.mem.writer side).isOpen = true
  place : (s.mem.writer side).staging = staging
  file : ∃ f, AtEnd (s.mem.writer side).path s.fs f ∧ segmentHeaderSize ≤ f.data.length ∧
    R (f.data.drop segmentHeaderSize ++ (s.mem.writer side).buffer) ∧
    (exact → (s.mem.writer side).currentOffset = f.data.length + (s.mem.writer side).buffer.length)
  later : ∀ id f, (s.mem.writer side).currentSegmentId < id →
    s.fs.file (.segment staging id) = some f → f.data.length ≤ segmentHeaderSize

/-- What one writer does not touch: the files elsewhere, and the other writer. -/
structure Elsewhere (side : Side) (staging : Option Nat) (s t : SegState) : Prop where
  fs : ∀ p, (∀ id, p ≠ .segment staging id) →
    t.fs.file p = s.fs.file p ∧ t.fs.cursor p = s.fs.cursor p
  writer : ∀ side', side' ≠ side → t.mem.writer side' = s.mem.writer side'

theorem Elsewhere.refl (side : Side) (staging : Option Nat) (s : SegState) : Elsewhere side staging s s :=
  ⟨fun _ _ => ⟨rfl, rfl⟩, fun _ _ => rfl⟩

theorem Elsewhere.trans {side : Side} {staging : Option Nat} {s t u : SegState}
    (h : Elsewhere side staging s t) (h' : Elsewhere side staging t u) : Elsewhere side staging s u where
  fs p hp := ⟨((h'.fs p hp).1).trans (h.fs p hp).1, ((h'.fs p hp).2).trans (h.fs p hp).2⟩
  writer side' other := (h'.writer side' other).trans (h.writer side' other)

/-- The store's own writer does not see the new segments of a compaction. -/
theorem Writes.apart {exact : Prop} {dir : Nat} {s t : SegState} (h : Writes R exact .own none s)
    (apart : Elsewhere .new (some dir) s t) : Writes R exact .own none t := by
  have writer := apart.writer .own nofun
  have path : (s.mem.writer .own).path = .active (s.mem.writer .own).currentSegmentId := by
    rw [SegmentWriter.path, h.place]
    rfl
  have free (i : Nat) := apart.fs (.active i) nofun
  obtain ⟨f, ⟨hf, cursor⟩, long, held, end_⟩ := h.file
  refine ⟨by rw [writer]; exact h.isOpen, by rw [writer]; exact h.place, ⟨f, ?_, long, ?_⟩, ?_⟩
  · rw [writer, path]
    rw [path] at hf cursor
    exact ⟨(free _).1.trans hf, (free _).2.trans cursor⟩
  · rw [writer]
    exact ⟨held, end_⟩
  · intro i g above hg
    rw [writer] at above
    exact h.later i g above ((free i).1.symm.trans hg)

/-- What the operations of a writer leave. -/
structure Left (R : Bytes → Prop) (exact : Prop) (side : Side) (staging : Option Nat)
    (s t : SegState) : Prop where
  bodies : Bodies R t.fs
  writes : Writes R exact side staging t
  apart : Elsewhere side staging s t

theorem Writes.path {exact : Prop} {side : Side} {staging : Option Nat} {s : SegState}
    (h : Writes R exact side staging s) :
    (s.mem.writer side).path = .segment staging (s.mem.writer side).currentSegmentId := by
  rw [SegmentWriter.path, h.place]

section Appending

variable {exact : Prop} {side : Side} {staging : Option Nat} {s t : SegState}

theorem Left.trans {exact' : Prop} (h : Left R exact side staging s t) {u : SegState}
    (h' : Left R exact' side staging t u) : Left R exact' side staging s u :=
  ⟨h'.bodies, h'.writes, h.apart.trans h'.apart⟩

theorem Writes.le (h : Writes R exact side staging s) {exact' : Prop} (le : exact' → exact) :
    Writes R exact' side staging s := by
  obtain ⟨f, atEnd, long, held, end_⟩ := h.file
  exact ⟨h.isOpen, h.place, ⟨f, atEnd, long, held, fun this => end_ (le this)⟩, h.later⟩

/-- What is behind the header while a file grows. -/
theorem Bodies.extends (content : Content R) {path : SegPath} (segment : path ≠ .marker)
    {fs fs' : Fs SegPath} (bodies : Bodies R fs) {f : File} {part more : Bytes}
    (there : fs.file path = some f) (long : segmentHeaderSize ≤ f.data.length)
    (held : R (f.data.drop segmentHeaderSize ++ more)) (front : part <+: more)
    (grown : Extends path fs f part fs') : Bodies R fs' := by
  intro p g hp hg
  by_cases this : p = path
  · rw [this, grown.atEnd.1] at hg
    obtain rfl := Option.some.inj hg
    refine ⟨?_, (bodies path f segment there).2⟩
    rw [List.drop_append_of_le_length long]
    exact content.of_prefix held ((List.prefix_append_right_inj _).2 front)
  · rw [(grown.others p this).1] at hg
    exact bodies p g hp hg

/-- More bytes have gone to a writer. -/
theorem Writes.buffered (content : Content R) (bodies : Bodies R s.fs)
    (h : Writes R exact side staging s) {f : File} {more written rest : Bytes}
    (atEnd : AtEnd (s.mem.writer side).path s.fs f) (long : segmentHeaderSize ≤ f.data.length)
    (b : Buffered side s f more written rest t)
    (held : R (f.data.drop segmentHeaderSize ++ more)) {exact' : Prop}
    (end_ : exact' → (s.mem.writer side).currentOffset = f.data.length + more.length) :
    Left R exact' side staging s t := by
  have path := h.path
  have segment : (s.mem.writer side).path ≠ .marker := path ▸ SegPath.segment_ne_marker _ _
  refine ⟨Bodies.extends content segment bodies atEnd.1 long held ?_ b.file, ⟨?_, ?_,
    ⟨⟨f.durable, f.data ++ written⟩, ?_, ?_, ?_, fun this => ?_⟩, fun i g above hg => ?_⟩,
    ⟨fun p hp => b.file.others p ?_, fun side' other => ?_⟩⟩
  · rw [b.split]
    exact List.prefix_append _ _
  · rw [b.writer]
    exact h.isOpen
  · rw [b.writer]
    exact h.place
  · rw [b.path]
    exact b.file.atEnd
  · rw [List.length_append]
    omega
  · rwa [b.writer, List.drop_append_of_le_length long, List.append_assoc, ← b.split]
  · have := end_ this
    rw [b.split, List.length_append] at this
    rw [b.writer, List.length_append]
    simp only
    omega
  · rw [b.writer] at above
    rw [(b.file.others _ ?_).1] at hg
    · exact h.later i g above hg
    · rw [path]
      intro same
      have := SegPath.segment_inj staging same
      simp only at above
      omega
  · rw [path]
    exact hp _
  · rw [b.mem, setWriter_writer, if_neg other]

/-- The file of a writer goes to the medium. -/
theorem Writes.synced (bodies : Bodies R s.fs) (h : Writes R exact side staging s) {g : File}
    (hg : s.fs.file (s.mem.writer side).path = some g) :
    Left R exact side staging s
      (s.withFs (s.fs.put (s.mem.writer side).path ⟨g.data, g.data⟩)) := by
  have segment : (s.mem.writer side).path ≠ .marker := h.path ▸ SegPath.segment_ne_marker _ _
  obtain ⟨f, ⟨hf, cursor⟩, long, held⟩ := h.file
  obtain rfl := Option.some.inj (hf.symm.trans hg)
  refine ⟨bodies.synced segment hg, ⟨h.isOpen, h.place, ⟨⟨f.data, f.data⟩, ⟨?_, cursor⟩, long,
    held⟩, fun i k above hk => ?_⟩, ⟨fun p hp => ?_, fun _ _ => rfl⟩⟩
  · exact (Fs.file_put ..).trans (if_pos rfl)
  · rw [Proc.withFs_fs, Fs.file_put, if_neg] at hk
    · exact h.later i k above hk
    · rw [h.path]
      intro same
      have := SegPath.segment_inj staging same
      simp only [Proc.withFs_mem] at above
      omega
  · rw [Proc.withFs_fs, Fs.file_put, Fs.cursor_put, if_neg]
    · exact ⟨rfl, rfl⟩
    · rw [h.path]
      exact Ne.symm (hp _)

/-- `sync`: afterwards nothing is in the buffer. -/
theorem safe_sync_left (content : Content R) (counted : Counted faulty) (bodies : Bodies R s.fs)
    (h : Writes R exact side staging s) :
    Safe (segMachine faulty fails)
      (fun r t => Left R exact side staging s t ∧ (r = .ok () → (t.mem.writer side).buffer = []))
      (fun t => Bodies R t.fs) (SegmentWriter.sync side) s := by
  obtain ⟨f, atEnd, long, held, end_⟩ := h.file
  have segment : (s.mem.writer side).path ≠ .marker := h.path ▸ SegPath.segment_ne_marker _ _
  have flushed {written rest : Bytes} {t : SegState}
      (b : Buffered side s f (s.mem.writer side).buffer written rest t) :
      Left R exact side staging s t := h.buffered content bodies atEnd long b held end_
  rw [SegmentWriter.sync, safe_bind, safe_get, thenSafe_ok]
  apply safe_when
  swap
  · intro closed
    exact absurd h.isOpen closed
  intro _
  apply Safe.bind (safe_flush counted (Buffered.start atEnd) fun u part sub grown =>
    Bodies.extends content segment bodies atEnd.1 long held sub grown)
  · intro _ t flush
    rcases flush with ⟨_, b⟩ | ⟨_, ok, _⟩
    swap
    · cases ok
    have left := flushed b
    have hf := b.file.atEnd.1
    rw [← b.path] at hf ⊢
    have synced := left.writes.synced left.bodies hf
    apply Proc.safe_sync hf left.bodies synced.bodies
    · refine ⟨left.trans synced, fun _ => ?_⟩
      rw [Proc.withFs_mem, b.writer]
    · intro _
      exact ⟨left, nofun⟩
  · intro e t flush
    rcases flush with ⟨ok, _⟩ | ⟨_, _, written, rest, b⟩
    · cases ok
    · exact ⟨flushed b, nofun⟩

/-- A writer that was just opened on a segment without a body. -/
theorem Writes.begun (content : Content R) {w : SegmentWriter} {id : Nat} {fs : Fs SegPath}
    (begins : Begins (.segment staging id) fs t.fs) (started : ∃ m,
      w = SegmentWriter.mk staging id true [] segmentHeaderSize m)
    {f : File} (atEnd : AtEnd (.segment staging id) t.fs f)
    (length : f.data.length = segmentHeaderSize)
    (later : ∀ i g, id < i → fs.file (.segment staging i) = some g →
      g.data.length ≤ segmentHeaderSize) (exact : Prop) :
    Writes R exact side staging (t.withMem (t.mem.setWriter side w)) := by
  obtain ⟨m, rfl⟩ := started
  have writer : (t.mem.setWriter side (SegmentWriter.mk staging id true [] segmentHeaderSize m)).writer
      side = SegmentWriter.mk staging id true [] segmentHeaderSize m := by
    rw [setWriter_writer, if_pos rfl]
  refine ⟨by rw [Proc.withMem_mem, writer], by rw [Proc.withMem_mem, writer], ⟨f, ?_, ?_, ?_, ?_⟩, ?_⟩
  · rw [Proc.withMem_mem, writer]
    exact atEnd
  · rw [length]
  · rw [Proc.withMem_mem, writer, List.append_nil]
    exact Body.short content length.le
  · intro _
    rw [Proc.withMem_mem, writer, length]
    rfl
  · intro i g above hg
    rw [Proc.withMem_mem, writer] at above
    rw [Proc.withMem_fs, (begins.others _ ?_).1] at hg
    · exact later i g above hg
    · intro same
      have := SegPath.segment_inj staging same
      simp only at above
      omega

/-- `rotate`. -/
theorem safe_rotate_left (content : Content R) (counted : Counted faulty) (bodies : Bodies R s.fs)
    (h : Writes R exact side staging s) :
    Safe (segMachine faulty fails) (fun _ t => Left R exact side staging s t)
      (fun t => Bodies R t.fs) (SegmentWriter.rotate side) s := by
  rw [SegmentWriter.rotate]
  apply Safe.bind (safe_sync_left content counted bodies h)
  · intro _ t ⟨left, _⟩
    rw [safe_bind, safe_get, thenSafe_ok, left.writes.place]
    have next := left.writes.later ((t.mem.writer side).currentSegmentId + 1)
    apply Safe.bind ((safe_open_begin counted staging (fun f hf => next f (by omega) hf) _).mono
      (fun _ _ post => post) fun u begins => begins.bodies content left.bodies)
    · intro w u ⟨mem, begins, started, _⟩
      obtain ⟨begun, f, atEnd, length⟩ := started w rfl
      rw [safe_set]
      refine left.trans ⟨begins.bodies content left.bodies, ?_, ⟨fun p hp => ?_, fun side' other => ?_⟩⟩
      · refine .begun content begins begun atEnd length (fun i g above hg => ?_) exact
        exact left.writes.later i g (by omega) hg
      · exact begins.others p (hp _)
      · rw [Proc.withMem_mem, setWriter_writer, if_neg other, mem]
    · intro e u ⟨mem, begins, _⟩
      -- the writer is still the one of the full segment
      refine left.trans ⟨begins.bodies content left.bodies, ?_, ⟨fun p hp => begins.others p (hp _), ?_⟩⟩
      · have path := left.writes.path
        have other : (t.mem.writer side).path ≠
            .segment staging ((t.mem.writer side).currentSegmentId + 1) := by
          rw [path]
          intro same
          have := SegPath.segment_inj staging same
          omega
        obtain ⟨f, ⟨hf, cursor⟩, long, held, end_⟩ := left.writes.file
        refine ⟨by rw [mem]; exact left.writes.isOpen, by rw [mem]; exact left.writes.place,
          ⟨f, ⟨?_, ?_⟩, long, ?_⟩, fun i g above hg => ?_⟩
        · rw [mem, (begins.others _ other).1, hf]
        · rw [mem, (begins.others _ other).2, cursor]
        · rw [mem]
          exact ⟨held, end_⟩
        · rw [mem] at above
          by_cases this : i = (t.mem.writer side).currentSegmentId + 1
          · rw [this] at hg
            exact (begins.short g hg).1
          · rw [(begins.others _ fun same => this (SegPath.segment_inj staging same)).1] at hg
            exact left.writes.later i g above hg
      · intro side' other
        rw [mem]
  · exact fun _ _ h => h.1

/-- The part of `append_chunk` after the rotation. -/
theorem safe_writeRecord_left (content : Content R) (counted : Counted faulty)
    (bodies : Bodies R s.fs) (h : Writes R exact side staging s) (c : ChunkId) (data : Bytes)
    (record : RecordHeader × Bytes) (grows : Grows R (record.1.toBytes env ++ record.2)) :
    Safe (segMachine faulty fails) (fun r t => Left R (exact ∧ r = .ok ()) side staging s t)
      (fun t => Bodies R t.fs) (SegmentWriter.writeRecord env side c data record) s := by
  obtain ⟨f, atEnd, long, held, end_⟩ := h.file
  have segment : (s.mem.writer side).path ≠ .marker := h.path ▸ SegPath.segment_ne_marker _ _
  have more {part : Bytes} (sub : part <+: record.1.toBytes env ++ record.2) :
      R (f.data.drop segmentHeaderSize ++ ((s.mem.writer side).buffer ++ part)) := by
    rw [← List.append_assoc]
    exact grows _ part held sub
  rw [SegmentWriter.writeRecord, safe_bind, safe_get, thenSafe_ok, safe_bind, SegmentWriter.file,
    if_pos h.isOpen, safe_ofExcept, thenSafe_ok]
  apply Safe.bind (safe_writeOut_behind counted atEnd record fun u part sub grown =>
    Bodies.extends content segment bodies atEnd.1 long (more List.prefix_rfl) sub grown)
  · intro _ u written
    rcases written with ⟨_, b⟩ | ⟨_, ok, _⟩
    swap
    · cases ok
    have left : Left R False side staging s u :=
      h.buffered content bodies atEnd long b (more List.prefix_rfl) nofun
    rw [safe_bind, Proc.safe_load, thenSafe_ok, Proc.safe_save]
    refine ⟨left.bodies, ⟨?_, ?_, ?_, ?_⟩, ⟨left.apart.fs, fun side' other => ?_⟩⟩
    · simpa using left.writes.isOpen
    · simpa using left.writes.place
    · refine ⟨⟨f.durable, f.data ++ ((s.mem.writer side).buffer ++ (record.1.toBytes env ++ record.2))⟩,
        ?_, ?_, ?_, ?_⟩
      · simpa [SegmentWriter.path, b.writer] using b.file.atEnd
      · rw [List.length_append]
        omega
      · simpa [b.writer, List.drop_append_of_le_length long] using more List.prefix_rfl
      · intro this
        have := end_ this.1
        simp only [Proc.withMem_mem, setIndex_writer, setWriter_writer, if_true, b.writer,
          List.length_append, List.length_nil, RecordHeader.length_toBytes]
        omega
    · intro i g above hg
      refine left.writes.later i g ?_ hg
      simpa using above
    · simpa [other] using left.apart.writer side' other
  · intro e u written
    rcases written with ⟨ok, _⟩ | ⟨_, _, part, written, rest, above, sub, b⟩
    · cases ok
    obtain ⟨q, rfl⟩ := above
    have front : q <+: record.1.toBytes env ++ record.2 := (List.prefix_append_right_inj _).1 sub
    exact h.buffered content bodies atEnd long b (more front) nofun

/-- `append_chunk`. -/
theorem safe_appendChunk_left (content : Content R) (counted : Counted faulty)
    (bodies : Bodies R s.fs) (h : Writes R exact side staging s) (c : ChunkId) (data : Bytes)
    (grows : ∀ nonce, Grows R (chunkRecordBytes env c data nonce)) :
    Safe (segMachine faulty fails) (fun r t => Left R (exact ∧ r = .ok ()) side staging s t)
      (fun t => Bodies R t.fs) (SegmentWriter.appendChunk env side c data) s := by
  have append (nonce : Nonce) : Safe (segMachine faulty fails)
      (fun r t => Left R (exact ∧ r = .ok ()) side staging s t) (fun t => Bodies R t.fs) (do
        let w ← SegmentWriter.get side
        Prog.when (w.currentOffset + (recordHeaderSizeV3 + (chunkRecord env c data nonce).2.length) >
          w.maxSegmentSize) (SegmentWriter.rotate side)
        SegmentWriter.writeRecord env side c data (chunkRecord env c data nonce)) s := by
    rw [safe_bind, safe_get, thenSafe_ok]
    apply Safe.bind (P := fun _ t => Left R exact side staging s t)
    · apply safe_when
      · intro _
        exact safe_rotate_left content counted bodies h
      · intro _
        exact ⟨bodies, h, .refl side staging s⟩
    · intro _ t left
      apply (safe_writeRecord_left content counted left.bodies left.writes c data _
        (grows nonce)).mono
      · exact fun r u written => left.trans written
      · exact fun _ kept => kept
    · intro e t left
      exact ⟨left.bodies, left.writes.le And.left, left.apart⟩
  rw [SegmentWriter.appendChunk, SegmentWriter.freshNonce, safe_bind]
  split
  · apply Proc.safe_ask.2
    intro nonce _
    exact append nonce
  · exact append _

end Appending

/-! ## The store -/

section Store

variable {s : SegState}

/-- The store's writer where it goes on. -/
theorem safe_open_resumes (content : Content R) (counted : Counted faulty) (bodies : Bodies R s.fs)
    {found : Nat × Nat} (resumes : Resumes s.fs found) (maxSegmentSize : Nat) :
    Safe (segMachine faulty fails)
      (fun r t => Bodies R t.fs ∧ (r = .ok () → Writes R True .own none t) ∧
        ∀ e, r = .error e → e.IsIo) (fun t => Bodies R t.fs) (do
        let writer ← SegmentWriter.open none found.1 found.2 maxSegmentSize
        SegmentWriter.set .own writer) s := by
  rcases resumes with ⟨rfl, absent⟩ | ⟨f, there, length, long, later⟩
  · have empty (id : Nat) (f : File) (hf : s.fs.file (.segment none id) = some f) : False := by
      rw [show s.fs.file (.segment none id) = none from absent id] at hf
      cases hf
    apply Safe.bind ((safe_open_begin counted none (fun f hf => (empty 1 f hf).elim)
      maxSegmentSize).mono (fun _ _ post => post) fun u begins => begins.bodies content bodies)
    · intro w u ⟨_, begins, started, _⟩
      obtain ⟨begun, f, atEnd, length⟩ := started w rfl
      rw [safe_set]
      exact ⟨begins.bodies content bodies, fun _ =>
        .begun content begins begun atEnd length (fun i g _ hg => (empty i g hg).elim) True, nofun⟩
    · intro e u ⟨_, begins, _, io⟩
      exact ⟨begins.bodies content bodies, nofun, fun e h => io e (by cases h; rfl)⟩
  · have same {u : SegState} (files : ∀ p, u.fs.file p = s.fs.file p) : Bodies R u.fs :=
      fun p g hp hg => bodies p g hp (by rw [← files, hg])
    rw [length]
    apply Safe.bind ((safe_open_end none there long maxSegmentSize).mono (fun _ _ post => post)
      fun u files => same files)
    · intro w u ⟨_, files, started, _⟩
      obtain ⟨⟨m, rfl⟩, atEnd⟩ := started w rfl
      rw [safe_set]
      have writer : (u.mem.setWriter .own (SegmentWriter.mk none found.1 true [] f.data.length m)).writer
          .own = SegmentWriter.mk none found.1 true [] f.data.length m := by
        rw [setWriter_writer, if_pos rfl]
      refine ⟨same files, fun _ => ⟨by rw [Proc.withMem_mem, writer], by rw [Proc.withMem_mem, writer],
        ⟨f, ?_, long, ?_, fun _ => ?_⟩, fun i g above hg => ?_⟩, nofun⟩
      · rw [Proc.withMem_mem, writer]
        exact atEnd
      · rw [Proc.withMem_mem, writer, List.append_nil]
        exact (bodies (.active found.1) f nofun there).1
      · rw [Proc.withMem_mem, writer]
        rfl
      · rw [Proc.withMem_mem, writer] at above
        rw [Proc.withMem_fs, files] at hg
        exact later i g above hg
    · intro e u ⟨_, files, _, io⟩
      exact ⟨same files, nofun, fun e h => io e (by cases h; rfl)⟩

/-- `with_max_segment_size_and_vault`. -/
theorem safe_openStore_body (content : Content R) (reliable : Reliable faulty)
    (bodies : Bodies R s.fs) (maxSegmentSize : Nat) :
    Safe (segMachine faulty fails)
      (fun r t => Bodies R t.fs ∧ (r = .ok () → Writes R True .own none t)) (fun t => Bodies R t.fs)
      (openStore env maxSegmentSize) s := by
  rw [openStore, safe_bind, Proc.safe_load, thenSafe_ok, safe_bind, Proc.safe_save, thenSafe_ok]
  have bodies' : Bodies R (s.withMem (s.mem.setIndex .own ∅)).fs := bodies
  apply Safe.bind (safe_recoverAndIndex_body content reliable bodies')
  · intro found t ⟨kept, resumes⟩
    apply (safe_open_resumes content reliable.counted kept (resumes found rfl) maxSegmentSize).mono
    · exact fun r u h => ⟨h.1, h.2.1⟩
    · exact fun _ h => h
  · exact fun _ _ h => ⟨h.1, nofun⟩

/-- A store whose writer appends to its newest segment, and whose files are of one kind. -/
def Running (R : Bytes → Prop) (s : SegState) : Prop := Bodies R s.fs ∧ Writes R False .own none s

/-- `put_chunk`. -/
theorem upholds_putChunk (content : Content R) (reliable : Reliable faulty) (data : Bytes)
    (grows : ∀ nonce, Grows R (chunkRecordBytes env (ChunkId.fromData env data) data nonce)) :
    Upholds (segMachine faulty fails) (Running R) (fun t => Bodies R t.fs) (putChunk env data) := by
  intro s ⟨bodies, writes⟩
  rw [putChunk, safe_bind, Proc.safe_load, thenSafe_ok]
  split
  · exact ⟨bodies, writes⟩
  · apply Safe.bind (safe_appendChunk_left content reliable.counted bodies writes _ data grows)
    · exact fun _ t left => ⟨left.bodies, left.writes.le False.elim⟩
    · exact fun e t left => ⟨left.bodies, left.writes.le False.elim⟩

/-- `sync`. -/
theorem upholds_sync (content : Content R) (reliable : Reliable faulty) :
    Upholds (segMachine faulty fails) (Running R) (fun t => Bodies R t.fs) SegmentStore.sync := by
  intro s ⟨bodies, writes⟩
  apply (safe_sync_left content reliable.counted bodies writes).mono
  · exact fun _ t left => ⟨left.1.bodies, left.1.writes⟩
  · exact fun _ kept => kept

end Store

end OosLite
