import OosLite.Segment.Proofs.Recovery

/-!
# Buffered writing

What is appended to a segment through the buffer of its writer: some of it is in the file and the
rest in the buffer, whatever fails.
-/

namespace OosLite

open Files Effect SegmentStore

variable {faulty : FsOp SegPath → Prop} {fails : Prop} {C : SegState → Prop}

theorem safe_get {side : Side} {s : SegState} {Q : Result SegmentWriter → SegState → Prop} :
    Safe (segMachine faulty fails) Q C (SegmentWriter.get side) s ↔
      Q (.ok (s.mem.writer side)) s := by
  rw [SegmentWriter.get, safe_bind, Proc.safe_load, thenSafe_ok, safe_pure]

theorem safe_set {side : Side} {w : SegmentWriter} {s : SegState}
    {Q : Result Unit → SegState → Prop} :
    Safe (segMachine faulty fails) Q C (SegmentWriter.set side w) s ↔
      Q (.ok ()) (s.withMem (s.mem.setWriter side w)) := by
  rw [SegmentWriter.set, safe_bind, Proc.safe_load, thenSafe_ok, Proc.safe_save]

/-- Of the segments no write fails but those that `writeSome` counts. -/
def Counted (faulty : FsOp SegPath → Prop) : Prop :=
  ∀ p new, p ≠ SegPath.marker → ¬ faulty (.write p new)

theorem counted_of_tidy (tidy : ∀ o, faulty o → Cleanup o) : Counted faulty := by
  intro p new _ h
  simpa [Cleanup] using tidy _ h

theorem SegPath.segment_ne_marker (staging : Option Nat) (id : Nat) :
    SegPath.segment staging id ≠ .marker := by
  cases staging <;> simp [SegPath.segment]

theorem SegPath.segment_inj (staging : Option Nat) {i j : Nat}
    (h : SegPath.segment staging i = SegPath.segment staging j) : i = j := by
  cases staging <;> simpa [SegPath.segment] using h

/-! ## Writing at the end of a file -/

/-- A file whose handle is at its end. -/
def AtEnd (path : SegPath) (fs : Fs SegPath) (f : File) : Prop :=
  fs.file path = some f ∧ fs.cursor path = f.data.length

/-- A file that has grown. -/
structure Extends (path : SegPath) (fs : Fs SegPath) (f : File) (new : Bytes) (fs' : Fs SegPath) :
    Prop where
  others : ∀ p, p ≠ path → fs'.file p = fs.file p ∧ fs'.cursor p = fs.cursor p
  atEnd : AtEnd path fs' ⟨f.durable, f.data ++ new⟩

theorem AtEnd.refl {path : SegPath} {fs : Fs SegPath} {f : File} (h : AtEnd path fs f) :
    Extends path fs f [] fs :=
  ⟨fun _ _ => ⟨rfl, rfl⟩, by simpa using h⟩

theorem Extends.wrote {path : SegPath} {fs fs' : Fs SegPath} {f : File} {new : Bytes}
    (h : Extends path fs f new fs') (more : Bytes) :
    Extends path fs f (new ++ more) (fs'.wrote path ⟨f.durable, f.data ++ new⟩ more) where
  others p hp := by
    rw [Fs.file_wrote, if_neg (Ne.symm hp), Fs.cursor_wrote, if_neg hp]
    exact h.others p hp
  atEnd := by
    refine ⟨?_, ?_⟩
    · rw [Fs.file_wrote, if_pos rfl, Bytes.writeAt_end' h.atEnd.2, List.append_assoc]
    · rw [Fs.cursor_wrote, if_pos rfl, h.atEnd.2]
      simp [Nat.add_assoc]

/-- What a write to the end of a file leaves: all of it, or a part if it fails. -/
theorem safe_writeSome (counted : Counted faulty) {path : SegPath} (segment : path ≠ .marker)
    {bytes : Bytes} {s : SegState} {Q : Result Nat → SegState → Prop} {f : File} (hf : s.fs.file path = some f)
    (cut : ∀ part, part <+: bytes → C (s.withFs (s.fs.wrote path f part)))
    (done : ∀ count, count = bytes.length ∨ fails ∧ count < bytes.length →
      Q (.ok count) (s.withFs (s.fs.wrote path f (bytes.take count)))) :
    Safe (segMachine faulty fails) Q C (SegmentWriter.writeSome path bytes) s := by
  rw [SegmentWriter.writeSome, safe_bind]
  refine Proc.safe_ask.2 fun count all => ?_
  rw [thenSafe_ok, safe_bind]
  refine Proc.safe_write hf (fun n _ => ?_) (done count all)
    fun h => absurd h (counted _ _ segment)
  have part := List.take_prefix n (bytes.take count)
  exact cut _ (part.trans <| List.take_prefix count bytes)

theorem safe_writeAll (counted : Counted faulty) {path : SegPath} (segment : path ≠ .marker)
    {bytes : Bytes} {s : SegState} {Q : Result Unit → SegState → Prop} {f : File} (hf : s.fs.file path = some f)
    (cut : ∀ part, part <+: bytes → C (s.withFs (s.fs.wrote path f part)))
    (done : Q (.ok ()) (s.withFs (s.fs.wrote path f bytes)))
    (fail : fails → ∀ count < bytes.length,
      Q (.error SegmentWriter.writeError) (s.withFs (s.fs.wrote path f (bytes.take count)))) :
    Safe (segMachine faulty fails) Q C (SegmentWriter.writeAll path bytes) s := by
  rw [SegmentWriter.writeAll, safe_bind]
  refine safe_writeSome counted segment hf cut ?_
  rintro count (rfl | ⟨failing, short⟩)
  · rw [thenSafe_ok, Prog.when, if_neg (Nat.lt_irrefl _), List.take_length]
    exact done
  · rw [thenSafe_ok, Prog.when, if_pos short]
    exact fail failing count short

/-! ## The buffer -/

/-- `new` has gone to a writer since `s`: the front of it is in the file and the rest in the
buffer. -/
structure Buffered (side : Side) (s : SegState) (f : File) (new written rest : Bytes)
    (t : SegState) : Prop where
  split : new = written ++ rest
  file : Extends (s.mem.writer side).path s.fs f written t.fs
  mem : t.mem = s.mem.setWriter side { s.mem.writer side with buffer := rest }

/-- What a failed write leaves: a part of the bytes has gone to the writer. -/
def PartlyBuffered (side : Side) (s : SegState) (f : File) (old new : Bytes) (t : SegState) : Prop :=
  ∃ part written rest, old <+: part ∧ part <+: new ∧ Buffered side s f part written rest t

section Buffer

variable {side : Side} {s t : SegState} {f : File} {new written rest bytes : Bytes}

theorem Buffered.writer (h : Buffered side s f new written rest t) :
    t.mem.writer side = { s.mem.writer side with buffer := rest } := by
  rw [h.mem, setWriter_writer, if_pos rfl]

theorem Buffered.path (h : Buffered side s f new written rest t) :
    (t.mem.writer side).path = (s.mem.writer side).path := by
  rw [h.writer]
  rfl

/-- Some of the buffer has been written. -/
theorem Buffered.drain (h : Buffered side s f new written rest t) (count : Nat) :
    Buffered side s f new (written ++ rest.take count) (rest.drop count)
      ((t.withFs (t.fs.wrote (s.mem.writer side).path ⟨f.durable, f.data ++ written⟩
        (rest.take count))).withMem (t.mem.setWriter side
          { t.mem.writer side with buffer := rest.drop count })) where
  split := by rw [List.append_assoc, List.take_append_drop, h.split]
  file := h.file.wrote _
  mem := by
    rw [h.writer]
    simp [h.mem]

/-- An empty buffer is flushed by doing nothing. -/
theorem safe_flush_empty {Q : Result Unit → SegState → Prop}
    (empty : (s.mem.writer side).buffer = []) (done : Q (.ok ()) s) :
    Safe (segMachine faulty fails) Q C (SegmentWriter.flush side) s := by
  rw [SegmentWriter.flush, safe_bind, safe_get, thenSafe_ok]
  exact safe_when (fun some => absurd empty some) fun _ => done

/-- Closing a file whose buffer is empty syncs it. -/
theorem safe_closeFile {Q : Result Unit → SegState → Prop} (isOpen : (s.mem.writer side).isOpen = true)
    (empty : (s.mem.writer side).buffer = [])
    (sync : Safe (segMachine faulty fails) Q C (Proc.sync (s.mem.writer side).path)
      (s.withMem (s.mem.setWriter side { s.mem.writer side with isOpen := false }))) :
    Safe (segMachine faulty fails) Q C (SegmentWriter.closeFile side) s := by
  rw [SegmentWriter.closeFile, safe_bind, safe_get, thenSafe_ok, safe_bind, safe_set, thenSafe_ok]
  refine safe_when (fun _ => ?_) fun closed => absurd isOpen closed
  rw [safe_bind, safe_handle]
  refine safe_flush_empty (by simpa using empty) ?_
  exact (thenSafe_ok ..).2 sync

theorem safe_flush (counted : Counted faulty) (h : Buffered side s f new written rest t)
    (cut : ∀ (u : SegState) part, part <+: new →
      Extends (s.mem.writer side).path s.fs f part u.fs → C u) :
    Safe (segMachine faulty fails)
      (fun r u => (r = .ok () ∧ Buffered side s f new new [] u) ∨
        fails ∧ r = .error SegmentWriter.writeError ∧ ∃ written' rest',
          Buffered side s f new written' rest' u)
      C (SegmentWriter.flush side) t := by
  rw [SegmentWriter.flush, safe_bind, safe_get, thenSafe_ok, h.writer]
  refine safe_when (fun some => ?_) fun empty => ?_
  swap
  · have none : rest = [] := not_not.1 empty
    refine .inl ⟨rfl, ?_⟩
    have all : new = written := by rw [h.split, none, List.append_nil]
    rw [none, ← all] at h
    exact h
  rw [safe_bind]
  refine safe_writeSome counted (SegPath.segment_ne_marker _ _) h.file.atEnd.1 (fun part sub => ?_) fun count enough => ?_
  · refine cut _ (written ++ part) ?_ (h.file.wrote part)
    rw [h.split]
    exact (List.prefix_append_right_inj written).2 sub
  · have drained := h.drain count
    rw [h.writer] at drained
    rw [thenSafe_ok, safe_bind, safe_set, thenSafe_ok]
    rcases enough with rfl | ⟨failing, short⟩
    · rw [Prog.when, if_neg (Nat.lt_irrefl _)]
      have done (u : SegState) (hu : Buffered side s f new (written ++ rest.take rest.length)
          (rest.drop rest.length) u) : Buffered side s f new new [] u := by
        rwa [List.take_length, List.drop_length, ← h.split] at hu
      exact .inl ⟨rfl, done _ drained⟩
    · rw [Prog.when, if_pos short]
      exact .inr ⟨failing, rfl, _, _, drained⟩

theorem safe_push (counted : Counted faulty) (h : Buffered side s f new written rest t)
    (room : bytes.length ≥ SegmentWriter.bufferCapacity → rest = [])
    (cut : ∀ (u : SegState) part, part <+: new ++ bytes →
      Extends (s.mem.writer side).path s.fs f part u.fs → C u) :
    Safe (segMachine faulty fails)
      (fun r u => (r = .ok () ∧ ∃ written' rest',
          Buffered side s f (new ++ bytes) written' rest' u) ∨
        fails ∧ r = .error SegmentWriter.writeError ∧ PartlyBuffered side s f new (new ++ bytes) u)
      C (SegmentWriter.push side bytes) t := by
  rw [SegmentWriter.push, safe_bind, safe_get, thenSafe_ok, h.writer]
  split
  · rename_i large
    obtain rfl := room large
    obtain rfl : new = written := by rw [h.split, List.append_nil]
    have direct (part : Bytes) : Buffered side s f (new ++ part) (new ++ part) []
        (t.withFs (t.fs.wrote (s.mem.writer side).path ⟨f.durable, f.data ++ new⟩ part)) :=
      ⟨(List.append_nil _).symm, h.file.wrote part, h.mem⟩
    refine safe_writeAll counted (SegPath.segment_ne_marker _ _) h.file.atEnd.1 (fun part sub => ?_) ?_ fun failing count _ => ?_
    · exact cut _ (new ++ part) ((List.prefix_append_right_inj new).2 sub) (h.file.wrote part)
    · exact .inl ⟨rfl, _, _, direct bytes⟩
    · exact .inr ⟨failing, rfl, _, _, _, List.prefix_append _ _,
        (List.prefix_append_right_inj new).2 <| List.take_prefix count _, direct _⟩
  · rw [safe_set]
    refine .inl ⟨rfl, written, rest ++ bytes, ?_, h.file, ?_⟩
    · rw [h.split, List.append_assoc]
    · simp [h.mem]

/-- More bytes for a writer. -/
theorem safe_bufferedWrite (counted : Counted faulty)
    (h : Buffered side s f new written rest t)
    (cut : ∀ (u : SegState) part, part <+: new ++ bytes →
      Extends (s.mem.writer side).path s.fs f part u.fs → C u) :
    Safe (segMachine faulty fails)
      (fun r u => (r = .ok () ∧ ∃ written' rest',
          Buffered side s f (new ++ bytes) written' rest' u) ∨
        fails ∧ r = .error SegmentWriter.writeError ∧ PartlyBuffered side s f new (new ++ bytes) u)
      C (SegmentWriter.bufferedWrite side bytes) t := by
  rw [SegmentWriter.bufferedWrite, safe_bind, safe_get, thenSafe_ok, h.writer]
  refine Safe.bind (P := fun r u => (r = .ok () ∧ ∃ written' rest',
      Buffered side s f new written' rest' u ∧
        (bytes.length ≥ SegmentWriter.bufferCapacity → rest' = [])) ∨
    fails ∧ r = .error SegmentWriter.writeError ∧ PartlyBuffered side s f new (new ++ bytes) u)
    ?_ ?_ ?_
  · refine safe_when (fun _ => ?_) fun fits => ?_
    · refine (safe_flush counted h fun u part sub => cut u part
        (sub.trans (List.prefix_append _ _))).mono ?_ fun _ hc => hc
      rintro r u (⟨rfl, flushed⟩ | ⟨failing, rfl, written', rest', still⟩)
      · exact .inl ⟨rfl, _, _, flushed, fun _ => rfl⟩
      · exact .inr ⟨failing, rfl, _, _, _, List.prefix_rfl, List.prefix_append _ _, still⟩
    · refine .inl ⟨rfl, written, rest, h, fun large => ?_⟩
      rw [← List.length_eq_zero_iff]
      simp only [SegmentWriter.bufferCapacity] at fits large
      omega
  · rintro ⟨⟩ u (⟨-, written', rest', buffered, room⟩ | ⟨_, ok, -⟩)
    · exact safe_push counted buffered room cut
    · cases ok
  · rintro e u (⟨ok, -⟩ | failed)
    · cases ok
    · exact .inr failed

/-- A writer at the end of its file, with what is in its buffer. -/
theorem Buffered.start (atEnd : AtEnd (s.mem.writer side).path s.fs f) :
    Buffered side s f (s.mem.writer side).buffer [] (s.mem.writer side).buffer s where
  split := rfl
  file := atEnd.refl
  mem := (setWriter_self s.mem side).symm

/-- A record goes behind what is in the file and the buffer: all of it, or a part. -/
theorem safe_writeOut_behind {env : Env} (counted : Counted faulty)
    (atEnd : AtEnd (s.mem.writer side).path s.fs f) (record : RecordHeader × Bytes)
    (cut : ∀ (u : SegState) part,
      part <+: (s.mem.writer side).buffer ++ (record.1.toBytes env ++ record.2) →
      Extends (s.mem.writer side).path s.fs f part u.fs → C u) :
    Safe (segMachine faulty fails)
      (fun r u => (r = .ok () ∧ Buffered side s f
          ((s.mem.writer side).buffer ++ (record.1.toBytes env ++ record.2))
          ((s.mem.writer side).buffer ++ (record.1.toBytes env ++ record.2)) [] u) ∨
        fails ∧ r = .error SegmentWriter.writeError ∧ PartlyBuffered side s f
          (s.mem.writer side).buffer
          ((s.mem.writer side).buffer ++ (record.1.toBytes env ++ record.2)) u)
      C (SegmentWriter.writeOut env side record) s := by
  have start := Buffered.start atEnd
  generalize (s.mem.writer side).buffer = old at start cut ⊢
  have shorter : old ++ record.1.toBytes env <+: old ++ (record.1.toBytes env ++ record.2) :=
    (List.prefix_append_right_inj old).2 (List.prefix_append _ _)
  rw [SegmentWriter.writeOut]
  refine Safe.bind (safe_bufferedWrite counted start fun u part sub =>
    cut u part (sub.trans shorter)) ?_ ?_
  · rintro ⟨⟩ u (⟨-, written, rest, header⟩ | ⟨_, ok, -⟩)
    swap
    · cases ok
    refine Safe.bind (safe_bufferedWrite counted header fun u part sub =>
      cut u part (by rwa [List.append_assoc] at sub)) ?_ ?_
    · rintro ⟨⟩ v (⟨-, written', rest', whole⟩ | ⟨_, ok, -⟩)
      swap
      · cases ok
      rw [List.append_assoc] at whole
      refine (safe_flush counted whole cut).mono ?_ fun _ hc => hc
      rintro r w (⟨rfl, flushed⟩ | ⟨failing, rfl, written'', rest'', still⟩)
      · exact .inl ⟨rfl, flushed⟩
      · exact .inr ⟨failing, rfl, _, _, _, List.prefix_append _ _, List.prefix_rfl, still⟩
    · rintro e v (⟨ok, -⟩ | ⟨failing, error, part, written', rest', above, sub, still⟩)
      · cases ok
      · rw [List.append_assoc] at sub
        exact .inr ⟨failing, error, part, written', rest', (List.prefix_append _ _).trans above, sub,
          still⟩
  · rintro e u (⟨ok, -⟩ | ⟨failing, error, part, written', rest', above, sub, still⟩)
    · cases ok
    · exact .inr ⟨failing, error, part, written', rest', above, sub.trans shorter, still⟩

/-- A record goes to the end of the file. -/
theorem safe_writeOut {env : Env} (counted : Counted faulty)
    (empty : (s.mem.writer side).buffer = []) (atEnd : AtEnd (s.mem.writer side).path s.fs f)
    (record : RecordHeader × Bytes)
    (cut : ∀ (u : SegState) part, part <+: record.1.toBytes env ++ record.2 →
      Extends (s.mem.writer side).path s.fs f part u.fs → C u) :
    Safe (segMachine faulty fails)
      (fun r u => (r = .ok () ∧ u.mem = s.mem ∧ Extends (s.mem.writer side).path s.fs f
          (record.1.toBytes env ++ record.2) u.fs) ∨
        fails ∧ r = .error SegmentWriter.writeError ∧
          PartlyBuffered side s f [] (record.1.toBytes env ++ record.2) u)
      C (SegmentWriter.writeOut env side record) s := by
  have behind := @safe_writeOut_behind _ fails C side s f env counted atEnd record
  rw [empty] at behind
  refine (behind cut).mono ?_ fun _ hc => hc
  rintro r u (⟨rfl, flushed⟩ | failed)
  · refine .inl ⟨rfl, ?_, flushed.file⟩
    rw [flushed.mem, ← empty]
    exact setWriter_self s.mem side
  · exact .inr failed

end Buffer

end OosLite
