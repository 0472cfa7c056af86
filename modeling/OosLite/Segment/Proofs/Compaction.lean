import OosLite.Segment.Proofs.Writing

/-!
# Compaction

The retained chunks in new segments, the swap of the old segments for the new ones, and the
end of it: what each phase leaves and what a crash in it leaves.
-/

namespace OosLite

open Files Effect SegmentStore

variable {env : Env} {faulty : FsOp SegPath → Prop} {C : SegState → Prop}

/-! ## The new segments -/

/-- The new segments hold exactly the reachable chunks of the old ones. -/
structure Retains (reachable : ChunkId → Bool) (L N : Layout env) : Prop where
  only : ∀ r ∈ N.records, ∃ c d, reachable c = true ∧ L.Reads c d ∧ r ∈ recordsOf env c d
  all : ∀ c, reachable c = true → L.Has c → ∃ d, L.Reads c d ∧ ∃ r ∈ N.records,
    r ∈ recordsOf env c d

theorem Layout.Reads.fromData {L : Layout env} {c : ChunkId} {d : Bytes} (h : L.Reads c d) :
    ChunkId.fromData env d = c := by
  obtain ⟨_, _, -, -, ok⟩ := h
  exact fromData_of_readRecord ok

theorem Layout.Reads.unique {L : Layout env} {c : ChunkId} {d d' : Bytes} (h : L.Reads c d)
    (h' : L.Reads c d') : d = d' := by
  obtain ⟨loc, seg, latest, hseg, ok⟩ := h
  obtain ⟨loc', seg', latest', hseg', ok'⟩ := h'
  obtain rfl := latest.unique latest'
  obtain rfl := Option.some.inj (hseg.symm.trans hseg')
  exact Except.ok.inj (ok.symm.trans ok')

theorem chunkId_of_mem {c : ChunkId} {d : Bytes} {r : Bytes × RecordHeader}
    (h : r ∈ recordsOf env c d) : r.2.chunkId = c := by
  obtain ⟨nonce, rfl⟩ := h
  exact chunkRecord_chunkId c d nonce

/-- What the loop over the retained chunks has copied. -/
structure Copied (L N : Layout env) (done : List (ChunkId × ChunkLocation)) : Prop where
  only : ∀ r ∈ N.records, ∃ e ∈ done, ∃ d, L.Reads e.1 d ∧ r ∈ recordsOf env e.1 d
  all : ∀ e ∈ done, ∃ d, L.Reads e.1 d ∧ ∃ r ∈ N.records, r ∈ recordsOf env e.1 d

/-- Reading one chunk and appending it to the new segments. -/
theorem safe_retain (tidy : ∀ o, faulty o → Cleanup o) {s : SegState} {dir : Nat}
    {N : Layout env} {n k : Nat} (h : Attached .new (some dir) s N n k) {L : Layout env}
    {done : List (ChunkId × ChunkLocation)} (copied : Copied L N done)
    {e : ChunkId × ChunkLocation} {seg : Segment env} {f : File} (latest : Latest L.entries e.1 e.2)
    (hseg : L e.2.segmentId = some seg) (hf : s.fs.file (.active e.2.segmentId) = some f)
    (content : f.data = seg.bytes) (fits : ∀ d, L.Reads e.1 d → Fits env d)
    (safe : ∀ t : SegState, SameOutside (some dir) s.fs t.fs → C t) :
    Safe (segMachine faulty)
      (fun r t => SameOutside (some dir) s.fs t.fs ∧ t.mem.writer .own = s.mem.writer .own ∧
        t.mem.index .own = s.mem.index .own ∧ match r with
        | .ok () => ∃ N' n' k', Attached .new (some dir) t N' n' k' ∧ Copied L N' (done ++ [e])
        | .error _ => ∀ d, ¬ L.Reads e.1 d) C (retain env e) s := by
  rw [retain]
  refine Safe.bind (safe_readChunk tidy hf content e.1) ?_ ?_
  · rintro d t ⟨rfl, ok⟩
    have reads : L.Reads e.1 d := ⟨e.2, seg, latest, hseg, ok.symm⟩
    refine (safe_appendChunk tidy h e.1 (fits d reads) fun t grown => safe t grown.1).mono ?_
      fun _ hc => hc
    rintro r t ⟨rfl, ⟨N', n', k', record, hrecord, attached, new, -⟩, outside, mem⟩
    refine ⟨outside, (mem .own (by simp)).1, (mem .own (by simp)).2, N', n', k', attached, ?_, ?_⟩
    · intro r hr
      rw [new] at hr
      rcases hr with rfl | hr
      · exact ⟨e, by simp, d, reads, hrecord⟩
      · obtain ⟨e', he', rest⟩ := copied.only r hr
        exact ⟨e', List.mem_append_left _ he', rest⟩
    · intro e' he'
      rw [new]
      rcases List.mem_append.1 he' with he' | he'
      · obtain ⟨d', reads', r, hr, there⟩ := copied.all e' he'
        exact ⟨d', reads', r, .inr hr, there⟩
      · rw [List.mem_singleton.1 he']
        exact ⟨d, reads, record, .inl rfl, hrecord⟩
  · rintro err t ⟨rfl, failed⟩
    refine ⟨fun _ _ => rfl, rfl, rfl, fun d reads => ?_⟩
    obtain ⟨loc', seg', latest', hseg', ok⟩ := reads
    obtain rfl := latest.unique latest'
    obtain rfl := Option.some.inj (hseg.symm.trans hseg')
    rw [ok] at failed
    cases failed

/-- What staging leaves: the reachable chunks in new segments that are on the medium, or an
unreadable one among them. -/
def StagePost (reachable : ChunkId → Bool) (dir : Nat) (s : SegState) (L : Layout env)
    (r : Result SegmentWriter) (t : SegState) : Prop :=
  SameStore s.fs t.fs ∧ t.mem.writer .own = s.mem.writer .own ∧
    t.mem.index .own = s.mem.index .own ∧ match r with
    | .ok w => ∃ (N : Layout env) (n m : Nat) (seg : Segment env),
        Exactly (.segment (some dir)) t.fs N ∧ (∀ id, n < id → N id = none) ∧
        IndexOf N.entries (t.mem.index .new) ∧ N n = some seg ∧
        w = { staging := some dir, currentSegmentId := n, isOpen := true, buffer := []
              currentOffset := seg.bytes.length, maxSegmentSize := m } ∧ Retains reachable L N
    | .error _ => ∃ c, reachable c = true ∧ L.Has c ∧ ∀ d, ¬ L.Reads c d

theorem SameOutside.sameStore {dir : Nat} {fs fs' : Fs SegPath}
    (h : SameOutside (some dir) fs fs') : SameStore fs fs' := by
  intro p hp
  refine h p fun id same => ?_
  subst same
  cases hp

theorem safe_stage (tidy : ∀ o, faulty o → Cleanup o) {s : SegState} {L : Layout env} {n k : Nat}
    (h : Attached .own none s L n k) {reachable : ChunkId → Bool}
    (fits : ∀ c d, reachable c = true → L.Reads c d → Fits env d) (dir maxSegmentSize : Nat)
    (safe : ∀ t : SegState, SameStore s.fs t.fs → C t) :
    Safe (segMachine faulty) (StagePost reachable dir s L) C
      (stage env reachable dir maxSegmentSize) s := by
  have staged (p : SegPath) (hp : p.isStagedIn dir = true) : p.isStaging = true := by
    obtain ⟨id, rfl⟩ := (selects_staged dir p).1 hp
    rfl
  rw [stage, safe_bind, Proc.safe_ignore]
  refine Proc.safe_removeAll (fun gone sub => ?_) ?_ fun h => absurd (tidy _ h) (by simp [Cleanup])
  · exact safe _ (.dropAll (fun p hp => staged p (sub p hp)) s.fs)
  obtain ⟨s₁, hs₁⟩ : ∃ s₁, s₁ = s.withFs (s.fs.dropAll (SegPath.isStagedIn dir)) := ⟨_, rfl⟩
  have same₁ : SameStore s.fs s₁.fs := hs₁ ▸ .dropAll staged s.fs
  have absent (id : Nat) : s₁.fs.file (.staging dir id) = none := by
    rw [hs₁]
    simp [SegPath.isStagedIn]
  rw [← hs₁, thenSafe_ok, safe_bind, Proc.safe_load, thenSafe_ok, safe_bind, Proc.safe_save,
    thenSafe_ok]
  obtain ⟨s₂, hs₂⟩ : ∃ s₂, s₂ = s₁.withMem (s₁.mem.setIndex .new ∅) := ⟨_, rfl⟩
  have fs₂ : s₂.fs = s₁.fs := hs₂ ▸ rfl
  rw [← hs₂]
  refine Safe.bind (safe_open_new tidy (some dir) (by rw [fs₂]; exact absent 1)
    (fun t creating => ?_) maxSegmentSize) ?_ ?_
  · refine safe t (same₁.trans fun p hp => ?_)
    rw [← fs₂]
    refine creating.1 p fun same => ?_
    subst same
    cases hp
  swap
  · rintro e t ⟨_, _, ok, -⟩
    cases ok
  rintro w t₀ ⟨header, m, ok, mem₀, others₀, file₀, cursor₀⟩
  cases ok
  rw [safe_bind, safe_set, thenSafe_ok]
  obtain ⟨t, ht⟩ : ∃ t, t = t₀.withMem (t₀.mem.setWriter .new
    ⟨some dir, 1, true, [], segmentHeaderSize, m⟩) := ⟨_, rfl⟩
  rw [← ht]
  have others : SameOutside (some dir) s₁.fs t.fs := fun p hp => by
    rw [ht, Proc.withMem_fs, (others₀ p (hp 1)).1, fs₂]
  have writer : t.mem.writer .own = s.mem.writer .own := by
    rw [ht, Proc.withMem_mem, setWriter_writer, if_neg (by simp), mem₀, hs₂, hs₁]
    rfl
  have index : t.mem.index .own = s.mem.index .own := by
    rw [ht, Proc.withMem_mem, setWriter_index, mem₀, hs₂, Proc.withMem_mem, setIndex_index,
      if_neg (by simp), hs₁]
    rfl
  -- the first of the new segments, still without a record
  have attached : Attached .new (some dir) t (Layout.empty.put 1 (.created env header)) 1 0 := by
    refine ⟨OnDisk.created (some dir) (f := ⟨header.toBytes, header.toBytes⟩) (fun id => absent id)
      (fun _ _ => rfl) (fun p hp => ?_) ?_ List.prefix_rfl List.prefix_rfl, ?_, ?_⟩
    · rw [ht, Proc.withMem_fs, (others₀ p hp).1, fs₂]
    · rw [ht]
      exact file₀
    · rw [Layout.entries_put_created header rfl, Layout.entries_empty, ht, Proc.withMem_mem,
        setWriter_index, mem₀, hs₂, Proc.withMem_mem, setIndex_index, if_pos rfl]
      exact .empty
    · refine ⟨_, _, m, Layout.put_self .., by rw [ht]; exact file₀, by simp, ?_, ?_⟩
      · rw [ht]
        simpa using cursor₀
      · rw [ht]
        simp [segmentHeaderSize]
  rw [safe_bind, entries]
  refine Proc.safe_ask.2 fun es perm => ?_
  have mem_es (e : ChunkId × ChunkLocation) :
      e ∈ es.filter (fun e => reachable e.1) ↔
        (s.mem.index .own)[e.1]? = some e.2 ∧ reachable e.1 = true := by
    have same : s₁.mem.index .own = s.mem.index .own := by rw [hs₁]; rfl
    rw [List.mem_filter, perm.mem_iff, same, Std.ExtTreeMap.mem_toList_iff_getElem?_eq_some]
  rw [thenSafe_ok]
  refine Safe.bind (P := fun r u => SameOutside (some dir) s₁.fs u.fs ∧
    u.mem.writer .own = s.mem.writer .own ∧ u.mem.index .own = s.mem.index .own ∧ match r with
      | .ok () => ∃ N n' k', Attached .new (some dir) u N n' k' ∧
          Copied L N (es.filter fun e => reachable e.1)
      | .error _ => ∃ c, reachable c = true ∧ L.Has c ∧ ∀ d, ¬ L.Reads c d) ?_ ?_ ?_
  · refine safe_forEach (fun before _ _ u => SameOutside (some dir) s₁.fs u.fs ∧
      u.mem.writer .own = s.mem.writer .own ∧ u.mem.index .own = s.mem.index .own ∧
      ∃ N n' k', Attached .new (some dir) u N n' k' ∧ Copied L N before) ?_ ?_ ?_
    · refine ⟨others, writer, index, _, 1, 0, attached, ?_, ?_⟩
      · intro r hr
        rw [Layout.records_put_created header rfl, Layout.records_empty] at hr
        exact hr.elim
      · exact fun e he => by cases he
    · rintro before e rest - u split ⟨outside, writer, index, N, n', k', attached, copied⟩
      obtain ⟨found, reached⟩ := (mem_es e).1 (by rw [← split]; simp)
      have latest := h.index.latest e.1 e.2 found
      obtain ⟨seg, hseg, -⟩ := Layout.mem_entries.1 latest.mem
      obtain ⟨f, hf, content⟩ := h.content hseg
      have hf' : u.fs.file (.active e.2.segmentId) = some f := by
        rw [outside _ (by simp [SegPath.segment]), same₁ _ rfl]
        exact hf
      refine (safe_retain tidy attached copied latest hseg hf' content
        (fun d reads => fits e.1 d reached reads) fun v outside' => safe v ?_).mono ?_
        fun _ hc => hc
      · exact (same₁.trans outside.sameStore).trans outside'.sameStore
      · rintro r v ⟨outside', writer', index', post⟩
        cases r with
        | ok =>
          exact ⟨outside.trans outside', writer'.trans writer, index'.trans index, post⟩
        | error err =>
          exact ⟨outside.trans outside', writer'.trans writer, index'.trans index, e.1, reached,
            Layout.has_iff.2 ⟨e.2, latest.mem⟩, post⟩
    · rintro - u ⟨outside, writer, index, post⟩
      exact ⟨outside, writer, index, post⟩
  · rintro ⟨⟩ u ⟨outside, writer, index, N, n', k', attached, copied⟩
    have store : SameStore s.fs u.fs := same₁.trans outside.sameStore
    obtain ⟨seg, -, m', hseg, -⟩ := attached.writer
    have retains : Retains reachable L N := by
      refine ⟨fun r hr => ?_, fun c reached has => ?_⟩
      · obtain ⟨e, he, d, reads, hr⟩ := copied.only r hr
        exact ⟨e.1, d, ((mem_es e).1 he).2, reads, hr⟩
      · obtain ⟨loc, hloc⟩ := Layout.has_iff.1 has
        obtain ⟨loc', found⟩ := h.index.complete c loc hloc
        exact copied.all (c, loc') ((mem_es _).2 ⟨found, reached⟩)
    refine Safe.bind (safe_writer_sync tidy attached hseg fun v _ outside' =>
      safe v (store.trans outside'.sameStore)) ?_ ?_
    swap
    · rintro e v ⟨ok, -⟩
      cases ok
    rintro ⟨⟩ v ⟨-, mem, cursor, others', file⟩
    obtain ⟨synced, exactly⟩ := attached.synced (by rw [mem]) (by rw [mem]) (by rw [cursor]) hseg
      others' file
    have outside' : SameOutside (some dir) u.fs v.fs := fun p hp => others' p (hp n')
    obtain ⟨seg', f, m, hseg', hf, content, pos, hw⟩ := synced.writer
    obtain rfl := Option.some.inj (hseg.symm.trans hseg')
    rw [safe_bind, safe_get, thenSafe_ok, safe_bind, hw]
    refine safe_closeFile (by rw [hw]) (by rw [hw]) ?_
    rw [hw]
    have store' : SameStore s.fs v.fs := store.trans outside'.sameStore
    obtain rfl : f = seg.whole := Option.some.inj (hf.symm.trans file)
    have same (p : SegPath) :
        (v.fs.put (.segment (some dir) n') seg.whole).file p = v.fs.file p := by
      rw [Fs.file_put]
      split
      · rename_i hp
        rw [← hp, file]
      · rfl
    refine Proc.safe_sync hf ?_ ?_ ?_ fun h => absurd (tidy _ h) (by simp [Cleanup])
    · exact safe _ store'
    · exact safe _ (store'.trans fun p _ => same p)
    · rw [thenSafe_ok, safe_pure]
      refine ⟨store'.trans fun p _ => same p, ?_, ?_, N, n', m, seg, ?_, synced.disk.last, ?_, hseg,
        rfl, retains⟩
      · simp [mem, writer]
      · simp [mem, index]
      · exact fun id => (same _).trans (exactly id)
      · simpa using synced.index
  · rintro e u ⟨outside, writer, index, unreadable⟩
    exact ⟨same₁.trans outside.sameStore, writer, index, unreadable⟩

/-- A compaction that is ready to swap: the old segments and the new ones are on the medium. -/
structure Prepared (reachable : ChunkId → Bool) (x : Compaction) (s : SegState) (L N : Layout env) :
    Prop where
  old : Exactly .active s.fs L
  new : Exactly (.segment (some x.dir)) s.fs N
  index : IndexOf N.entries (s.mem.index .new)
  retains : Retains reachable L N
  count : x.retainedCount = (s.mem.index .new).size
  writer : ∃ n m seg, (∀ id, n < id → N id = none) ∧ N n = some seg ∧
    x.newWriter = { staging := some x.dir, currentSegmentId := n, isOpen := true, buffer := []
                    currentOffset := seg.bytes.length, maxSegmentSize := m }

/-- The old segments and the marker are as they were. -/
def SameOld (fs fs' : Fs SegPath) : Prop :=
  (∀ id, fs'.file (.old id) = fs.file (.old id)) ∧ fs'.file .marker = fs.file .marker

theorem SameStore.sameOld {fs fs' : Fs SegPath} (h : SameStore fs fs') : SameOld fs fs' :=
  ⟨fun _ => h _ rfl, h _ rfl⟩

theorem SameOld.trans {fs fs' fs'' : Fs SegPath} (h : SameOld fs fs') (h' : SameOld fs' fs'') :
    SameOld fs fs'' := ⟨fun id => (h'.1 id).trans (h.1 id), h'.2.trans h.2⟩

theorem SameOutside.sameOld {fs fs' : Fs SegPath} (h : SameOutside none fs fs') :
    SameOld fs fs' := ⟨fun _ => h _ (by simp [SegPath.segment]), h _ (by simp [SegPath.segment])⟩

/-- What the preparation of a compaction leaves. -/
def PreparePost (reachable : ChunkId → Bool) (s : SegState) (L : Layout env) (n : Nat)
    (r : Result (Option Compaction)) (t : SegState) : Prop :=
  SameOld s.fs t.fs ∧ match r with
    | .ok none => (∀ c, L.Has c → reachable c = true) ∧ t.mem = s.mem ∧ Exactly .active t.fs L ∧
        ∃ k', Attached .own none t L n k' ∧ L.cut n k' = L
    | .ok (some x) => (∃ c, L.Has c ∧ reachable c ≠ true) ∧
        ∃ N : Layout env, Prepared reachable x t L N
    | .error _ => ∃ c, reachable c = true ∧ L.Has c ∧ ∀ d, ¬ L.Reads c d

theorem Exactly.congr {L : Layout env} {path : Nat → SegPath} {fs fs' : Fs SegPath}
    (h : Exactly path fs L) (same : ∀ id, fs'.file (path id) = fs.file (path id)) :
    Exactly path fs' L := fun id => (same id).trans (h id)

theorem safe_prepare (tidy : ∀ o, faulty o → Cleanup o) {s : SegState} {L : Layout env}
    {n k : Nat} (h : Attached .own none s L n k) {reachable : ChunkId → Bool}
    (fits : ∀ c d, reachable c = true → L.Reads c d → Fits env d)
    (safe : ∀ t : SegState, OnDisk .active t.fs L n k → SameOld s.fs t.fs → C t) :
    Safe (segMachine faulty) (PreparePost reachable s L n) C (prepare env reachable) s := by
  obtain ⟨seg, f, m, hseg, hf, content, pos, hw⟩ := h.writer
  rw [prepare]
  refine Safe.bind (safe_writer_sync tidy h hseg fun t disk outside =>
    safe t disk outside.sameOld) ?_ ?_
  swap
  · rintro e t ⟨ok, -⟩
    cases ok
  rintro ⟨⟩ t ⟨-, mem, cursor, others, file⟩
  obtain ⟨attached, exactly⟩ := h.synced (by rw [mem]) (by rw [mem]) (by rw [cursor]) hseg others file
  have old₁ : SameOld s.fs t.fs := SameOutside.sameOld fun p hp => others p (hp n)
  have bound : ∀ seg', L n = some seg' → k ≤ seg'.records.length := by
    intro seg' hseg'
    obtain ⟨_, _, part⟩ := h.disk.newest seg' hseg'
    exact part.bound
  rw [safe_bind, Proc.safe_load, thenSafe_ok, safe_bind, entries]
  refine Proc.safe_ask.2 fun es perm => ?_
  rw [thenSafe_ok]
  have mem_es (e : ChunkId × ChunkLocation) : e ∈ es ↔ (t.mem.index .own)[e.1]? = some e.2 := by
    rw [perm.mem_iff, Std.ExtTreeMap.mem_toList_iff_getElem?_eq_some]
  split
  · rename_i allReachable
    rw [safe_pure]
    refine ⟨old₁, fun c has => ?_, mem, exactly, _, attached, Layout.cut_of_length_le ?_⟩
    · obtain ⟨loc, hloc⟩ := Layout.has_iff.1 has
      obtain ⟨loc', found⟩ := attached.index.complete c loc hloc
      exact List.all_eq_true.1 allReachable (c, loc') ((mem_es _).2 found)
    · intro seg' hseg'
      rw [Option.some.inj (hseg.symm.trans hseg')]
  · rename_i notAll
    obtain ⟨e, he, unreachable⟩ : ∃ e ∈ es, ¬ reachable e.1 = true := by
      simpa only [List.all_eq_true, not_forall, exists_prop] using notAll
    have dropped : L.Has e.1 :=
      Layout.has_iff.2 ⟨e.2, (attached.index.latest e.1 e.2 ((mem_es e).1 he)).mem⟩
    rw [safe_bind]
    refine Proc.safe_ask.2 fun dir _ => ?_
    rw [thenSafe_ok]
    refine Safe.bind (safe_stage tidy attached fits dir _ fun u same => ?_) ?_ ?_
    · exact safe u ((exactly.congr fun id => same _ rfl).onDisk h.disk.last bound)
        (old₁.trans same.sameOld)
    swap
    · rintro e u ⟨same, -, -, unreadable⟩
      exact ⟨old₁.trans same.sameOld, unreadable⟩
    rintro w u ⟨same, writer, index, N, n', m', seg', new, last, indexed, hseg', hw', retains⟩
    have old₂ := old₁.trans same.sameOld
    have exactly₂ : Exactly .active u.fs L := exactly.congr fun id => same _ rfl
    have writer' : u.mem.writer .own = ⟨none, n, true, [], seg.bytes.length, m⟩ := by
      rw [writer, mem, hw]
    have there : u.fs.file (.active n) = some seg.whole := by rw [exactly₂ n, hseg]; rfl
    rw [safe_bind, Proc.safe_load, thenSafe_ok, safe_bind]
    refine safe_closeFile (by rw [writer']) (by rw [writer']) ?_
    rw [writer']
    have unchanged (p : SegPath) : (u.fs.put (.active n) seg.whole).file p = u.fs.file p := by
      rw [Fs.file_put]
      split
      · rename_i hp
        rw [← hp, there]
      · rfl
    have old₃ : SameOld s.fs (u.fs.put (.active n) seg.whole) :=
      old₂.trans ⟨fun _ => unchanged _, unchanged _⟩
    have exactly₃ : Exactly .active (u.fs.put (.active n) seg.whole) L :=
      exactly₂.congr fun id => unchanged _
    refine Proc.safe_sync there ?_ ?_ ?_ fun h => absurd (tidy _ h) (by simp [Cleanup])
    · exact safe _ (exactly₂.onDisk h.disk.last bound) old₂
    · exact safe _ (exactly₃.onDisk h.disk.last bound) old₃
    · rw [thenSafe_ok, safe_pure]
      refine ⟨old₃, ⟨e.1, dropped, unreachable⟩, N, exactly₃, new.congr fun id => unchanged _, ?_, retains, ?_, n', m', seg',
        last, hseg', hw'⟩
      · simpa using indexed
      · simp

end OosLite
