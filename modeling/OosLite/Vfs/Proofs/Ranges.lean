import OosLite.Engine.Proofs.Growth
import OosLite.Engine.Proofs.Reads
import OosLite.Lib.Threads
import OosLite.Vfs.Ranges

/-!
# What range reads return

Whatever other readers do to the cache and whatever calls go on meanwhile: a read of a stored file
returns the bytes of its content in the range.
-/

namespace OosLite

open Files Effect Relation

/-- The bytes of a range. -/
def rangeOf (content : Bytes) (offset size : UInt64) : Bytes :=
  (content.drop offset.toNat).take size.toNat

variable {env : Env} {files : Set Bytes} {f : Faults} {s t : TreeState} {V : Known}

/-! ## The cache -/

/-- Every cached chunk is a known one. -/
def LruState.Sound (V : Known) (c : LruState) : Prop :=
  ∀ id data, c.chunks.lookup id = some data → V id data

namespace LruState.Sound

variable {c : LruState} {id : ChunkId} {data : Bytes}

theorem mono {W : Known} (h : c.Sound V) (le : ∀ id data, V id data → W id data) : c.Sound W :=
  fun id data found => le _ _ (h id data found)

theorem new (maxBytes : Nat) : (LruState.new maxBytes).Sound V := by
  intro id data found
  simp [LruState.new] at found

theorem get (h : c.Sound V) : (c.get id).2.Sound V := by
  unfold LruState.get
  cases c.chunks.lookup id with
  | none => exact h
  | some data => exact h

/-- What is got is known. -/
theorem of_get (h : c.Sound V) (found : (c.get id).1 = some data) : V id data := by
  unfold LruState.get at found
  cases there : c.chunks.lookup id with
  | none =>
    rw [there] at found
    cases found
  | some data' =>
    rw [there] at found
    cases found
    exact h id data there

theorem evictOldest (h : c.Sound V) : c.evictOldest.Sound V := by
  unfold LruState.evictOldest
  cases c.accessOrder with
  | nil => exact h
  | cons oldId rest =>
    cases found : c.chunks.lookup oldId with
    | none =>
      simp only [found]
      exact h
    | some evicted =>
      simp only [found]
      intro id data there
      by_cases same : id = oldId
      · subst same
        rw [AList.lookup_erase] at there
        cases there
      · rw [AList.lookup_erase_ne same] at there
        exact h id data there

theorem evict (h : c.Sound V) (chunkSize fuel : Nat) : (c.evict chunkSize fuel).Sound V := by
  induction fuel generalizing c with
  | zero => exact h
  | succ fuel ih =>
    unfold LruState.evict
    split
    · exact ih h.evictOldest
    · exact h

/-- An insertion gives back a known chunk, and keeps one. -/
theorem insert (h : c.Sound V) (known : V id data) :
    V id (c.insert id data).1 ∧ (c.insert id data).2.Sound V := by
  unfold LruState.insert
  cases found : c.chunks.lookup id with
  | some existing => exact ⟨h id existing found, h⟩
  | none =>
    refine ⟨known, fun id' data' there => ?_⟩
    by_cases same : id' = id
    · subst same
      rw [AList.lookup_insert] at there
      cases there
      exact known
    · rw [AList.lookup_insert_ne same] at there
      exact h.evict _ _ id' data' there

end LruState.Sound

/-! ## What readers and calls agree on -/

/-- The engine has what its manifests need, of the chunks of known files, and these only are cached;
no manifest and no chunk is lost. -/
def agreement (env : Env) (files : Set Bytes) : Agreement TreeState where
  inv t := (∃ H K, Upheld env files .empty H K t.engine) ∧
    Makes env (piecesOf env files) t.engine.segmentStore ∧ t.cache.Sound (piecesOf env files)
  le s t := (∀ id : String, (s.engine.metadataStore.manifests[id]?).isSome →
      (t.engine.metadataStore.manifests[id]?).isSome) ∧
    ∀ c, Indexed s.engine.segmentStore c → Indexed t.engine.segmentStore c
  refl _ := ⟨fun _ there => there, fun _ there => there⟩
  trans _ _ _ h h' := ⟨fun id there => h'.1 id (h.1 id there), fun c there => h'.2 c (h.2 c there)⟩

/-- Operations that leave the engine as it is. -/
theorem agreement_same (inv : (agreement env files).inv t) {c : LruState}
    (sound : c.Sound (piecesOf env files)) :
    (agreement env files).inv ⟨t.engine, c⟩ ∧ (agreement env files).le t ⟨t.engine, c⟩ :=
  ⟨⟨inv.1, inv.2.1, sound⟩, (agreement env files).refl t⟩

/-- A reader ends so, whatever others do. -/
abbrev ReadsBeside {α : Type} (env : Env) (files : Set Bytes) (f : Faults) (p : TreeProg α)
    (Q : Result α → TreeState → Prop) (s : TreeState) : Prop :=
  Withstands (treeMachine env f) (agreement env files) Q p s

/-! ## Lists -/

/-- The range, as far as a content has been read. -/
theorem rangeOf_append {before data after : Bytes} {first last : Nat} (more : before.length < last) :
    ((before ++ (data ++ after)).take (min (before.length + data.length) last)).drop first =
      ((before ++ (data ++ after)).take before.length).drop first ++
        (data.take (last - before.length)).drop (first - before.length) := by
  have split : (before ++ (data ++ after)).take (min (before.length + data.length) last) =
      before ++ data.take (last - before.length) := by
    rw [List.take_append, List.take_of_length_le (by omega)]
    congr 1
    rw [List.take_append_of_le_length (by omega)]
    rcases Nat.le_total data.length (last - before.length) with le | le
    · rw [List.take_of_length_le (by omega), List.take_of_length_le le]
    · congr 1
      omega
  rw [split, List.drop_append, List.take_left]

/-- What a chunk of the loop adds. -/
theorem intersection_eq {offset endOffset currentOffset chunkEnd : UInt64} {data : Bytes}
    (stop : chunkEnd.toNat = currentOffset.toNat + data.length)
    (meets : offset.toNat < chunkEnd.toNat ∧ currentOffset.toNat < endOffset.toNat) :
    VfsTree.intersection offset endOffset currentOffset chunkEnd data =
      (data.take (endOffset.toNat - currentOffset.toNat)).drop (offset.toNat - currentOffset.toNat) := by
  unfold VfsTree.intersection
  extract_lets sliceStart sliceEnd
  have start : sliceStart = offset.toNat - currentOffset.toNat := by
    unfold sliceStart
    split
    · rename_i more
      exact UInt64.toNat_sub_of_le _ _ (UInt64.le_of_lt more)
    · rename_i less
      rw [gt_iff_lt, UInt64.lt_iff_toNat_lt] at less
      omega
  have size : data.take sliceEnd = data.take (endOffset.toNat - currentOffset.toNat) := by
    unfold sliceEnd
    split
    · rw [UInt64.toNat_sub_of_le _ _ (UInt64.le_iff_toNat_le.2 meets.2.le)]
    · rename_i less
      rw [UInt64.lt_iff_toNat_lt] at less
      rw [List.take_length, List.take_of_length_le (by omega)]
  have within : sliceEnd ≤ data.length := by
    unfold sliceEnd
    split
    · rename_i less
      rw [UInt64.lt_iff_toNat_lt] at less
      rw [UInt64.toNat_sub_of_le _ _ (UInt64.le_iff_toNat_le.2 meets.2.le)]
      omega
    · exact Nat.le_refl _
  split
  · rw [size, start]
  · rename_i outside
    rw [← size, ← start, List.drop_eq_nil_of_le]
    rw [List.length_take]
    omega

/-! ## Reading a chunk -/

section Reading

variable (distinct : NoCollision env (dataOf env files)) {c : ChunkId} {d d' : Bytes}

include distinct

theorem piecesOf_unique (h : piecesOf env files c d) (h' : piecesOf env files c d') : d = d' := by
  obtain ⟨⟨content, stored, there⟩, own⟩ := h
  obtain ⟨⟨content', stored', there'⟩, own'⟩ := h'
  exact distinct (.inr ⟨content, stored, there⟩) (.inr ⟨content', stored', there'⟩) (own.trans own'.symm)

variable (only : f.OnlyMetadata) (piece : piecesOf env files c d)

include only piece

/-- A chunk of the index has its length there, and is read. -/
theorem agreement_located (inv : (agreement env files).inv t) (there : Indexed t.engine.segmentStore c) :
    ∃ loc, (t.engine.segmentStore.mem.index .own)[c]? = some loc ∧
      loc.rawLen = UInt32.ofNat d.length ∧ ∀ r s,
        Returns (engineMachine f) (StorageEngine.segments (SegmentStore.getChunk env c)) t.engine r s →
          s = t.engine ∧ r = .ok d := by
  obtain ⟨-, made, -⟩ := inv
  have present : ((t.engine.segmentStore.mem.index .own)[c]?).isSome := by
    rw [← Std.ExtTreeMap.contains_eq_isSome_getElem?]
    exact there
  obtain ⟨loc, found⟩ := Option.isSome_iff_exists.1 present
  obtain ⟨d', known, length, reads⟩ := made.location only.tidy found
  obtain rfl := piecesOf_unique distinct piece known
  refine ⟨loc, found, length, fun r s returned => ?_⟩
  have safe : Safe (engineMachine f) (fun r s => s = t.engine ∧ r = .ok d) (fun _ => True)
      (StorageEngine.segments (SegmentStore.getChunk env c)) t.engine := by
    apply StorageEngine.safe_segments
    apply (reads _).mono ?_ fun _ left => left
    rintro r g ⟨rfl, ok⟩
    exact ⟨rfl, ok⟩
  exact safe.returns returned

/-- The data of a chunk, wherever it comes from. -/
theorem reads_chunkData (there : Indexed s.engine.segmentStore c) :
    ReadsBeside env files f (VfsTree.chunkData c) (fun r _ => r = .ok d) s := by
  apply Withstands.bind
  apply withstands_perform
  rintro t inv later r t' ⟨rfl, rfl⟩
  obtain ⟨inv', le⟩ := agreement_same inv inv.2.2.get
  refine ⟨inv', le, fun u invu leu => ?_⟩
  rw [thenWithstands_ok]
  cases found : (t.cache.get c).1 with
  | some data =>
    obtain rfl := piecesOf_unique distinct piece (inv.2.2.of_get found)
    exact withstands_pure fun _ _ _ => rfl
  | none =>
    apply Withstands.bind
    apply withstands_perform
    rintro v invv lev r v' ⟨w, returned, rfl⟩
    have there' : Indexed v.engine.segmentStore c :=
      lev.2 c (leu.2 c (le.2 c (later.2 c there)))
    obtain ⟨loc, -, -, read⟩ := agreement_located distinct only piece invv there'
    obtain ⟨rfl, rfl⟩ := read _ _ returned
    refine ⟨invv, (agreement env files).refl v, fun x _ _ => ?_⟩
    rw [thenWithstands_ok]
    apply withstands_perform
    rintro y invy - r y' ⟨rfl, rfl⟩
    obtain ⟨known, sound⟩ := invy.2.2.insert piece
    obtain ⟨invy', ley⟩ := agreement_same invy sound
    exact ⟨invy', ley, fun _ _ _ => congrArg Except.ok (piecesOf_unique distinct known piece)⟩

omit only in
/-- The result grows by what the chunk has in the range. -/
theorem reads_readChunk (only : f.OnlyMetadata) {offset endOffset currentOffset chunkEnd : UInt64}
    {content before after : Bytes} (split : content = before ++ (d ++ after))
    (place : currentOffset.toNat = before.length) (stop : chunkEnd.toNat = before.length + d.length)
    (more : before.length < endOffset.toNat) (there : Indexed s.engine.segmentStore c) :
    ReadsBeside env files f (VfsTree.readChunk offset endOffset currentOffset chunkEnd c
        ((content.take before.length).drop offset.toNat))
      (fun r _ => r = .ok ((content.take (min (before.length + d.length) endOffset.toNat)).drop
        offset.toNat)) s := by
  have next := @rangeOf_append before d after offset.toNat endOffset.toNat more
  rw [← split] at next
  rw [next]
  unfold VfsTree.readChunk
  split
  · rename_i meets
    rw [gt_iff_lt, UInt64.lt_iff_toNat_lt, UInt64.lt_iff_toNat_lt] at meets
    apply Withstands.bind
    apply (reads_chunkData distinct only piece there).mono
    rintro r t - - rfl
    rw [thenWithstands_ok, intersection_eq (by rw [stop, place]) meets, place]
    exact withstands_pure fun _ _ _ => rfl
  · rename_i outside
    rw [gt_iff_lt, UInt64.lt_iff_toNat_lt, UInt64.lt_iff_toNat_lt, stop, place] at outside
    have nothing : (d.take (endOffset.toNat - before.length)).drop (offset.toNat - before.length) = [] := by
      rw [List.drop_eq_nil_of_le]
      rw [List.length_take]
      omega
    rw [nothing, List.append_nil]
    exact withstands_pure fun _ _ _ => rfl

end Reading

/-- The chunks of a file, from one of them on. -/
theorem reads_readChunks (distinct : NoCollision env (dataOf env files)) (only : f.OnlyMetadata)
    {offset endOffset : UInt64} {content : Bytes} (small : content.length < 2 ^ 64)
    (last : endOffset.toNat ≤ content.length) {rest : List Bytes} {before : Bytes}
    {currentOffset : UInt64} (split : content = before ++ rest.flatten)
    (place : currentOffset.toNat = before.length) (more : before.length < endOffset.toNat)
    (pieces : ∀ d ∈ rest, piecesOf env files (ChunkId.fromData env d) d ∧ d.length ≤ maxChunkSize)
    (there : ∀ d ∈ rest, Indexed s.engine.segmentStore (ChunkId.fromData env d)) :
    ReadsBeside env files f (VfsTree.readChunks offset endOffset (rest.map (ChunkId.fromData env))
        currentOffset ((content.take before.length).drop offset.toNat))
      (fun r _ => r = .ok ((content.take endOffset.toNat).drop offset.toNat)) s := by
  induction rest generalizing before currentOffset s with
  | nil =>
    rw [List.flatten_nil, List.append_nil] at split
    rw [split] at last
    omega
  | cons d rest ih =>
    obtain ⟨piece, limit⟩ := pieces d List.mem_cons_self
    have whole : content = before ++ (d ++ rest.flatten) := by
      rw [split, List.flatten_cons]
    have lengths : before.length + d.length ≤ content.length := by
      rw [whole]
      simp
    rw [List.map_cons, VfsTree.readChunks]
    apply Withstands.bind
    apply withstands_perform
    rintro t inv later r t' ⟨rfl, rfl⟩
    refine ⟨inv, (agreement env files).refl _, fun u _ leu => ?_⟩
    obtain ⟨loc, found, rawLen, -⟩ := agreement_located distinct only piece inv
      (later.2 _ (there d List.mem_cons_self))
    rw [thenWithstands_ok, found]
    have stop : (currentOffset + loc.rawLen.toUInt64).toNat = before.length + d.length := by
      have size : loc.rawLen.toUInt64.toNat = d.length := by
        rw [rawLen, UInt32.toNat_toUInt64, UInt32.toNat_ofNat_of_lt']
        exact Nat.lt_of_le_of_lt limit (by decide)
      rw [UInt64.toNat_add, size, place, Nat.mod_eq_of_lt (by omega)]
    show ReadsBeside env files f (VfsTree.readChunk _ _ _ _ _ _ >>= _) _ u
    apply Withstands.bind
    have there' (e : Bytes) (he : e ∈ d :: rest) : Indexed u.engine.segmentStore (ChunkId.fromData env e) :=
      leu.2 _ (later.2 _ (there e he))
    apply (reads_readChunk distinct piece only whole place stop more (there' d List.mem_cons_self)).mono
    rintro r v - lev rfl
    rw [thenWithstands_ok]
    split
    · rename_i enough
      rw [ge_iff_le, UInt64.le_iff_toNat_le, stop] at enough
      rw [Nat.min_eq_right enough]
      exact withstands_pure fun _ _ _ => rfl
    · rename_i less
      rw [ge_iff_le, UInt64.le_iff_toNat_le, stop, Nat.not_le] at less
      rw [Nat.min_eq_left less.le]
      have next := @ih v (before ++ d) (currentOffset + loc.rawLen.toUInt64)
      rw [List.length_append] at next
      apply next
      · rw [whole, List.append_assoc]
      · exact stop
      · exact less
      · exact fun e he => pieces e (List.mem_cons_of_mem _ he)
      · exact fun e he => lev.2 _ (there' e (List.mem_cons_of_mem _ he))

/-! ## Reading a range -/

/-- What a read may return: the bytes of the content in the range, if the file is stored; it fails if
it was not stored before, or in a transaction. -/
structure RangeAnswer.Correct (env : Env) (files : Set Bytes) (a : RangeAnswer) : Prop where
  gives : ∀ data, a.result = .ok data → a.request.size = 0 ∧ data = [] ∨
    (a.ended.manifests[a.request.manifestId]?).isSome ∧
      ∃ content, ContentOf env files a.request.manifestId content ∧
        data = rangeOf content a.request.offset a.request.size
  fails : ∀ e, a.result = .error e → e = .redb "" ∨
    e = .objectNotFound a.request.manifestId ∧ a.began.manifests[a.request.manifestId]? = none

theorem rangeOf_empty {content : Bytes} {offset : UInt64} (size : UInt64)
    (behind : content.length ≤ offset.toNat) : rangeOf content offset size = [] := by
  unfold rangeOf
  rw [List.drop_eq_nil_of_le behind, List.take_nil]

theorem toNat_endOffset {offset size total : UInt64} (within : offset.toNat ≤ total.toNat) :
    (offset + min size (total - offset)).toNat =
      offset.toNat + min size.toNat (total.toNat - offset.toNat) := by
  have rest : (total - offset).toNat = total.toNat - offset.toNat :=
    UInt64.toNat_sub_of_le _ _ (UInt64.le_iff_toNat_le.2 within)
  have least : (min size (total - offset)).toNat = min size.toNat (total.toNat - offset.toNat) := by
    rw [← rest]
    show (if size ≤ total - offset then size else total - offset).toNat = _
    split
    · rename_i le
      rw [Nat.min_eq_left (UInt64.le_iff_toNat_le.1 le)]
    · rename_i more
      rw [UInt64.le_iff_toNat_le, Nat.not_le] at more
      rw [Nat.min_eq_right more.le]
  have bound := total.toNat_lt
  rw [UInt64.toNat_add, least, Nat.mod_eq_of_lt (by omega)]

/-- More is not there to be taken. -/
theorem take_min_drop (content : Bytes) (first size : Nat) :
    (content.drop first).take (min size (content.length - first)) = (content.drop first).take size := by
  rw [← List.length_drop, ← List.take_eq_take_min]

/-- What is read in a store of known files. -/
theorem agreement_manifest {id : String} (inv : (agreement env files).inv t)
    (there : (t.engine.metadataStore.manifests[id]?).isSome) :
    ∃ content createdAt, ContentOf env files id content ∧
      t.engine.metadataStore.getManifest env id = .ok (some (manifestOf env content createdAt)) ∧
      ∀ d ∈ chunksOf env content, Indexed t.engine.segmentStore (ChunkId.fromData env d) := by
  obtain ⟨⟨H, K, kept⟩, -, -⟩ := inv
  obtain ⟨_, ⟨⟨content, stored, createdAt, rfl⟩, -⟩, own, found⟩ :=
    (MetadataStore.original_of_lawful kept.changes).getManifest there
  refine ⟨content, createdAt, ⟨stored, own⟩, found, fun d hd => ?_⟩
  apply (kept.holds.contains_iff _).2
  exact kept.holds.le (kept.needed ⟨id, _, found, List.mem_map.2 ⟨d, hd, rfl⟩⟩)

/-- A read that was called with these tables. -/
theorem reads_readRange (distinct : NoCollision env (dataOf env files)) (only : f.OnlyMetadata)
    (small : ∀ content ∈ files, content.length < 2 ^ 64) (q : RangeRequest) :
    ReadsBeside env files f (VfsTree.readRange q.manifestId q.offset q.size)
      (fun r t => RangeAnswer.Correct env files
        ⟨q, s.engine.metadataStore, t.engine.metadataStore, r⟩) s := by
  unfold VfsTree.readRange
  split
  · rename_i zero
    refine withstands_pure fun t _ _ => ⟨?_, fun e failed => by cases failed⟩
    rintro data ⟨⟩
    exact .inl ⟨zero, rfl⟩
  · rename_i some
    apply Withstands.bind
    apply withstands_perform
    rintro t inv later r t' ⟨w, returned, rfl⟩
    have query : Safe (engineMachine f) (fun r w => w = t.engine ∧
        (r = t.engine.metadataStore.getManifest env q.manifestId ∨ r = .error (.redb "")))
        (fun _ => True) (StorageEngine.query fun m => m.getManifest env q.manifestId) t.engine :=
      StorageEngine.safe_query ⟨rfl, .inl rfl⟩ fun _ => ⟨rfl, .inr rfl⟩
    obtain ⟨rfl, answer⟩ := query.returns returned
    refine ⟨inv, (agreement env files).refl t, fun u _ leu => ?_⟩
    rcases answer with rfl | rfl
    · cases stored : t.engine.metadataStore.manifests[q.manifestId]? with
      | none =>
        rw [MetadataStore.getManifest_of_none stored, thenWithstands_ok]
        refine withstands_throw fun v _ _ => ⟨fun data ok => (by cases ok), ?_⟩
        rintro e ⟨⟩
        refine .inr ⟨rfl, Option.eq_none_iff_forall_ne_some.2 fun value there => ?_⟩
        have there' := later.1 q.manifestId (by rw [there]; rfl)
        rw [stored] at there'
        cases there'
      | some value =>
        have there : (t.engine.metadataStore.manifests[q.manifestId]?).isSome := by
          rw [stored]
          rfl
        obtain ⟨content, createdAt, own, found, indexed⟩ := agreement_manifest inv there
        have limit := small content own.1
        have total : (manifestOf env content createdAt).totalSize.toNat = content.length :=
          UInt64.toNat_ofNat_of_lt' limit
        have gives {v : TreeState} (le : (agreement env files).le u v) : RangeAnswer.Correct env files
            ⟨q, s.engine.metadataStore, v.engine.metadataStore, .ok (rangeOf content q.offset q.size)⟩ := by
          refine ⟨?_, fun e failed => by cases failed⟩
          rintro data ⟨⟩
          exact .inr ⟨le.1 _ (leu.1 _ there), content, own, rfl⟩
        rw [found, thenWithstands_ok]
        show ReadsBeside env files f (if _ then _ else _) _ u
        split
        · rename_i behind
          rw [ge_iff_le, UInt64.le_iff_toNat_le, total] at behind
          rw [← rangeOf_empty q.size behind]
          exact withstands_pure fun v _ le => gives le
        · rename_i within
          rw [ge_iff_le, UInt64.le_iff_toNat_le, total, Nat.not_le] at within
          generalize (manifestOf env content createdAt).totalSize = size at total
          have last : (q.offset + min q.size (size - q.offset)).toNat = q.offset.toNat +
              min q.size.toNat (content.length - q.offset.toNat) := by
            rw [toNat_endOffset (by omega), total]
          have zero : ((content.take ([] : Bytes).length).drop q.offset.toNat) = [] := List.drop_nil
          have more : 0 < (q.offset + min q.size (size - q.offset)).toNat := by
            have positive : 0 < q.size.toNat := Nat.pos_of_ne_zero fun none => some (UInt64.toNat_inj.1 none)
            omega
          have reads := @reads_readChunks env files f u distinct only q.offset _ content limit
            (last.trans_le (by omega)) (chunksOf env content) [] 0 (flatten_chunksOf content).symm rfl
            more
            (fun d hd => ⟨⟨⟨content, own.1, hd⟩, rfl⟩, (chunksOf_bounds hd).2⟩)
            fun d hd => leu.2 _ (indexed d hd)
          rw [zero] at reads
          apply reads.mono
          rintro r v - le rfl
          rw [last, List.drop_take, Nat.add_sub_cancel_left, take_min_drop]
          exact gives le
    · rw [thenWithstands_error]
      refine ⟨fun data ok => (by cases ok), ?_⟩
      rintro e ⟨⟩
      exact .inl rfl

end OosLite
