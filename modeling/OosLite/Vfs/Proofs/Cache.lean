import OosLite.Lib.Recency
import OosLite.Vfs.Cache

/-!
# The invariant of the chunk cache

The map, the order and the byte count agree after any calls, and the cache keeps to its limit as far
as a single chunk allows it.
-/

namespace OosLite



namespace CachedChunks

variable {chunks : CachedChunks} {id : ChunkId} {data : Bytes}

theorem totalBytes_erase (found : chunks.lookup id = some data) :
    totalBytes (chunks.erase id) + data.length = totalBytes chunks := by
  have there : id ∈ chunks.entries.keys := by
    rw [← AList.keys, ← AList.mem_keys, ← AList.lookup_isSome, found]
    rfl
  obtain ⟨data', before, behind, -, split, erased⟩ := List.exists_of_kerase there
  have same : data' = data := by
    have listed : ⟨id, data'⟩ ∈ chunks.entries := by
      rw [split]
      exact List.mem_append_right _ List.mem_cons_self
    have looked : chunks.lookup id = some data' := AList.mem_lookup_iff.2 listed
    exact Option.some.inj (looked.symm.trans found)
  have entries : (chunks.erase id).entries = before ++ behind := erased
  unfold totalBytes
  rw [entries, split, ← same]
  simp only [List.map_append, List.map_cons, List.sum_append, List.sum_cons]
  omega

theorem totalBytes_insert (absent : chunks.lookup id = none) :
    totalBytes (chunks.insert id data) = data.length + totalBytes chunks := by
  unfold totalBytes
  rw [AList.entries_insert_of_notMem (AList.lookup_eq_none.1 absent), List.map_cons, List.sum_cons]

end CachedChunks

namespace LruState

variable {s : LruState} {used : List ChunkId} {id : ChunkId} {data : Bytes}

/-- The order lists the cached chunks, the most recently used ones last, and the count is that of
their bytes. -/
structure Consistent (s : LruState) (used : List ChunkId) : Prop where
  keys : s.accessOrder.Perm s.chunks.keys
  latest : Recency.Latest s.accessOrder used
  bytes : s.currentBytes = s.chunks.totalBytes

/-- More than the limit is only a chunk that is alone. -/
def Bounded (s : LruState) : Prop := s.currentBytes ≤ s.maxBytes ∨ s.chunkCount = 1

namespace Consistent

theorem mem_order (c : s.Consistent used) : id ∈ s.accessOrder ↔ id ∈ s.chunks :=
  c.keys.mem_iff

theorem new (maxBytes : Nat) : (LruState.new maxBytes).Consistent [] :=
  ⟨.refl _, .nil _, rfl⟩

theorem clear (s : LruState) (used : List ChunkId) : s.clear.Consistent used :=
  ⟨.refl _, .nil _, rfl⟩

/-- A chunk that is there is used again. -/
theorem promote (c : s.Consistent used) (there : id ∈ s.chunks) :
    (s.promote id).Consistent (used ++ [id]) := by
  refine ⟨?_, c.latest.use id, c.bytes⟩
  have front : (s.accessOrder.erase id ++ [id]).Perm (id :: s.accessOrder.erase id) :=
    List.perm_append_singleton id _
  have whole := List.perm_cons_erase (c.mem_order.2 there)
  exact (front.trans whole.symm).trans c.keys

/-- The oldest chunk is evicted, and its bytes are in the count. -/
theorem evictOldest (c : s.Consistent used) {oldId : ChunkId} {rest : List ChunkId}
    (oldest : s.accessOrder = oldId :: rest) :
    s.evictOldest.Consistent used ∧ s.evictOldest.accessOrder = rest := by
  have there : oldId ∈ s.chunks := by
    rw [← c.mem_order, oldest]
    exact List.mem_cons_self
  obtain ⟨evicted, found⟩ := Option.isSome_iff_exists.1 (AList.lookup_isSome.2 there)
  have total := CachedChunks.totalBytes_erase found
  have bytes := c.bytes
  unfold LruState.evictOldest
  rw [oldest]
  simp only [found]
  refine ⟨⟨?_, ?_, ?_⟩, trivial⟩
  · rw [AList.keys_erase]
    have keys := c.keys.erase oldId
    rw [oldest, List.erase_cons_head] at keys
    exact keys
  · apply c.latest.of_suffix
    rw [oldest]
    exact List.suffix_cons _ _
  · show s.currentBytes - evicted.length = CachedChunks.totalBytes (s.chunks.erase oldId)
    omega

/-- With fuel for all chunks, the eviction stops because there is room, or nothing to evict. -/
theorem evict (c : s.Consistent used) (chunkSize : Nat) {fuel : Nat}
    (enough : s.accessOrder.length ≤ fuel) :
    (s.evict chunkSize fuel).Consistent used ∧ ¬ (s.evict chunkSize fuel).Crowded chunkSize ∧
      (s.evict chunkSize fuel).accessOrder <:+ s.accessOrder := by
  induction fuel generalizing s with
  | zero =>
    have none : s.accessOrder = [] := List.length_eq_zero_iff.1 (Nat.le_zero.1 enough)
    exact ⟨c, fun crowded => crowded.2 none, List.suffix_refl _⟩
  | succ fuel ih =>
    unfold LruState.evict
    by_cases crowded : s.Crowded chunkSize
    · rw [if_pos crowded]
      obtain ⟨oldId, rest, oldest⟩ := List.exists_cons_of_ne_nil crowded.2
      obtain ⟨c', left⟩ := c.evictOldest oldest
      have shorter : s.evictOldest.accessOrder.length ≤ fuel := by
        rw [oldest, List.length_cons] at enough
        rw [left]
        omega
      obtain ⟨c'', stopped, suffix⟩ := ih c' shorter
      refine ⟨c'', stopped, suffix.trans ?_⟩
      rw [left, oldest]
      exact List.suffix_cons _ _
    · rw [if_neg crowded]
      exact ⟨c, crowded, List.suffix_refl _⟩

end Consistent

/-- Fuel for all chunks is enough. -/
theorem evict_fuel (s : LruState) (chunkSize : Nat) {fuel : Nat} (c : s.Consistent used)
    (enough : s.accessOrder.length ≤ fuel) :
    s.evict chunkSize fuel = s.evict chunkSize s.accessOrder.length := by
  induction fuel generalizing s with
  | zero => rw [Nat.le_zero.1 enough]
  | succ fuel ih =>
    by_cases crowded : s.Crowded chunkSize
    · obtain ⟨oldId, rest, oldest⟩ := List.exists_cons_of_ne_nil crowded.2
      obtain ⟨c', left⟩ := c.evictOldest oldest
      have size : s.accessOrder.length = s.evictOldest.accessOrder.length + 1 := by
        rw [oldest, left, List.length_cons]
      rw [size, evict, evict, if_pos crowded, if_pos crowded, ih _ c' (by omega)]
    · rw [evict, if_neg crowded]
      cases s.accessOrder.length with
      | zero => rfl
      | succ n => rw [evict, if_neg crowded]

/-- What was not there is still not there after an eviction. -/
theorem Consistent.evict_lookup (c : s.Consistent used) (chunkSize : Nat) {fuel : Nat}
    (enough : s.accessOrder.length ≤ fuel) (absent : s.chunks.lookup id = none) :
    (s.evict chunkSize fuel).chunks.lookup id = none := by
  obtain ⟨c', -, suffix⟩ := c.evict chunkSize enough
  rw [AList.lookup_eq_none] at absent ⊢
  intro there
  exact absent (c.mem_order.1 (suffix.subset (c'.mem_order.2 there)))

/-! ## The calls -/

theorem Consistent.get (c : s.Consistent used) :
    (s.get id).2.Consistent (if (s.get id).1.isSome then used ++ [id] else used) := by
  unfold LruState.get
  cases found : s.chunks.lookup id with
  | none => exact c
  | some data =>
    apply c.promote
    rw [← AList.lookup_isSome, found]
    rfl

theorem Consistent.insert (c : s.Consistent used) :
    (s.insert id data).2.Consistent (used ++ [id]) := by
  unfold LruState.insert
  cases found : s.chunks.lookup id with
  | some existing =>
    apply c.promote
    rw [← AList.lookup_isSome, found]
    rfl
  | none =>
    have enough := Nat.le_refl s.accessOrder.length
    obtain ⟨c', -, -⟩ := c.evict data.length enough
    have absent := c.evict_lookup data.length enough found
    have notMem := AList.lookup_eq_none.1 absent
    refine ⟨?_, ?_, ?_⟩
    · show (_ ++ [id]).Perm (AList.keys (AList.insert id data _))
      rw [AList.keys_insert, List.erase_of_not_mem notMem]
      exact (List.perm_append_singleton id _).trans (c'.keys.cons id)
    · have used := c'.latest.use id
      rw [List.erase_of_not_mem (fun there => notMem (c'.mem_order.1 there))] at used
      exact used
    · show _ = CachedChunks.totalBytes (AList.insert id data _)
      rw [CachedChunks.totalBytes_insert absent, ← c'.bytes, Nat.add_comm]

theorem Bounded.get (b : s.Bounded) : (s.get id).2.Bounded := by
  unfold LruState.get
  cases s.chunks.lookup id with
  | none => exact b
  | some data => exact b

theorem Bounded.insert (b : s.Bounded) (c : s.Consistent used) :
    (s.insert id data).2.Bounded := by
  unfold LruState.insert
  cases found : s.chunks.lookup id with
  | some existing => exact b
  | none =>
    have enough := Nat.le_refl s.accessOrder.length
    obtain ⟨c', stopped, -⟩ := c.evict data.length enough
    have absent := c.evict_lookup data.length enough found
    by_cases none : (s.evict data.length s.accessOrder.length).accessOrder = []
    · right
      have empty := c'.keys
      rw [none] at empty
      have entries := List.map_eq_nil_iff.1 empty.symm.eq_nil
      show (AList.insert id data _).entries.length = 1
      rw [AList.entries_insert_of_notMem (AList.lookup_eq_none.1 absent), entries]
      rfl
    · left
      have room : ¬ _ > _ := fun more => stopped ⟨more, none⟩
      exact Nat.le_of_not_lt room

/-- What `insert` returns is what `get` finds next. -/
theorem insert_get : ((s.insert id data).2.get id).1 = some (s.insert id data).1 := by
  unfold insert
  cases found : s.chunks.lookup id with
  | some existing =>
    unfold get promote
    simp only [found]
  | none =>
    unfold get
    simp only [AList.lookup_insert]

end LruState

/-- The run lemma: both invariants hold after any calls. -/
theorem CacheRun.of_consistent (maxBytes : Nat) (calls : List CacheCall) :
    (CacheRun.of maxBytes calls).cache.Consistent (CacheRun.of maxBytes calls).used ∧
      (CacheRun.of maxBytes calls).cache.Bounded := by
  suffices kept : ∀ r : CacheRun, r.cache.Consistent r.used → r.cache.Bounded →
      (calls.foldl CacheRun.step r).cache.Consistent (calls.foldl CacheRun.step r).used ∧
        (calls.foldl CacheRun.step r).cache.Bounded from
    kept ⟨.new maxBytes, []⟩ (.new maxBytes) (.inl (Nat.zero_le _))
  induction calls with
  | nil => exact fun r c b => ⟨c, b⟩
  | cons call calls ih =>
    intro r c b
    apply ih
    · cases call with
      | get id => exact c.get
      | insert id data => exact c.insert
      | clear => exact .clear _ _
    · cases call with
      | get id => exact b.get
      | insert id data => exact b.insert c
      | clear => exact .inl (Nat.zero_le _)

/-- After any calls the cache is consistent and bounded, an insertion is found, and its eviction
loop has ended of itself. -/
theorem cache_invariant (maxBytes : Nat) (calls : List CacheCall) :
    let r := CacheRun.of maxBytes calls
    r.cache.currentBytes = r.cache.chunks.totalBytes ∧
    (r.cache.accessOrder.Nodup ∧ r.cache.accessOrder.Perm r.cache.chunks.keys ∧
      r.cache.accessOrder <:+ r.used.dedup) ∧
    (r.cache.currentBytes ≤ r.cache.maxBytes ∨ r.cache.chunkCount = 1) ∧
    (∀ id data, ((r.cache.insert id data).2.get id).1 = some (r.cache.insert id data).1) ∧
    ∀ chunkSize, ∀ fuel ≥ r.cache.accessOrder.length,
      ¬ (r.cache.evict chunkSize fuel).Crowded chunkSize ∧
      r.cache.evict chunkSize fuel = r.cache.evict chunkSize r.cache.accessOrder.length := by
  obtain ⟨c, b⟩ := CacheRun.of_consistent maxBytes calls
  refine ⟨c.bytes, ⟨c.latest.nodup, c.keys, c.latest⟩, b, fun id data => LruState.insert_get, ?_⟩
  intro chunkSize fuel enough
  obtain ⟨-, stopped, -⟩ := c.evict chunkSize enough
  exact ⟨stopped, LruState.evict_fuel _ chunkSize c enough⟩

end OosLite
