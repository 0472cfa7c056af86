import OosLite.Segment.Store
import Mathlib.Data.Set.Insert

/-!
# What the segment files hold

A segment as a list of records, a layout as the segments by number, and the index that a layout
should have. The files may be behind: of the newest segment only the first records need be on
the medium.
-/

namespace OosLite

open Files Effect

variable {env : Env}

/-- A segment: an accepted header and whole records. -/
structure Segment (env : Env) where
  header : Bytes
  records : List (Bytes × RecordHeader)
  length_header : header.length = segmentHeaderSize
  accepted : ∀ rest, ∃ h, SegmentHeader.readFrom (header ++ rest) = .ok h
  isFrame : ∀ r ∈ records, Framing.IsFrame (nextRecord env) r.1 r.2

namespace Segment

def bytes (seg : Segment env) : Bytes := seg.header ++ Framing.join seg.records

/-- The records with their offsets. -/
def found (seg : Segment env) : List (Nat × RecordHeader) :=
  Framing.locate segmentHeaderSize seg.records

/-- A segment that was just created. -/
def created (env : Env) (h : SegmentHeader) : Segment env where
  header := h.toBytes
  records := []
  length_header := by simp
  accepted := SegmentHeader.readFrom_toBytes h
  isFrame := by simp

/-- The first records of a segment. -/
def take (seg : Segment env) (j : Nat) : Segment env where
  header := seg.header
  records := seg.records.take j
  length_header := seg.length_header
  accepted := seg.accepted
  isFrame r hr := seg.isFrame r (List.mem_of_mem_take hr)

/-- A segment with one record more. -/
def push (seg : Segment env) (record : Bytes) (h : RecordHeader)
    (isFrame : Framing.IsFrame (nextRecord env) record h) : Segment env where
  header := seg.header
  records := seg.records ++ [(record, h)]
  length_header := seg.length_header
  accepted := seg.accepted
  isFrame r hr := by
    rcases List.mem_append.1 hr with hr | hr
    · exact seg.isFrame r hr
    · rw [List.mem_singleton.1 hr]
      exact isFrame

theorem length_bytes (seg : Segment env) :
    seg.bytes.length = segmentHeaderSize + (Framing.join seg.records).length := by
  rw [bytes, List.length_append, seg.length_header]

@[simp] theorem bytes_created (h : SegmentHeader) : (created env h).bytes = h.toBytes := by
  simp [bytes, created]

@[simp] theorem records_created (h : SegmentHeader) : (created env h).records = [] := rfl

@[simp] theorem records_take (seg : Segment env) (j : Nat) :
    (seg.take j).records = seg.records.take j := rfl

theorem take_take (seg : Segment env) (i j : Nat) : (seg.take i).take j = seg.take (min j i) := by
  simp [take, List.take_take]

theorem take_of_length_le {seg : Segment env} {j : Nat} (h : seg.records.length ≤ j) :
    seg.take j = seg := by
  simp [take, List.take_of_length_le h]

@[simp] theorem take_zero_bytes (seg : Segment env) : (seg.take 0).bytes.length =
    segmentHeaderSize := by
  simp [bytes, take, seg.length_header]

section Push

variable (seg : Segment env) (record : Bytes) (h : RecordHeader)
  (isFrame : Framing.IsFrame (nextRecord env) record h)

@[simp] theorem records_push : (seg.push record h isFrame).records = seg.records ++ [(record, h)] :=
  rfl

@[simp] theorem bytes_push : (seg.push record h isFrame).bytes = seg.bytes ++ record := by
  simp [bytes, push]

@[simp] theorem found_push :
    (seg.push record h isFrame).found = seg.found ++ [(seg.bytes.length, h)] := by
  simp [found, push, Framing.locate_append, Framing.locate, length_bytes]

theorem take_push {j : Nat} (hj : j ≤ seg.records.length) :
    (seg.push record h isFrame).take j = seg.take j := by
  simp [take, push, List.take_append_of_le_length hj]

end Push

theorem bytes_take (seg : Segment env) (j : Nat) :
    seg.bytes = (seg.take j).bytes ++ Framing.join (seg.records.drop j) := by
  rw [bytes, bytes, take, List.append_assoc, ← Framing.join_append, List.take_append_drop]

theorem isPrefix_take (seg : Segment env) (j : Nat) : List.IsPrefix (seg.take j).bytes seg.bytes :=
  ⟨_, (seg.bytes_take j).symm⟩

theorem take_mono (seg : Segment env) {i j : Nat} (h : i ≤ j) :
    List.IsPrefix (seg.take i).bytes (seg.take j).bytes := by
  have := (seg.take j).isPrefix_take i
  rwa [take_take, Nat.min_eq_left h] at this

/-- What is left of a segment: its first records, among them all that lie within it, and a
piece that recovery repairs. -/
theorem exists_take {seg : Segment env} {data : Bytes} (part : data <+: seg.bytes)
    (long : segmentHeaderSize ≤ data.length) :
    ∃ j tail, j ≤ seg.records.length ∧ data = (seg.take j).bytes ++ tail ∧
      (tail = [] ∨ ∃ reason, nextRecord env tail = .stop reason ∧ reason.repairable = true) ∧
      ∀ k ≤ seg.records.length, (seg.take k).bytes.length ≤ data.length → k ≤ j := by
  have header : seg.header <+: data :=
    List.prefix_of_prefix_length_le (List.prefix_append _ _) part (seg.length_header.trans_le long)
  obtain ⟨rest, rfl⟩ := header
  obtain ⟨before, tail, after, split, rfl, ends⟩ :=
    Framing.prefix_join ((List.prefix_append_right_inj seg.header).1 part)
  have front : seg.records.take before.length = before := by rw [split, List.take_left]
  refine ⟨before.length, tail, ?_, ?_, ?_, fun k hk within => ?_⟩
  · rw [split, List.length_append]
    omega
  · simp [bytes, take, front]
  · rcases ends with none | ⟨f, later, rfl, piece, short⟩
    · exact .inl none
    · exact .inr (repairable_of_torn (seg.isFrame f (by simp [split])) piece short)
  · by_contra beyond
    -- the record behind the whole ones would have to lie within what is left
    obtain ⟨f, later, rfl⟩ : ∃ f later, after = f :: later := by
      cases after with
      | nil => rw [split, List.append_nil] at hk; omega
      | cons f later => exact ⟨f, later, rfl⟩
    have short : tail.length < f.1.length := by
      rcases ends with rfl | ⟨g, rest, same, -, short⟩
      · exact List.length_pos_iff.2 (seg.isFrame f (by simp [split])).nonempty
      · cases same
        exact short
    have one : seg.records.take (before.length + 1) = before ++ [f] := by
      rw [split, List.take_append]; simp
    have longer := (seg.take_mono (by omega : before.length + 1 ≤ k)).length_le
    rw [length_bytes, records_take, one] at longer
    simp only [Framing.join_append, Framing.join_cons, Framing.join_nil, List.length_append,
      List.length_nil, seg.length_header] at longer within
    omega

end Segment

/-- The segments by number. -/
abbrev Layout (env : Env) := Nat → Option (Segment env)

namespace Layout

/-- All records. -/
def records (L : Layout env) : Set (Bytes × RecordHeader) :=
  {r | ∃ id seg, L id = some seg ∧ r ∈ seg.records}

/-- The index entries of all records. -/
def entries (L : Layout env) : Set (ChunkId × ChunkLocation) :=
  {e | ∃ id seg, L id = some seg ∧ e ∈ seg.found.map (SegmentStore.entry id)}

/-- The layout of an empty directory. -/
def empty : Layout env := fun _ => none

theorem entries_empty : (empty : Layout env).entries = ∅ := by
  ext e
  simp [entries, empty]

theorem records_empty : (empty : Layout env).records = ∅ := by
  ext r
  simp [records, empty]

/-- A layout with one segment replaced or added. -/
def put (L : Layout env) (id : Nat) (seg : Segment env) : Layout env :=
  Function.update L id (some seg)

/-- A layout of whose segment `n` only the first records are left. -/
def cut (L : Layout env) (n j : Nat) : Layout env := fun id =>
  if id = n then (L id).map fun seg => seg.take j else L id

@[simp] theorem put_self (L : Layout env) (id : Nat) (seg : Segment env) :
    L.put id seg id = some seg := Function.update_self ..

theorem put_of_ne (L : Layout env) {id id' : Nat} (seg : Segment env) (h : id' ≠ id) :
    L.put id seg id' = L id' := Function.update_of_ne h ..

theorem put_apply (L : Layout env) (id id' : Nat) (seg : Segment env) :
    L.put id seg id' = if id' = id then some seg else L id' := Function.update_apply ..

theorem put_eq_self {L : Layout env} {id : Nat} {seg : Segment env} (h : L id = some seg) :
    L.put id seg = L := by
  rw [put, ← h, Function.update_eq_self]

theorem cut_of_ne (L : Layout env) {n j id : Nat} (h : id ≠ n) : L.cut n j id = L id := if_neg h

theorem cut_self {L : Layout env} {n : Nat} {seg : Segment env} (h : L n = some seg) (j : Nat) :
    L.cut n j n = some (seg.take j) := by
  rw [cut, if_pos rfl, h]
  rfl

theorem cut_eq_put {L : Layout env} {n : Nat} {seg : Segment env} (h : L n = some seg) (j : Nat) :
    L.cut n j = L.put n (seg.take j) := by
  funext id
  rw [put_apply]
  by_cases hid : id = n
  · subst hid
    rw [cut_self h, if_pos rfl]
  · rw [cut_of_ne L hid, if_neg hid]

theorem cut_cut (L : Layout env) (n i j : Nat) : (L.cut n i).cut n j = L.cut n (min j i) := by
  funext id
  by_cases hid : id = n
  · subst hid
    simp only [cut, if_true, Option.map_map]
    exact congrArg (fun f => (L id).map f) (funext fun seg => seg.take_take i j)
  · simp only [cut_of_ne _ hid]

theorem cut_of_length_le {L : Layout env} {n j : Nat}
    (h : ∀ seg, L n = some seg → seg.records.length ≤ j) : L.cut n j = L := by
  funext id
  by_cases hid : id = n
  · subst hid
    cases hL : L id with
    | none => rw [cut, if_pos rfl, hL]; rfl
    | some seg => rw [cut_self hL, Segment.take_of_length_le (h seg hL)]
  · exact cut_of_ne L hid

theorem records_cut_mono (L : Layout env) (n : Nat) {i j : Nat} (h : i ≤ j) :
    (L.cut n i).records ⊆ (L.cut n j).records := by
  rintro r ⟨id, seg, hseg, hr⟩
  by_cases hid : id = n
  · subst hid
    cases hL : L id with
    | none => rw [cut, if_pos rfl, hL] at hseg; cases hseg
    | some seg₀ =>
      rw [cut_self hL] at hseg
      obtain rfl := Option.some.inj hseg
      exact ⟨id, _, cut_self hL j, (List.take_subset_take_left _ h) hr⟩
  · rw [cut_of_ne L hid] at hseg
    exact ⟨id, seg, by rwa [cut_of_ne L hid], hr⟩

theorem records_cut_subset (L : Layout env) (n j : Nat) : (L.cut n j).records ⊆ L.records := by
  rintro r ⟨id, seg, hseg, hr⟩
  by_cases hid : id = n
  · subst hid
    cases hL : L id with
    | none => rw [cut, if_pos rfl, hL] at hseg; cases hseg
    | some seg₀ =>
      rw [cut_self hL] at hseg
      obtain rfl := Option.some.inj hseg
      exact ⟨id, seg₀, hL, List.mem_of_mem_take hr⟩
  · rw [cut_of_ne L hid] at hseg
    exact ⟨id, seg, hseg, hr⟩

/-- A new segment without records adds none. -/
theorem records_put_created {L : Layout env} {n : Nat} (h : SegmentHeader) (free : L n = none) :
    (L.put n (.created env h)).records = L.records := by
  ext r
  constructor
  · rintro ⟨id, seg, hseg, hr⟩
    rw [put_apply] at hseg
    split at hseg
    · obtain rfl := Option.some.inj hseg
      simp at hr
    · exact ⟨id, seg, hseg, hr⟩
  · rintro ⟨id, seg, hseg, hr⟩
    refine ⟨id, seg, ?_, hr⟩
    rw [put_apply, if_neg (fun same => by rw [same, free] at hseg; cases hseg)]
    exact hseg

theorem cut_put_created (L : Layout env) (n j : Nat) (h : SegmentHeader) :
    (L.put n (.created env h)).cut n j = L.put n (.created env h) := by
  refine cut_of_length_le fun seg hseg => ?_
  rw [put_self] at hseg
  rw [← Option.some.inj hseg]
  exact Nat.zero_le _

theorem records_put_push {L : Layout env} {n : Nat} {seg : Segment env} (hL : L n = some seg)
    (record : Bytes) (h : RecordHeader) (isFrame : Framing.IsFrame (nextRecord env) record h) :
    (L.put n (seg.push record h isFrame)).records = insert (record, h) L.records := by
  ext r
  constructor
  · rintro ⟨id, seg', hseg, hr⟩
    rw [put_apply] at hseg
    split at hseg
    · obtain rfl := Option.some.inj hseg
      rcases List.mem_append.1 hr with hr | hr
      · exact .inr ⟨n, seg, hL, hr⟩
      · exact .inl (List.mem_singleton.1 hr)
    · exact .inr ⟨id, seg', hseg, hr⟩
  · rintro (rfl | ⟨id, seg', hseg, hr⟩)
    · exact ⟨n, _, put_self .., by simp⟩
    · by_cases hid : id = n
      · subst hid
        obtain rfl := Option.some.inj (hL.symm.trans hseg)
        exact ⟨id, _, put_self .., by simp [hr]⟩
      · exact ⟨id, seg', by rwa [put_of_ne _ _ hid], hr⟩

end Layout

/-! ## The index of a layout -/

/-- The order in which records are indexed. -/
def ChunkLocation.Before (a b : ChunkLocation) : Prop :=
  a.segmentId < b.segmentId ∨ a.segmentId = b.segmentId ∧ a.recordOffset < b.recordOffset

theorem ChunkLocation.Before.asymm {a b : ChunkLocation} (h : a.Before b) : ¬ b.Before a := by
  rcases h with h | ⟨h, h'⟩ <;> rintro (g | ⟨g, g'⟩) <;> omega

/-- The last entry for a chunk. -/
structure Latest (E : Set (ChunkId × ChunkLocation)) (c : ChunkId) (loc : ChunkLocation) :
    Prop where
  mem : (c, loc) ∈ E
  last : ∀ loc', (c, loc') ∈ E → loc' = loc ∨ loc'.Before loc

theorem Latest.unique {E : Set (ChunkId × ChunkLocation)} {c : ChunkId} {a b : ChunkLocation}
    (ha : Latest E c a) (hb : Latest E c b) : a = b := by
  rcases hb.last a ha.mem with same | before
  · exact same
  · rcases ha.last b hb.mem with same | before'
    · exact same.symm
    · exact absurd before' before.asymm

/-- The index that inserting the entries in order gives. -/
structure IndexOf (E : Set (ChunkId × ChunkLocation)) (index : SegmentIndex) : Prop where
  latest : ∀ c loc, index[c]? = some loc → Latest E c loc
  complete : ∀ c loc, (c, loc) ∈ E → ∃ loc', index[c]? = some loc'

namespace IndexOf

variable {E : Set (ChunkId × ChunkLocation)} {index : SegmentIndex}

theorem empty : IndexOf ∅ ∅ where
  latest c loc h := by simp at h
  complete c loc h := h.elim

theorem insert (h : IndexOf E index) {c : ChunkId} {loc : ChunkLocation}
    (after : ∀ e ∈ E, e.2.Before loc) :
    IndexOf (Insert.insert (c, loc) E) (index.insert c loc) where
  latest c' loc' found := by
    rw [Std.ExtTreeMap.getElem?_insert] at found
    split at found
    · rename_i same
      obtain rfl := Std.LawfulEqOrd.eq_of_compare same
      obtain rfl := Option.some.inj found
      refine ⟨.inl rfl, fun other hother => ?_⟩
      rcases hother with hother | hother
      · exact .inl (Prod.mk.inj hother).2
      · exact .inr (after _ hother)
    · rename_i differ
      have old := h.latest c' loc' found
      refine ⟨.inr old.mem, fun other hother => ?_⟩
      rcases hother with hother | hother
      · obtain ⟨rfl, -⟩ := Prod.mk.inj hother
        exact absurd Std.ReflOrd.compare_self differ
      · exact old.last other hother
  complete c' loc' hmem := by
    rw [Std.ExtTreeMap.getElem?_insert]
    split
    · exact ⟨loc, rfl⟩
    · rename_i differ
      rcases hmem with same | hmem
      · obtain ⟨rfl, -⟩ := Prod.mk.inj same
        exact absurd Std.ReflOrd.compare_self differ
      · exact h.complete c' loc' hmem

theorem insertAll (h : IndexOf E index) {es : List (ChunkId × ChunkLocation)}
    (sorted : es.Pairwise fun x y => x.2.Before y.2) (after : ∀ e ∈ E, ∀ e' ∈ es, e.2.Before e'.2) :
    IndexOf (E ∪ {e | e ∈ es}) (SegmentStore.insertAll index es) := by
  induction es generalizing E index with
  | nil =>
    have same : E ∪ {e | e ∈ ([] : List (ChunkId × ChunkLocation))} = E := by ext; simp
    rw [same]
    exact h
  | cons e es ih =>
    obtain ⟨first, rest⟩ := List.pairwise_cons.1 sorted
    have step := h.insert (c := e.1) fun e' he' => after e' he' e (by simp)
    have same : E ∪ {x | x ∈ e :: es} = Insert.insert e E ∪ {x | x ∈ es} := by
      ext x
      simp only [Set.mem_union, Set.mem_ofPred_eq, List.mem_cons, Set.mem_insert_iff]
      tauto
    rw [same]
    refine ih step rest fun x hx y hy => ?_
    rcases hx with rfl | hx
    · exact first y hy
    · exact after x hx y (List.mem_cons_of_mem _ hy)

theorem contains_iff (h : IndexOf E index) (c : ChunkId) :
    index.contains c = true ↔ ∃ loc, (c, loc) ∈ E := by
  rw [← Std.ExtTreeMap.isSome_getElem?_eq_contains, Option.isSome_iff_exists]
  constructor
  · rintro ⟨loc, found⟩
    exact ⟨loc, (h.latest c loc found).mem⟩
  · rintro ⟨loc, found⟩
    exact h.complete c loc found

end IndexOf

namespace Segment

/-- The entries of a segment are in order. -/
theorem pairwise_entries (seg : Segment env) (id : Nat) :
    (seg.found.map (SegmentStore.entry id)).Pairwise fun x y => x.2.Before y.2 := by
  rw [List.pairwise_map]
  exact (Framing.pairwise_locate fun f hf => (seg.isFrame f hf).nonempty).imp
    fun h => .inr ⟨rfl, h⟩

end Segment

namespace Layout

theorem segmentId_of_mem {id : Nat} {seg : Segment env} {e : ChunkId × ChunkLocation}
    (h : e ∈ seg.found.map (SegmentStore.entry id)) : e.2.segmentId = id := by
  obtain ⟨x, -, rfl⟩ := List.mem_map.1 h
  rfl

theorem mem_entries {L : Layout env} {e : ChunkId × ChunkLocation} :
    e ∈ L.entries ↔ ∃ seg, L e.2.segmentId = some seg ∧
      e ∈ seg.found.map (SegmentStore.entry e.2.segmentId) := by
  constructor
  · rintro ⟨id, seg, hseg, he⟩
    obtain rfl := segmentId_of_mem he
    exact ⟨seg, hseg, he⟩
  · rintro ⟨seg, hseg, he⟩
    exact ⟨_, seg, hseg, he⟩

/-- The chunks that have a record. -/
def Has (L : Layout env) (c : ChunkId) : Prop := ∃ r ∈ L.records, r.2.chunkId = c

theorem has_iff {L : Layout env} {c : ChunkId} : L.Has c ↔ ∃ loc, (c, loc) ∈ L.entries := by
  constructor
  · rintro ⟨r, ⟨id, seg, hseg, hr⟩, rfl⟩
    have : r.2 ∈ seg.found.map Prod.snd := by
      rw [Segment.found, Framing.locate_map_snd]
      exact List.mem_map_of_mem hr
    obtain ⟨x, hx, same⟩ := List.mem_map.1 this
    refine ⟨(SegmentStore.entry id x).2, id, seg, hseg, List.mem_map.2 ⟨x, hx, ?_⟩⟩
    rw [← same]
    rfl
  · rintro ⟨loc, id, seg, hseg, he⟩
    obtain ⟨x, hx, same⟩ := List.mem_map.1 he
    obtain ⟨before, bytes, after, split, -⟩ := Framing.mem_locate hx
    refine ⟨(bytes, x.2), ⟨id, seg, hseg, by simp [split]⟩, ?_⟩
    exact congrArg Prod.fst same

theorem Has.mono {L L' : Layout env} {c : ChunkId} (h : L.Has c)
    (sub : L.records ⊆ L'.records) : L'.Has c := by
  obtain ⟨r, hr, rfl⟩ := h
  exact ⟨r, sub hr, rfl⟩

/-- Reading a chunk through its last record gives `d`. -/
def Reads (L : Layout env) (c : ChunkId) (d : Bytes) : Prop :=
  ∃ loc seg, Latest L.entries c loc ∧ L loc.segmentId = some seg ∧
    readRecord env seg.bytes c loc = .ok d

end Layout

/-! ## How appending changes a layout -/

namespace Layout

theorem entries_put_created {L : Layout env} {n : Nat} (h : SegmentHeader) (free : L n = none) :
    (L.put n (.created env h)).entries = L.entries := by
  ext e
  constructor
  · rintro ⟨id, seg, hseg, he⟩
    rw [put_apply] at hseg
    split at hseg
    · obtain rfl := Option.some.inj hseg
      simp [Segment.found, Framing.locate] at he
    · exact ⟨id, seg, hseg, he⟩
  · rintro ⟨id, seg, hseg, he⟩
    refine ⟨id, seg, ?_, he⟩
    rw [put_apply, if_neg (fun same => by rw [same, free] at hseg; cases hseg)]
    exact hseg

theorem entries_put_push {L : Layout env} {n : Nat} {seg : Segment env} (hL : L n = some seg)
    (record : Bytes) (h : RecordHeader) (isFrame : Framing.IsFrame (nextRecord env) record h) :
    (L.put n (seg.push record h isFrame)).entries =
      insert (SegmentStore.entry n (seg.bytes.length, h)) L.entries := by
  ext e
  constructor
  · rintro ⟨id, seg', hseg, he⟩
    rw [put_apply] at hseg
    split at hseg
    · rename_i same
      subst same
      obtain rfl := Option.some.inj hseg
      rw [Segment.found_push, List.map_append] at he
      rcases List.mem_append.1 he with he | he
      · exact .inr ⟨id, seg, hL, he⟩
      · exact .inl (List.mem_singleton.1 he)
    · exact .inr ⟨id, seg', hseg, he⟩
  · rintro (rfl | ⟨id, seg', hseg, he⟩)
    · exact ⟨n, _, put_self .., by simp⟩
    · by_cases hid : id = n
      · subst hid
        obtain rfl := Option.some.inj (hL.symm.trans hseg)
        refine ⟨id, _, put_self .., ?_⟩
        rw [Segment.found_push, List.map_append]
        exact List.mem_append_left _ he
      · exact ⟨id, seg', by rwa [put_of_ne _ _ hid], he⟩

/-- A record at the end of the newest segment comes after all others. -/
theorem before_end {L : Layout env} {n : Nat} {seg : Segment env} (hL : L n = some seg)
    (last : ∀ id, n < id → L id = none) {e : ChunkId × ChunkLocation} (he : e ∈ L.entries)
    {loc : ChunkLocation} (number : loc.segmentId = n) (offset : loc.recordOffset = seg.bytes.length) :
    e.2.Before loc := by
  obtain ⟨seg', hseg', hmem⟩ := mem_entries.1 he
  by_cases same : e.2.segmentId = n
  · rw [same] at hseg' hmem
    obtain rfl := Option.some.inj (hL.symm.trans hseg')
    obtain ⟨x, hx, rfl⟩ := List.mem_map.1 hmem
    have := (Framing.locate_bounds (fun f hf => (seg.isFrame f hf).nonempty) hx).2
    refine .inr ⟨number.symm, ?_⟩
    rw [offset, Segment.length_bytes]
    exact this
  · refine .inl ?_
    rw [number]
    by_contra above
    rw [last _ (by omega)] at hseg'
    cases hseg'

end Layout

/-! ## Records of known chunks -/

/-- A record that gives back data `V` knows for its chunk, wherever it lies. -/
def Stores (env : Env) (V : ChunkId → Bytes → Prop) (r : Bytes × RecordHeader) : Prop :=
  ∃ d, V r.2.chunkId d ∧ ∀ (before after : Bytes) (loc : ChunkLocation),
    loc.recordOffset = before.length → loc.payloadLen = r.2.payloadLen →
      readRecord env (before ++ (r.1 ++ after)) r.2.chunkId loc = .ok d

theorem Stores.mono {V W : ChunkId → Bytes → Prop} {r : Bytes × RecordHeader}
    (h : Stores env V r) (le : ∀ d, V r.2.chunkId d → W r.2.chunkId d) : Stores env W r := by
  obtain ⟨d, known, reads⟩ := h
  exact ⟨d, le d known, reads⟩

/-- Every record of a layout gives back data `V` knows. -/
def Sound (V : ChunkId → Bytes → Prop) (L : Layout env) : Prop := ∀ r ∈ L.records, Stores env V r

/-- A record is read through its entry, whatever is behind its segment. -/
theorem Sound.read_append {V : ChunkId → Bytes → Prop} {L : Layout env} (sound : Sound V L)
    {c : ChunkId} {loc : ChunkLocation} (hmem : (c, loc) ∈ L.entries) :
    ∃ seg d, L loc.segmentId = some seg ∧ V c d ∧
      ∀ rest, readRecord env (seg.bytes ++ rest) c loc = .ok d := by
  obtain ⟨seg, hseg, he⟩ := Layout.mem_entries.1 hmem
  obtain ⟨x, hx, same⟩ := List.mem_map.1 he
  obtain ⟨rfl, hloc⟩ := Prod.mk.inj same
  obtain ⟨before, bytes, after, split, offset⟩ := Framing.mem_locate hx
  obtain ⟨d, known, reads⟩ := sound (bytes, x.2) ⟨_, seg, hseg, by simp [split]⟩
  refine ⟨seg, d, hseg, known, fun rest => ?_⟩
  have content : seg.bytes ++ rest = (seg.header ++ Framing.join before) ++
      (bytes ++ (Framing.join after ++ rest)) := by
    simp [Segment.bytes, split]
  rw [content]
  refine reads _ _ loc ?_ ?_
  · rw [← hloc, List.length_append, seg.length_header]
    exact offset
  · rw [← hloc]

theorem Sound.read {V : ChunkId → Bytes → Prop} {L : Layout env} (sound : Sound V L) {c : ChunkId}
    {loc : ChunkLocation} (hmem : (c, loc) ∈ L.entries) :
    ∃ seg d, L loc.segmentId = some seg ∧ V c d ∧ readRecord env seg.bytes c loc = .ok d := by
  obtain ⟨seg, d, hseg, known, reads⟩ := sound.read_append hmem
  exact ⟨seg, d, hseg, known, by simpa using reads []⟩

theorem Sound.reads {V : ChunkId → Bytes → Prop} {L : Layout env} (sound : Sound V L) {c : ChunkId}
    {loc : ChunkLocation} (latest : Latest L.entries c loc) : ∃ d, V c d ∧ L.Reads c d := by
  obtain ⟨seg, d, hseg, known, ok⟩ := sound.read latest.mem
  exact ⟨d, known, loc, seg, latest, hseg, ok⟩

/-- The record that `append_chunk` writes gives back the chunk. -/
theorem stores_chunkRecord {V : ChunkId → Bytes → Prop} {data : Bytes} (nonce : Nonce)
    (fits : Fits env data) (known : V (ChunkId.fromData env data) data) :
    Stores env V (chunkRecordBytes env (ChunkId.fromData env data) data nonce,
      (chunkRecord env (ChunkId.fromData env data) data nonce).1) :=
  ⟨data, known, fun before after _ offset len =>
    readRecord_chunkRecordBytes nonce fits before after offset len⟩

end OosLite
