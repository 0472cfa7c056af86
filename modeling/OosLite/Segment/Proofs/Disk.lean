import OosLite.Segment.Layout
import Mathlib.Data.List.MinMax

/-!
# Directories a store can be opened from

The active files hold a layout, of whose newest segment the end may be missing; or a compaction
stopped on its way, and the old segments are all there under one name or the other.
-/

namespace OosLite

open Files Effect

variable {env : Env}

/-- A segment that is on the medium. -/
def Segment.whole (seg : Segment env) : File := ⟨seg.bytes, seg.bytes⟩

/-- A file that holds a part of a segment, and its first `k` records if there are any to hold. -/
structure Partly (f : File) (seg : Segment env) (k : Nat) : Prop where
  durable : f.durable <+: seg.bytes
  data : f.data <+: seg.bytes
  kept : 0 < k → (seg.take k).bytes <+: f.durable ∧ (seg.take k).bytes <+: f.data
  bound : k ≤ seg.records.length

theorem Partly.survives {f : File} {seg : Segment env} {k : Nat} (h : Partly f seg k) {img : Bytes}
    (hi : f.Survives img) : Partly ⟨img, img⟩ seg k := by
  have part : img <+: seg.bytes := hi.1.elim (·.trans h.durable) (·.trans h.data)
  refine ⟨part, part, fun pos => ?_, h.bound⟩
  obtain ⟨durable, data⟩ := h.kept pos
  exact ⟨hi.2 _ durable data, hi.2 _ durable data⟩

theorem Partly.whole (seg : Segment env) {k : Nat} (bound : k ≤ seg.records.length) :
    Partly seg.whole seg k :=
  ⟨List.prefix_rfl, List.prefix_rfl, fun _ => ⟨seg.isPrefix_take k, seg.isPrefix_take k⟩, bound⟩

/-- The files hold exactly the segments of a layout, and they are on the medium. -/
def Exactly (path : Nat → SegPath) (fs : Fs SegPath) (L : Layout env) : Prop :=
  ∀ id, fs.file (path id) = (L id).map Segment.whole

/-- The files hold the segments of a layout; of the newest one part may be missing, or not yet
on the medium. -/
structure OnDisk (path : Nat → SegPath) (fs : Fs SegPath) (L : Layout env) (n k : Nat) : Prop where
  sealed : ∀ id, id ≠ n → fs.file (path id) = (L id).map Segment.whole
  absent : L n = none → fs.file (path n) = none
  newest : ∀ seg, L n = some seg → ∃ f, fs.file (path n) = some f ∧ Partly f seg k
  last : ∀ id, n < id → L id = none

theorem Fs.file_powerCut_whole {fs fs' : Fs SegPath} (cut : fs.PowerCut fs') {p : SegPath}
    {o : Option (Segment env)} (h : fs.file p = o.map Segment.whole) :
    fs'.file p = o.map Segment.whole := by
  cases o with
  | none => exact cut.absent h
  | some seg => exact cut.synced h rfl

section Power

variable {path : Nat → SegPath} {fs fs' : Fs SegPath} {L : Layout env} {n k : Nat}

theorem Exactly.powerCut (h : Exactly path fs L) (cut : fs.PowerCut fs') : Exactly path fs' L :=
  fun id => Fs.file_powerCut_whole cut (h id)

theorem OnDisk.powerCut (h : OnDisk path fs L n k) (cut : fs.PowerCut fs') :
    OnDisk path fs' L n k where
  sealed id hid := Fs.file_powerCut_whole cut (h.sealed id hid)
  absent none := cut.absent (h.absent none)
  newest seg hseg := by
    obtain ⟨f, hf, part⟩ := h.newest seg hseg
    obtain ⟨img, survives, there⟩ := cut.present hf
    exact ⟨_, there, part.survives survives⟩
  last := h.last

/-- There is a newest file, if there is any. -/
theorem Exactly.exists_last (h : Exactly path fs L) (number : ∀ id, (path id).id = id) :
    ∃ n, ∀ id, n < id → L id = none := by
  refine ⟨((fs.listing fun _ => true).map SegPath.id).foldr max 0, fun id above => ?_⟩
  by_contra present
  obtain ⟨seg, hseg⟩ := Option.ne_none_iff_exists'.1 present
  have listed : path id ∈ fs.listing fun _ => true :=
    (fs.mem_listing _ _).2 ⟨by rw [h id, hseg]; rfl, rfl⟩
  have := List.le_max_of_le' 0 (List.mem_map_of_mem (f := SegPath.id) listed) (Nat.le_refl _)
  rw [number] at this
  omega

theorem Exactly.onDisk (h : Exactly path fs L) {n : Nat} (last : ∀ id, n < id → L id = none)
    {k : Nat} (bound : ∀ seg, L n = some seg → k ≤ seg.records.length) :
    OnDisk path fs L n k where
  sealed id _ := h id
  absent none := by rw [h n, none]; rfl
  newest seg hseg := ⟨_, by rw [h n, hseg]; rfl, Partly.whole seg (bound seg hseg)⟩
  last := last

/-- Only the newest file changed. -/
theorem OnDisk.replace {seg : Segment env} {f : File} (h : OnDisk path fs L n k)
    (inj : ∀ id, path id = path n → id = n) (hseg : L n = some seg)
    (others : ∀ p, p ≠ path n → fs'.file p = fs.file p) (hf : fs'.file (path n) = some f)
    {k' : Nat} (part : Partly f seg k') : OnDisk path fs' L n k' where
  sealed id hid := by
    rw [others _ fun same => hid (inj id same)]
    exact h.sealed id hid
  absent none := by rw [hseg] at none; cases none
  newest seg' hseg' := by
    obtain rfl := Option.some.inj (hseg.symm.trans hseg')
    exact ⟨f, hf, part⟩
  last := h.last

theorem OnDisk.congr (same : ∀ id, fs'.file (path id) = fs.file (path id))
    (h : OnDisk path fs L n k) : OnDisk path fs' L n k where
  sealed id hid := (same id).trans (h.sealed id hid)
  absent none := (same n).trans (h.absent none)
  newest seg hseg := by
    rw [same n]
    exact h.newest seg hseg
  last := h.last

end Power

/-! ## Compactions on their way -/

/-- The marker is complete. -/
def MarkerDone (fs : Fs SegPath) : Prop :=
  fs.file .marker = some ⟨SegmentStore.compactDone, SegmentStore.compactDone⟩

/-- No restart finds the marker complete. -/
def Unmarked (fs : Fs SegPath) : Prop :=
  ∀ f img, fs.file .marker = some f → f.Survives img → img ≠ SegmentStore.compactDone

/-- There are no old segments, or they may go. -/
def Quiet (fs : Fs SegPath) : Prop := (∀ id, fs.file (.old id) = none) ∨ MarkerDone fs

/-- A segment file that is too short for its header. -/
def Dead (fs : Fs SegPath) : Prop :=
  ∃ id f, fs.file (.active id) = some f ∧ f.data.length < segmentHeaderSize

/-- A compaction on its way from the segments `O` to the segments `N`: each old segment is there
under one of its names, and all other active files are new segments. -/
structure Swapping (fs : Fs SegPath) (O N : Layout env) : Prop where
  unmarked : Unmarked fs
  old : ∀ id seg, O id = some seg →
    fs.file (.old id) = some seg.whole ∧
      (fs.file (.active id) = none ∨ fs.file (.active id) = (N id).map Segment.whole) ∨
    fs.file (.old id) = none ∧ fs.file (.active id) = some seg.whole
  new : ∀ id, O id = none → fs.file (.old id) = none ∧
    (fs.file (.active id) = none ∨ fs.file (.active id) = (N id).map Segment.whole)

/-- The old segments, and some new ones at other numbers. -/
def Overlay (O N L : Layout env) : Prop :=
  ∀ id, (∀ seg, O id = some seg → L id = some seg) ∧ (O id = none → L id = none ∨ L id = N id)

/-- A directory from which recovery gets to a layout with the property `P`. -/
inductive Recoverable (fs : Fs SegPath) (P : Layout env → Prop) : Prop
  | settled (L : Layout env) (n k : Nat) : Quiet fs → OnDisk .active fs L n k →
      (∀ j, k ≤ j → P (L.cut n j)) → Recoverable fs P
  | swapping (O N : Layout env) : Swapping fs O N → (∀ L, Overlay O N L → P L) → Recoverable fs P

section Power

variable {fs fs' : Fs SegPath}

theorem MarkerDone.powerCut (h : MarkerDone fs) (cut : fs.PowerCut fs') : MarkerDone fs' :=
  cut.synced h rfl

theorem Unmarked.powerCut (h : Unmarked fs) (cut : fs.PowerCut fs') : Unmarked fs' := by
  intro f img hf survives
  cases hm : fs.file .marker with
  | none =>
    rw [cut.absent hm] at hf
    cases hf
  | some f₀ =>
    obtain ⟨img₀, survives₀, there⟩ := cut.present hm
    obtain rfl := Option.some.inj (there.symm.trans hf)
    rw [File.survives_synced (f := ⟨img₀, img₀⟩) rfl survives]
    exact h f₀ img₀ hm survives₀

theorem Quiet.powerCut (h : Quiet fs) (cut : fs.PowerCut fs') : Quiet fs' :=
  h.imp (fun none id => cut.absent (none id)) (·.powerCut cut)

theorem Swapping.powerCut {O N : Layout env} (h : Swapping fs O N) (cut : fs.PowerCut fs') :
    Swapping fs' O N where
  unmarked := h.unmarked.powerCut cut
  old id seg hseg := by
    rcases h.old id seg hseg with ⟨old, active⟩ | ⟨old, active⟩
    · exact .inl ⟨cut.synced old rfl, active.imp cut.absent (Fs.file_powerCut_whole cut)⟩
    · exact .inr ⟨cut.absent old, cut.synced active rfl⟩
  new id none := by
    obtain ⟨old, active⟩ := h.new id none
    exact ⟨cut.absent old, active.imp cut.absent (Fs.file_powerCut_whole cut)⟩

theorem Recoverable.powerCut {P : Layout env → Prop} (h : Recoverable fs P)
    (cut : fs.PowerCut fs') : Recoverable fs' P := by
  cases h with
  | settled L n k quiet disk all => exact .settled L n k (quiet.powerCut cut) (disk.powerCut cut) all
  | swapping O N swapping all => exact .swapping O N (swapping.powerCut cut) all

end Power

theorem Recoverable.mono {fs : Fs SegPath} {P Q : Layout env → Prop} (h : Recoverable fs P)
    (le : ∀ L, P L → Q L) : Recoverable fs Q := by
  cases h with
  | settled L n k quiet disk all => exact .settled L n k quiet disk fun j hj => le _ (all j hj)
  | swapping O N swapping all => exact .swapping O N swapping fun L hL => le _ (all L hL)

/-- What a crash must leave: however much of the unsynced bytes survives, recovery gets to `P`. -/
def CrashSafe (P : Layout env → Prop) (s : SegState) : Prop :=
  ∀ fs, s.fs.PowerCut fs → Recoverable fs P

theorem Recoverable.crashSafe {P : Layout env → Prop} {s : SegState} (h : Recoverable s.fs P) :
    CrashSafe P s := fun _ cut => h.powerCut cut

theorem CrashSafe.mono {P Q : Layout env → Prop} {s : SegState} (h : CrashSafe P s)
    (le : ∀ L, P L → Q L) : CrashSafe Q s := fun fs cut => (h fs cut).mono le

/-- Once every old segment is back, what is there is an overlay. -/
theorem Swapping.exactly {fs : Fs SegPath} {O N : Layout env} (h : Swapping fs O N)
    (noOld : ∀ id, fs.file (.old id) = none) : ∃ L, Overlay O N L ∧ Exactly .active fs L := by
  have each (id : Nat) : ∃ o : Option (Segment env), (∀ seg, O id = some seg → o = some seg) ∧
      (O id = none → o = none ∨ o = N id) ∧
      fs.file (.active id) = o.map Segment.whole := by
    cases hO : O id with
    | some seg =>
      rcases h.old id seg hO with ⟨old, -⟩ | ⟨-, active⟩
      · rw [noOld id] at old
        cases old
      · exact ⟨some seg, fun _ same => same, nofun, active⟩
    | none =>
      rcases (h.new id hO).2 with gone | active
      · exact ⟨none, nofun, fun _ => .inl rfl, gone⟩
      · exact ⟨N id, nofun, fun _ => .inr rfl, active⟩
  choose L hL using each
  exact ⟨L, fun id => ⟨(hL id).1, (hL id).2.1⟩, fun id => (hL id).2.2⟩

end OosLite
