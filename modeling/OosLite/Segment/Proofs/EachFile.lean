import OosLite.Segment.Proofs.Recovery

/-!
# What every segment file has

A property of files that a power cut keeps. Renaming, removing and syncing make no new contents, so
settling a compaction and swapping new segments in keep it for all files at once.
-/

namespace OosLite

open Files Effect SegmentStore

variable {faulty : FsOp SegPath → Prop} {fails : Prop}

/-- Every file of a set has a property. -/
def EachFile (covered : SegPath → Prop) (Φ : File → Prop) (fs : Fs SegPath) : Prop :=
  ∀ p f, covered p → fs.file p = some f → Φ f

/-- What a power cut leaves of a file still has the property. -/
def Lasting (Φ : File → Prop) : Prop := ∀ f img, Φ f → f.Survives img → Φ ⟨img, img⟩

/-- All segments are in the set, and the marker is not. -/
structure Covers (covered : SegPath → Prop) : Prop where
  active : ∀ id, covered (.active id)
  old : ∀ id, covered (.old id)
  marker : ¬ covered .marker

namespace EachFile

variable {covered : SegPath → Prop} {Φ : File → Prop} {fs fs' : Fs SegPath}

theorem powerCut (lasting : Lasting Φ) (h : EachFile covered Φ fs) (cut : fs.PowerCut fs') :
    EachFile covered Φ fs' := by
  intro p f hp hf
  cases there : fs.file p with
  | none => rw [cut.absent there] at hf; cases hf
  | some g =>
    obtain ⟨img, survives, same⟩ := cut.present there
    rw [same] at hf
    obtain rfl := Option.some.inj hf
    exact lasting g img (h p g hp there) survives

/-- Renaming, removing and syncing keep the property. -/
theorem inherited (lasting : Lasting Φ) {o : FsOp SegPath} (h : EachFile covered Φ fs)
    (leads : Fs.Leads fs o fs')
    (kind : (∃ p, o = .sync p) ∨ (∃ p, o = .remove p) ∨ (∃ select, o = .removeAll select) ∨
      ∃ source target, o = .rename source target)
    (source : ∀ p q, o = .rename p q → covered p) : EachFile covered Φ fs' := by
  intro q f hq hf
  obtain ⟨p, g, hg, from_, same⟩ := leads.inherited kind hf
  have held : Φ g := by
    rcases from_ with rfl | rename
    · exact h _ g hq hg
    · exact h _ g (source p q rename) hg
  rcases same with rfl | rfl
  · exact held
  · exact lasting g g.data held g.survives_data

theorem untouched (h : EachFile covered Φ fs) {o : FsOp SegPath} (leads : Fs.Leads fs o fs')
    (free : ∀ q, covered q → ¬ Fs.Touches o q) : EachFile covered Φ fs' :=
  fun q f hq hf => h q f hq (by rw [← leads.untouched (free q hq), hf])

end EachFile

/-! ## Operations that keep it -/

/-- A program that keeps a property of the files. -/
abbrev KeepsFiles (faulty : FsOp SegPath → Prop) (fails : Prop) (covered : SegPath → Prop)
    (Φ : File → Prop) {α : Type} (p : SegProg α) : Prop :=
  Proc.Guards OosLiteError.ofIo faulty (SegQuestion.Allowed fails) (EachFile covered Φ) p

namespace KeepsFiles

variable {covered : SegPath → Prop} {Φ : File → Prop}

theorem untouched {o : FsOp SegPath} (free : ∀ q, covered q → ¬ Fs.Touches o q) :
    KeepsFiles faulty fails covered Φ (Proc.fileOp o : SegProg o.Res) :=
  Maintains.fileOp fun _ _ h leads => h.untouched leads free

theorem read (p : SegPath) : KeepsFiles faulty fails covered Φ (Proc.read p : SegProg Bytes) :=
  untouched fun _ _ => not_false

theorem exists? (p : SegPath) :
    KeepsFiles faulty fails covered Φ (Proc.exists? p : SegProg Bool) :=
  untouched fun _ _ => not_false

theorem listIds (select : SegPath → Bool) : KeepsFiles faulty fails covered Φ (listIds select) :=
  Maintains.bind (untouched fun _ _ => not_false) fun _ => .pure _

section Inherited

variable (lasting : Lasting Φ)
include lasting

theorem sync (p : SegPath) : KeepsFiles faulty fails covered Φ (Proc.sync p : SegProg Unit) :=
  Maintains.fileOp fun _ _ h leads =>
    h.inherited lasting leads (.inl ⟨p, rfl⟩) fun _ _ same => by cases same

theorem remove (p : SegPath) : KeepsFiles faulty fails covered Φ (Proc.remove p : SegProg Unit) :=
  Maintains.fileOp fun _ _ h leads =>
    h.inherited lasting leads (.inr (.inl ⟨p, rfl⟩)) fun _ _ same => by cases same

theorem removeAll (select : SegPath → Bool) :
    KeepsFiles faulty fails covered Φ (Proc.removeAll select : SegProg Unit) :=
  Maintains.fileOp fun _ _ h leads =>
    h.inherited lasting leads (.inr (.inr (.inl ⟨select, rfl⟩))) fun _ _ same => by cases same

theorem rename (source : SegPath) (hp : covered source) (target : SegPath) :
    KeepsFiles faulty fails covered Φ (Proc.rename source target : SegProg Unit) :=
  Maintains.fileOp fun _ _ h leads =>
    h.inherited lasting leads (.inr (.inr (.inr ⟨source, target, rfl⟩))) fun p q same => by
      cases same
      exact hp

variable (covers : Covers covered)
include covers

theorem restoreOld (id : Nat) : KeepsFiles faulty fails covered Φ (restoreOld id) :=
  Maintains.bind (exists? _) fun _ => Maintains.bind (.when (remove lasting _)) fun _ =>
    rename lasting (.old id) (covers.old id) _

theorem settle (done : Bool) (ids : List Nat) :
    KeepsFiles faulty fails covered Φ (settle done ids) := by
  rw [SegmentStore.settle]
  have marker : KeepsFiles faulty fails covered Φ (Proc.ignore (Proc.remove .marker) : SegProg Unit) :=
    .ignore (remove lasting _)
  split
  · split
    · exact Maintains.bind (.forEach (fun _ _ _ => .ignore (remove lasting _)) _) fun _ => marker
    · exact Maintains.bind (.forEach (fun _ id _ => restoreOld lasting covers id) _) fun _ => marker
  · exact Maintains.bind (exists? _) fun _ => .when marker

theorem recoverAndIndex {env : Env}
    (segment : ∀ newestId b id, KeepsFiles faulty fails covered Φ (recoverSegment env newestId b id)) :
    KeepsFiles faulty fails covered Φ (recoverAndIndex env) := by
  refine Maintains.bind (.handle (Maintains.bind (read _) fun _ => .pure _) fun _ => .pure _)
    fun done => Maintains.bind (.ignore (removeAll lasting _)) fun _ => Maintains.bind (listIds _)
      fun olds => Maintains.bind (settle lasting covers done olds) fun _ =>
        Maintains.bind (listIds _) fun ids => ?_
  simp only
  split
  · exact .pure _
  · exact .forEach (fun b id _ => segment _ b id) _

/-- Phases 5a and 5b and the marker. -/
theorem swap {x : Compaction} (staged : ∀ id, covered (.staging x.dir id)) :
    KeepsFiles faulty fails covered Φ (swap x) := by
  have marker : KeepsFiles faulty fails covered Φ writeMarker := by
    have free (q : SegPath) (hq : covered q) : q ≠ .marker := fun same => covers.marker (same ▸ hq)
    exact Maintains.bind (untouched free) fun _ => Maintains.bind (untouched free) fun _ =>
      sync lasting _
  have out : KeepsFiles faulty fails covered Φ moveOut :=
    Maintains.bind (listIds _) fun _ =>
      Maintains.bind (.forEach (fun _ id _ => rename lasting (.active id) (covers.active id) _) _)
        fun _ => .pure _
  refine Maintains.bind out fun _ => Maintains.bind ?_ fun _ => Maintains.bind marker fun _ => .pure _
  rw [place]
  split
  · exact Maintains.bind (listIds _) fun _ =>
      Maintains.bind (.forEach (fun _ id _ => rename lasting (.staging x.dir id) (staged id) _) _)
        fun _ => Maintains.bind (.ignore (removeAll lasting _)) fun _ =>
          Maintains.bind (.handle (listIds _) fun _ => .pure _) fun _ =>
            .forEach (fun _ _ _ => .ignore (sync lasting _)) _
  · exact .ignore (removeAll lasting _)

omit covers in
/-- Phase 5c. -/
theorem cleanUp (ids : List Nat) : KeepsFiles faulty fails covered Φ (cleanUp ids) :=
  Maintains.bind (.forEach (fun _ _ _ => .ignore (remove lasting _)) _) fun _ =>
    .ignore (remove lasting _)

end Inherited

end KeepsFiles

end OosLite
