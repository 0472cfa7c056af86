import OosLite.Segment.Proofs.Chunks
import OosLite.Segment.Proofs.Headers
import OosLite.Lib.Execution
import OosLite.Reference
import Mathlib.Data.Set.Image

/-!
# Reopening a store after a crash

A process opens a store, uses it and is stopped at any point, again and again. When does the
store open, and which chunks does it have then?
-/

namespace OosLite

open Files Effect SegmentStore

/-- The operations of a running store. -/
inductive StoreOp where
  | put (data : Bytes)
  | sync
  | rotate
  | compact (reachable : ChunkId → Bool)

/-- What is remembered of the data that was put: all of it, what has not been reclaimed, and of
this what is synced. -/
structure History where
  puts : Set Bytes
  held : Set Bytes
  synced : Set Bytes

/-- A store that runs, or whose process has stopped. -/
inductive StorePhase where
  | running (s : SegState)
  | down (fs : Fs SegPath)

structure StoreRun where
  phase : StorePhase
  history : History

inductive StoreAct where
  | opened
  | openCrashed
  | op (o : StoreOp)
  | crashed (o : StoreOp)
  | powerCut
  | closed

/-- Only power cuts go wrong. -/
abbrev steady := segMachine fun _ => False

section Runs

variable (env : Env)

namespace StoreOp

def run : StoreOp → SegProg Unit
  | put data => do let _ ← putChunk env data
  | sync => SegmentStore.sync
  | rotate => SegmentWriter.rotate .own
  | compact reachable => do let _ ← compactAndReclaim env reachable

/-- What is remembered once an operation has returned. -/
def after (g : History) : StoreOp → Result Unit → History
  | put data, .ok _ => { g with puts := insert data g.puts, held := insert data g.held }
  | put data, .error _ => { g with puts := insert data g.puts }
  | sync, .ok _ => { g with synced := g.held }
  | compact reachable, .ok _ =>
    { g with
      held := {d | d ∈ g.held ∧ reachable (ChunkId.fromData env d) = true}
      synced := {d | d ∈ g.held ∧ reachable (ChunkId.fromData env d) = true} }
  | _, _ => g

/-- What is remembered when an operation was stopped: the synced data that it does not reclaim. -/
def lost (g : History) : StoreOp → History
  | put data => { g with puts := insert data g.puts, held := g.synced }
  | sync | rotate => { g with held := g.synced }
  | compact reachable =>
    { g with
      held := {d | d ∈ g.synced ∧ reachable (ChunkId.fromData env d) = true}
      synced := {d | d ∈ g.synced ∧ reachable (ChunkId.fromData env d) = true} }

/-- What is put is read back when it is within the limit of `read_chunk`. -/
def Within : StoreOp → Prop
  | put data => Fits env data
  | _ => True

end StoreOp

inductive StoreStep : StoreRun → StoreAct → StoreRun → Prop where
  | opened {fs g maxSegmentSize mem s} :
      Returns steady (openStore env maxSegmentSize) ⟨fs, mem⟩ (.ok ()) s →
      StoreStep ⟨.down fs, g⟩ .opened ⟨.running s, g⟩
  | openCrashed {fs g maxSegmentSize mem s fs'} :
      Crashes steady (openStore env maxSegmentSize) ⟨fs, mem⟩ s → s.fs.PowerCut fs' →
      StoreStep ⟨.down fs, g⟩ .openCrashed ⟨.down fs', g⟩
  | op {s g o r s'} : Returns steady (o.run env) s r s' →
      StoreStep ⟨.running s, g⟩ (.op o) ⟨.running s', o.after env g r⟩
  | crashed {s g o s' fs} : Crashes steady (o.run env) s s' → s'.fs.PowerCut fs →
      StoreStep ⟨.running s, g⟩ (.crashed o) ⟨.down fs, o.lost env g⟩
  | powerCut {s g fs} : s.fs.PowerCut fs →
      StoreStep ⟨.running s, g⟩ .powerCut ⟨.down fs, { g with held := g.synced }⟩
  | closed {s g} : StoreStep ⟨.running s, g⟩ .closed ⟨.down s.fs, { g with held := g.synced }⟩

/-- The runs from an empty directory whose steps all meet a condition. -/
inductive StoreReachable (allowed : StoreRun → StoreAct → Prop) : StoreRun → Prop where
  | start : StoreReachable allowed ⟨.down ⟨∅, fun _ => 0⟩, ⟨∅, ∅, ∅⟩⟩
  | step {run act run'} : StoreReachable allowed run → StoreStep env run act run' →
      allowed run act → StoreReachable allowed run'

/-- No two of these data have one identifier. -/
def NoCollision (data : Set Bytes) : Prop := Set.InjOn (ChunkId.fromData env) data

/-- Reading the chunk of some data gives data that was put under its identifier. -/
def History.Original (g : History) (d : Bytes) (r : Result Bytes) : Prop :=
  ∃ e ∈ g.puts, r = .ok e ∧ ChunkId.fromData env e = ChunkId.fromData env d ∧
    (NoCollision env g.puts → e = d)

/-- A store opens, and every synced chunk gives back its data. -/
def Reopens (g : History) (fs : Fs SegPath) : Prop :=
  ∀ maxSegmentSize mem, Ends steady (openStore env maxSegmentSize) ⟨fs, mem⟩ fun r s =>
    r = .ok () ∧ ∀ d ∈ g.synced, Ends steady (getChunk env (ChunkId.fromData env d)) s
      fun r _ => g.Original env d r

/-- What is put is within the limit, and a store is opened only when all its segment files are as
long as their headers. -/
def Spared (run : StoreRun) : StoreAct → Prop
  | .opened | .openCrashed => ∀ fs, run.phase = .down fs → ¬ Dead fs
  | .op o | .crashed o => o.Within env
  | .powerCut | .closed => True

/-! ## What holds in every state -/

/-- What a chunk may give back. -/
def History.known (g : History) : Known := fun c d => d ∈ g.puts ∧ ChunkId.fromData env d = c

/-- The chunks that must be there. -/
def History.durable (g : History) : Set ChunkId := ChunkId.fromData env '' g.synced

structure StoreInv (run : StoreRun) : Prop where
  fits : ∀ d ∈ run.history.puts, Fits env d
  held : run.history.held ⊆ run.history.puts
  synced : run.history.synced ⊆ run.history.held
  running : ∀ s, run.phase = .running s → Clean s.fs ∧
    ∃ H, ChunkId.fromData env '' run.history.held ⊆ H ∧
      Holds env (run.history.known env) s H (run.history.durable env)
  down : ∀ fs, run.phase = .down fs → run.history.held ⊆ run.history.synced ∧ Forward fs ∧
    Recoverable fs (Keeps (run.history.known env) (run.history.durable env) : Layout env → Prop)

variable {env}

theorem tidy_steady (o : FsOp SegPath) (h : False) : Cleanup o := h.elim

theorem Clean.powerCut {fs fs' : Fs SegPath} (h : Clean fs) (cut : fs.PowerCut fs') : Clean fs' :=
  ⟨fun id => cut.absent (h.1 id), cut.absent h.2⟩

theorem History.known_mono {g g' : History} (sub : g.puts ⊆ g'.puts) (c : ChunkId) (d : Bytes)
    (h : g.known env c d) : g'.known env c d := ⟨sub h.1, h.2⟩

/-- A store that is opened from a state the invariant allows. -/
theorem StoreInv.safe_open {fs : Fs SegPath} {g : History} (inv : StoreInv env ⟨.down fs, g⟩)
    (alive : ¬ Dead fs) (maxSegmentSize : Nat) (mem : SegmentStore) :
    Safe steady
      (fun r s => r = .ok () ∧ (∃ H, Holds env (g.known env) s H (g.durable env)) ∧ Clean s.fs)
      (CrashSafe (Keeps (g.known env) (g.durable env) : Layout env → Prop))
      (openStore env maxSegmentSize) ⟨fs, mem⟩ := by
  obtain ⟨-, forward, recoverable⟩ := inv.down fs rfl
  refine (Recoverable.openStore tidy_steady (s := ⟨fs, mem⟩) recoverable forward alive
    maxSegmentSize).mono ?_ fun s hs => hs.quiet (.inl (.inr fun _ h => h))
  rintro r s ⟨ok, holds, -, clean⟩
  exact ⟨ok, holds, clean fun _ h => h⟩

/-- What each operation gives, and leaves when it is stopped. -/
theorem StoreInv.safe_run {s : SegState} {g : History} (inv : StoreInv env ⟨.running s, g⟩)
    {o : StoreOp} (within : o.Within env) :
    Safe steady
      (fun r t => r = .ok () ∧ Clean t.fs ∧ ∃ H, ChunkId.fromData env '' (o.after env g r).held ⊆ H ∧
        Holds env ((o.after env g r).known env) t H ((o.after env g r).durable env))
      (CrashSafe (Keeps ((o.lost env g).known env) ((o.lost env g).durable env) :
        Layout env → Prop)) (o.run env) s := by
  obtain ⟨clean, H, sub, holds⟩ := inv.running s rfl
  cases o with
  | put data =>
    have wider : Holds env (((StoreOp.put data).lost env g).known env) s H (g.durable env) :=
      holds.known fun c _ d => History.known_mono (Set.subset_insert data g.puts) c d
    refine Safe.bind (wider.putChunk tidy_steady clean.quiet within
      ⟨Set.mem_insert .., rfl⟩) ?_ ?_
    · rintro _ t ⟨new, -, -, holds', old⟩
      refine ⟨rfl, clean.congr old, _, ?_, holds'⟩
      rintro _ ⟨d, rfl | hd, rfl⟩
      · exact Set.mem_insert ..
      · exact .inr (sub ⟨d, hd, rfl⟩)
    · rintro e t ⟨_, ok, -⟩
      cases ok
  | sync =>
    refine (holds.sync tidy_steady clean.quiet).mono ?_ fun _ hc => hc
    rintro r t ⟨rfl, holds', old⟩
    exact ⟨rfl, clean.congr old, H, sub, holds'.mono sub⟩
  | rotate =>
    refine (holds.rotate tidy_steady clean.quiet).mono ?_ fun _ hc => hc
    rintro r t ⟨rfl, holds', old⟩
    exact ⟨rfl, clean.congr old, H, sub, holds'⟩
  | compact reachable =>
    have fits (c : ChunkId) (d : Bytes) (h : g.known env c d) : Fits env d := inv.fits d h.1
    refine Safe.bind (Safe.mono (holds.compactAndReclaim (fun _ h => h) clean
      fun c _ _ d => fits c d) (fun _ _ h => h) fun t ht => ht.mono fun L keeps =>
        keeps.mono ?_) ?_ ?_
    · rintro _ ⟨d, ⟨hd, reached⟩, rfl⟩
      exact ⟨⟨d, hd, rfl⟩, reached⟩
    · rintro _ t ⟨count, -, -, holds', clean'⟩
      have all : ChunkId.fromData env '' {d | d ∈ g.held ∧ reachable (ChunkId.fromData env d) = true} ⊆
          {c | c ∈ H ∧ reachable c = true} := by
        rintro _ ⟨d, ⟨hd, reached⟩, rfl⟩
        exact ⟨sub ⟨d, hd, rfl⟩, reached⟩
      exact ⟨rfl, clean', _, all, holds'.mono all⟩
    · rintro e t ⟨_, ok, -⟩
      cases ok

theorem StoreInv.start : StoreInv env ⟨.down ⟨∅, fun _ => 0⟩, ⟨∅, ∅, ∅⟩⟩ where
  fits _ h := h.elim
  held _ h := h
  synced _ h := h
  running _ h := by cases h
  down fs h := by
    obtain rfl := StorePhase.down.inj h
    have none (p : SegPath) : (⟨∅, fun _ => 0⟩ : Fs SegPath).file p = none := by simp [Fs.file]
    refine ⟨fun _ h => h, fun id f hf => ?_, .settled .empty 0 0 (.inl fun id => none _) ⟨fun id _ => none _,
      fun _ => none _, fun _ h => (by cases h), fun _ _ => rfl⟩ fun j _ => ⟨fun r hr => ?_, ?_⟩⟩
    · rw [none] at hf
      cases hf
    · have := Layout.records_cut_subset .empty 0 j hr
      rw [Layout.records_empty] at this
      exact this.elim
    · rintro _ ⟨d, hd, -⟩
      exact hd.elim

variable (env) in
theorem StoreOp.after_subset {g : History} (o : StoreOp) (r : Result Unit)
    (held : g.held ⊆ g.puts) (synced : g.synced ⊆ g.held) :
    (o.after env g r).held ⊆ (o.after env g r).puts ∧
      (o.after env g r).synced ⊆ (o.after env g r).held := by
  cases o <;> cases r <;> simp only [after]
  case put.ok data _ =>
    exact ⟨Set.insert_subset_insert held, synced.trans (Set.subset_insert _ _)⟩
  case put.error data _ => exact ⟨held.trans (Set.subset_insert _ _), synced⟩
  case sync.ok => exact ⟨held, subset_rfl⟩
  case compact.ok => exact ⟨fun d hd => held hd.1, subset_rfl⟩
  all_goals exact ⟨held, synced⟩

variable (env) in
theorem StoreOp.lost_subset {g : History} (o : StoreOp) (held : g.held ⊆ g.puts)
    (synced : g.synced ⊆ g.held) :
    (o.lost env g).held ⊆ (o.lost env g).puts ∧ (o.lost env g).synced = (o.lost env g).held := by
  have all := synced.trans held
  cases o with
  | put data => exact ⟨all.trans (Set.subset_insert _ _), rfl⟩
  | sync | rotate => exact ⟨all, rfl⟩
  | compact reachable => exact ⟨fun d hd => all hd.1, rfl⟩

/-- The data an operation puts are within the limit. -/
theorem StoreOp.fits {g : History} {o : StoreOp} (within : o.Within env)
    (fits : ∀ d ∈ g.puts, Fits env d) : (∀ r, ∀ d ∈ (o.after env g r).puts, Fits env d) ∧
      ∀ d ∈ (o.lost env g).puts, Fits env d := by
  cases o with
  | put data =>
    have all : ∀ d ∈ insert data g.puts, Fits env d := by
      rintro d (rfl | hd)
      · exact within
      · exact fits d hd
    exact ⟨fun r => by cases r <;> exact all, all⟩
  | sync | rotate | compact reachable => exact ⟨fun r => by cases r <;> exact fits, fits⟩

theorem StoreInv.step {run run' : StoreRun} {act : StoreAct} (inv : StoreInv env run)
    (step : StoreStep env run act run') (spared : Spared env run act) : StoreInv env run' := by
  cases step with
  | @opened fs g maxSegmentSize mem s returned =>
    obtain ⟨-, ⟨H, holds⟩, clean⟩ := (inv.safe_open (spared fs rfl) maxSegmentSize mem).returns
      returned
    refine ⟨inv.fits, inv.held, inv.synced, fun _ h => ?_, nofun⟩
    obtain rfl := StorePhase.running.inj h
    exact ⟨clean, H, (Set.image_mono (inv.down fs rfl).1).trans holds.le, holds⟩
  | @openCrashed fs g maxSegmentSize mem s fs' crashes cut =>
    have safe := (inv.safe_open (spared fs rfl) maxSegmentSize mem).crashes crashes
    refine ⟨inv.fits, inv.held, inv.synced, nofun, fun _ h => ?_⟩
    obtain rfl := StorePhase.down.inj h
    exact ⟨(inv.down fs rfl).1, .powerCut cut, safe _ cut⟩
  | @op s g o r s' returned =>
    obtain ⟨rfl, clean, H, sub, holds⟩ := (inv.safe_run spared).returns returned
    have subset := o.after_subset env (.ok ()) inv.held inv.synced
    refine ⟨(StoreOp.fits spared inv.fits).1 _, subset.1, subset.2, fun _ h => ?_, nofun⟩
    obtain rfl := StorePhase.running.inj h
    exact ⟨clean, H, sub, holds⟩
  | @crashed s g o s' fs crashes cut =>
    have safe := (inv.safe_run spared).crashes crashes
    have subset := o.lost_subset env inv.held inv.synced
    refine ⟨(StoreOp.fits spared inv.fits).2, subset.1, subset.2.le, nofun, fun _ h => ?_⟩
    obtain rfl := StorePhase.down.inj h
    exact ⟨subset.2.ge, .powerCut cut, safe _ cut⟩
  | @powerCut s g fs cut =>
    obtain ⟨clean, H, -, holds⟩ := inv.running s rfl
    refine ⟨inv.fits, inv.synced.trans inv.held, fun _ h => h, nofun, fun _ h => ?_⟩
    obtain rfl := StorePhase.down.inj h
    exact ⟨fun _ h => h, .powerCut cut, (holds.recoverable clean.quiet).powerCut cut⟩
  | @closed s g =>
    obtain ⟨clean, H, -, holds⟩ := inv.running s rfl
    refine ⟨inv.fits, inv.synced.trans inv.held, fun _ h => h, nofun, fun _ h => ?_⟩
    obtain rfl := StorePhase.down.inj h
    exact ⟨fun _ h => h, holds.forward, holds.recoverable clean.quiet⟩

theorem storeInv {run : StoreRun} (h : StoreReachable env (Spared env) run) : StoreInv env run := by
  induction h with
  | start => exact .start
  | step _ step spared ih => exact ih.step step spared

/-- A directory that recovers is not in the middle of a swap when a header is missing. -/
theorem Recoverable.quiet_of_dead {fs : Fs SegPath} {P : Layout env → Prop}
    (h : Recoverable fs P) (dead : Dead fs) : Quiet fs := by
  cases h with
  | settled L n k quiet disk all => exact quiet
  | swapping O N swapping all =>
    obtain ⟨id, f, hf, short⟩ := dead
    have whole {o : Option (Segment env)} (same : fs.file (.active id) = o.map Segment.whole) :
        False := by
      rw [hf] at same
      obtain ⟨seg, -, rfl⟩ := Option.map_eq_some_iff.1 same.symm
      have := seg.headed.length_le
      omega
    have absent (none : fs.file (.active id) = none) : False := by
      rw [hf] at none
      cases none
    cases hO : O id with
    | some seg =>
      rcases swapping.old id seg hO with ⟨-, h | h⟩ | ⟨-, h⟩
      · exact (absent h).elim
      · exact (whole h).elim
      · exact (whole (o := some seg) h).elim
    | none => exact ((swapping.new id hO).2.elim absent whole).elim

/-- In a run that puts only chunks within the limit and in which no crash before left a segment
file shorter than its header, the store reopens with every synced chunk exactly when no such file
is there. -/
theorem reopens_iff (env : Env) (run : StoreRun) (h : StoreReachable env (Spared env) run)
    (fs : Fs SegPath) (down : run.phase = .down fs) :
    Reopens env run.history fs ↔ ¬ Dead fs := by
  have inv := storeInv h
  obtain ⟨phase, g⟩ := run
  subst down
  obtain ⟨-, forward, recoverable⟩ := inv.down fs rfl
  constructor
  · intro reopens dead
    obtain ⟨mem⟩ : Nonempty SegmentStore := ⟨⟨fun _ => ⟨none, 0, false, [], 0, 0⟩, fun _ => ∅⟩⟩
    have ends := reopens 0 mem
    obtain ⟨r, s, returned⟩ := ends.some
    have fails : Safe steady (fun r _ => ∃ e, r = .error e) (fun _ => True) (openStore env 0) ⟨fs, mem⟩ :=
      Dead.openStore dead (recoverable.quiet_of_dead dead) tidy_steady 0
    obtain ⟨e, failed⟩ := fails.returns returned
    have ok := (ends.all r s returned).1
    rw [failed] at ok
    cases ok
  · intro alive maxSegmentSize mem
    refine (inv.safe_open alive maxSegmentSize mem).ends (total_segMachine _) |>.mono ?_
    rintro r s ⟨ok, ⟨H, holds⟩, -⟩
    refine ⟨ok, fun d hd => ?_⟩
    obtain ⟨e, ⟨he, same⟩, reads⟩ := holds.getChunk tidy_steady (holds.le ⟨d, hd, rfl⟩)
    refine ((reads fun _ => True).ends (total_segMachine _)).mono fun r t hr => ?_
    exact ⟨e, he, hr.2, same, fun distinct => distinct he (inv.held (inv.synced hd)) same⟩

end Runs

/-! ## Two runs from an empty directory -/

namespace StoreSample

def env : Env := Reference.env []

def answer : ∀ q : SegQuestion, q.Ans
  | .now => 0
  | .nonce => FixedBytes.ofBytes 24 []
  | .stagingDir => (0 : Nat)
  | .entries index => index
  | .accepts count => count

theorem legal (q : SegQuestion) : q.Allowed False (answer q) := by
  cases q with
  | entries index => exact List.Perm.refl _
  | accepts count => exact .inl rfl
  | _ => trivial

/-- A process that has not opened its store yet. -/
def memory : SegmentStore := ⟨fun _ => ⟨none, 0, false, [], 0, 0⟩, fun _ => ∅⟩

def empty : Fs SegPath := ⟨∅, fun _ => 0⟩

/-- A program run without faults. -/
def run {α : Type} (p : SegProg α) (s : SegState) : Result α × SegState :=
  Proc.exec OosLiteError.ofIo (fun _ => false) answer p [] s

/-- The state in which a program stops, that many file operations later. -/
def halt {α : Type} (p : SegProg α) (count : Nat) (s : SegState) : Option SegState :=
  Proc.halt OosLiteError.ofIo (fun _ => false) answer p (List.replicate count none) 0 s

theorem steady_le : (segMachine fun _ => false = true).Le steady :=
  Proc.machine_le _ _ _ _ fun _ h => Bool.false_ne_true h

theorem returns_run {α : Type} (p : SegProg α) (s : SegState) :
    Returns steady p s (run p s).1 (run p s).2 :=
  (Proc.returns_exec legal p [] s).mono steady_le

theorem crashes_halt {α : Type} {p : SegProg α} {count : Nat} {s s' : SegState}
    (h : halt p count s = some s') : Crashes steady p s s' :=
  (Proc.crashes_halt legal h).mono steady_le

/-- An opened store. -/
def opened : SegState := (run (openStore env 0) ⟨empty, memory⟩).2

/-- One chunk, put and synced. -/
def chunk : Bytes := [111, 110, 101]

def stored : SegState := (run ((StoreOp.put chunk).run env) opened).2

def synced : SegState := (run (StoreOp.sync.run env) stored).2

theorem alive : ¬ Dead synced.fs := by
  rintro ⟨id, f, hf, short⟩
  have all : ∀ e ∈ synced.fs.files.toList, segmentHeaderSize ≤ e.2.data.length := by
    decide +kernel
  exact absurd short (Nat.not_lt.2
    (all (.active id, f) (Std.ExtTreeMap.mem_toList_iff_getElem?_eq_some.2 hf)))

end StoreSample

theorem reopens_iff_synced :
    Reopens StoreSample.env ⟨{StoreSample.chunk}, {StoreSample.chunk}, {StoreSample.chunk}⟩
      StoreSample.synced.fs := by
  have opened := StoreSample.returns_run (openStore StoreSample.env 0)
    ⟨StoreSample.empty, StoreSample.memory⟩
  rw [show (StoreSample.run (openStore StoreSample.env 0)
    ⟨StoreSample.empty, StoreSample.memory⟩).1 = .ok () by decide +kernel] at opened
  have stored := StoreSample.returns_run ((StoreOp.put StoreSample.chunk).run StoreSample.env)
    StoreSample.opened
  rw [show (StoreSample.run ((StoreOp.put StoreSample.chunk).run StoreSample.env)
    StoreSample.opened).1 = .ok () by decide +kernel] at stored
  have synced := StoreSample.returns_run (StoreOp.sync.run StoreSample.env) StoreSample.stored
  rw [show (StoreSample.run (StoreOp.sync.run StoreSample.env) StoreSample.stored).1 = .ok () by
    decide +kernel] at synced
  have within : Fits StoreSample.env StoreSample.chunk := by unfold Fits; decide +kernel
  have alive : ¬ Dead StoreSample.empty := by
    rintro ⟨id, f, hf, -⟩
    simp [StoreSample.empty, Fs.file] at hf
  have first : StoreReachable StoreSample.env (Spared StoreSample.env)
      ⟨.running StoreSample.opened, ⟨∅, ∅, ∅⟩⟩ :=
    .step .start (.opened opened) fun fs h => StorePhase.down.inj h ▸ alive
  have second := first.step (.op stored) within
  have third := @StoreReachable.step _ _ _ (.op .sync) _ second (.op synced) trivial
  have run := third.step .closed trivial
  have all : insert StoreSample.chunk ∅ = ({StoreSample.chunk} : Set Bytes) := by simp
  have reopens := (reopens_iff StoreSample.env _ run _ rfl).2 StoreSample.alive
  simp only [StoreOp.after, all] at reopens
  exact reopens

/-- A crash while the first segment is created leaves a store that never opens again. -/
theorem created_segment_does_not_open :
    ¬ ∀ run, StoreReachable StoreSample.env (fun _ _ => True) run →
      ∀ fs, run.phase = .down fs → Reopens StoreSample.env run.history fs := by
  intro all
  obtain ⟨s, hs⟩ : ∃ s, StoreSample.halt (openStore StoreSample.env 0) 6
      ⟨StoreSample.empty, StoreSample.memory⟩ = some s :=
    Option.isSome_iff_exists.1 (by decide +kernel)
  have crashed := StoreSample.crashes_halt hs
  have reopens := all _ (StoreReachable.start.step
    (.openCrashed crashed s.fs.powerCut_visible) trivial) _ rfl
  have failed := StoreSample.returns_run (openStore StoreSample.env 0)
    ⟨s.fs.visible, StoreSample.memory⟩
  have ok := ((reopens 0 StoreSample.memory).all _ _ failed).1
  have verdict : (StoreSample.halt (openStore StoreSample.env 0) 6
      ⟨StoreSample.empty, StoreSample.memory⟩).all (fun s => (StoreSample.run
        (openStore StoreSample.env 0) ⟨s.fs.visible, StoreSample.memory⟩).1 ≠ .ok ()) = true := by
    decide +kernel
  rw [hs] at verdict
  simp [ok] at verdict

end OosLite
