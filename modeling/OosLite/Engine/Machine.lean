import OosLite.Engine.Put
import OosLite.Segment.Store
import OosLite.Wal.Log

/-!
# The engine and its parts

A `StorageEngine` runs programs over its segment store, its write-ahead log and its tables. A
program of a part is a program of the engine; of the tables it reads a state, and commits one.
-/

namespace OosLite

open Files Effect

/-- `StorageEngine`: the files and the memory of its parts, and the tables. -/
structure StorageEngine where
  segmentStore : SegState
  wal : WalState
  metadataStore : MetadataStore

/-- What the engine does: an operation of a part, a transaction, or a look at the clock. -/
inductive EngineOp where
  | segment (o : ProcOp SegPath SegmentStore SegQuestion)
  | wal (o : ProcOp WalPath Wal WalQuestion)
  | tables
  | commit (m : MetadataStore)
  | now

@[reducible] def EngineOp.Res : EngineOp → Type
  | .segment o => ProcOp.Res SegQuestion.Ans o
  | .wal o => ProcOp.Res WalQuestion.Ans o
  | .tables => MetadataStore
  | .commit _ => Unit
  | .now => UInt64

abbrev EngineProg (α : Type) := Prog EngineOp EngineOp.Res OosLiteError α

/-- Which operations may fail. -/
structure Faults where
  segment : FsOp SegPath → Prop
  wal : FsOp WalPath → Prop
  metadata : Prop

/-- Nothing fails. -/
def Faults.none : Faults := ⟨fun _ => False, fun _ => False, False⟩

namespace StorageEngine

/-- Replace the segment store. -/
def withSegments (s : StorageEngine) (segmentStore : SegState) : StorageEngine :=
  { s with segmentStore }

/-- Replace the log. -/
def withWal (s : StorageEngine) (wal : WalState) : StorageEngine := { s with wal }

/-- Replace the tables. -/
def withTables (s : StorageEngine) (metadataStore : MetadataStore) : StorageEngine :=
  { s with metadataStore }

section Lemmas

variable (s : StorageEngine) (g g' : SegState) (w w' : WalState) (m m' : MetadataStore)

@[simp] theorem withSegments_segmentStore : (s.withSegments g).segmentStore = g := rfl
@[simp] theorem withSegments_wal : (s.withSegments g).wal = s.wal := rfl
@[simp] theorem withSegments_metadataStore :
    (s.withSegments g).metadataStore = s.metadataStore := rfl
@[simp] theorem withWal_segmentStore : (s.withWal w).segmentStore = s.segmentStore := rfl
@[simp] theorem withWal_wal : (s.withWal w).wal = w := rfl
@[simp] theorem withWal_metadataStore : (s.withWal w).metadataStore = s.metadataStore := rfl
@[simp] theorem withTables_segmentStore : (s.withTables m).segmentStore = s.segmentStore := rfl
@[simp] theorem withTables_wal : (s.withTables m).wal = s.wal := rfl
@[simp] theorem withTables_metadataStore : (s.withTables m).metadataStore = m := rfl

end Lemmas

end StorageEngine

/-- The machine of the engine, with the operations that may fail, and whether buffered writes may. A
transaction is committed or not, also in a power cut. -/
def engineMachine (f : Faults) (fails : Prop := False) : Machine EngineOp EngineOp.Res OosLiteError StorageEngine where
  step
    | .segment o, s, r, s' =>
      ∃ g, (segMachine f.segment fails).step o s.segmentStore r g ∧ s' = s.withSegments g
    | .wal o, s, r, s' => ∃ w, (walMachine f.wal).step o s.wal r w ∧ s' = s.withWal w
    | .tables, s, r, s' =>
      s' = s ∧ (r = .ok s.metadataStore ∨ f.metadata ∧ r = .error (.redb ""))
    | .commit m, s, r, s' =>
      r = .ok () ∧ s' = s.withTables m ∨ f.metadata ∧ r = .error (.redb "") ∧ s' = s
    | .now, s, r, s' => s' = s ∧ ∃ t, r = .ok t
  cut
    | .segment o, s, s' =>
      ∃ g, (segMachine f.segment fails).cut o s.segmentStore g ∧ s' = s.withSegments g
    | .wal o, s, s' => ∃ w, (walMachine f.wal).cut o s.wal w ∧ s' = s.withWal w
    | .commit m, s, s' => s' = s ∨ s' = s.withTables m
    | .tables, _, _ | .now, _, _ => False

theorem total_engineMachine (f : Faults) {fails : Prop} : (engineMachine f fails).Total := by
  intro o s
  cases o with
  | segment o =>
    obtain ⟨r, g, step⟩ := @total_segMachine fails f.segment o s.segmentStore
    exact ⟨r, _, g, step, rfl⟩
  | wal o =>
    obtain ⟨r, w, step⟩ := Proc.machine_total WalQuestion.Ans OosLiteError.ofIo f.wal
      (fun _ _ => True) (fun q => by cases q; exact ⟨FixedBytes.ofBytes 24 [], trivial⟩) o s.wal
    exact ⟨r, _, w, step, rfl⟩
  | tables => exact ⟨_, s, rfl, .inl rfl⟩
  | commit m => exact ⟨_, _, .inl ⟨rfl, rfl⟩⟩
  | now => exact ⟨_, s, rfl, 0, rfl⟩

namespace StorageEngine

/-- A program of the segment store. -/
def segments {α : Type} (p : SegProg α) : EngineProg α := p.lift EngineOp.segment fun _ a => a

/-- A program of the log. -/
def log {α : Type} (p : WalProg α) : EngineProg α := p.lift EngineOp.wal fun _ a => a

/-- A read of the tables. -/
def tables : EngineProg MetadataStore :=
  @Prog.perform EngineOp EngineOp.Res OosLiteError .tables

/-- The end of a write transaction. -/
def commit (m : MetadataStore) : EngineProg Unit :=
  @Prog.perform EngineOp EngineOp.Res OosLiteError (.commit m)

/-- `SystemTime::now`, in seconds. -/
def now : EngineProg UInt64 := @Prog.perform EngineOp EngineOp.Res OosLiteError .now

/-- A read transaction. -/
def query {α : Type} (f : MetadataStore → Result α) : EngineProg α := do
  let m ← tables
  Prog.ofExcept (f m)

/-- A write transaction. -/
def update (f : MetadataStore → MetadataStore) : EngineProg Unit := do
  let m ← tables
  commit (f m)

/-! ## Rules -/

section Rules

variable {f : Faults} {fails : Prop} {C : StorageEngine → Prop} {s : StorageEngine} {α : Type}

theorem part_segments (f : Faults) (fails : Prop) :
    Part (segMachine f.segment fails) (engineMachine f fails) EngineOp.segment
    (fun _ a => a) segmentStore withSegments where
  get_set _ _ := rfl
  set_set _ _ _ := rfl
  step o s r s' step := by
    obtain ⟨g, inner, rfl⟩ := step
    refine ⟨g, ?_, rfl⟩
    cases r <;> exact inner
  cut _ _ _ cut := cut

theorem part_log (f : Faults) (fails : Prop) : Part (walMachine f.wal) (engineMachine f fails) EngineOp.wal
    (fun _ a => a) StorageEngine.wal withWal where
  get_set _ _ := rfl
  set_set _ _ _ := rfl
  step o s r s' step := by
    obtain ⟨w, inner, rfl⟩ := step
    refine ⟨w, ?_, rfl⟩
    cases r <;> exact inner
  cut _ _ _ cut := cut

theorem safe_segments {p : SegProg α} {Q : Except OosLiteError α → StorageEngine → Prop}
    (h : Safe (segMachine f.segment fails) (fun r g => Q r (s.withSegments g))
      (fun g => C (s.withSegments g)) p s.segmentStore) :
    Safe (engineMachine f fails) Q C (segments p) s :=
  (part_segments f fails).safe_lift p s rfl h

theorem safe_log {p : WalProg α} {Q : Except OosLiteError α → StorageEngine → Prop}
    (h : Safe (walMachine f.wal) (fun r w => Q r (s.withWal w)) (fun w => C (s.withWal w)) p
      s.wal) :
    Safe (engineMachine f fails) Q C (log p) s :=
  (part_log f fails).safe_lift p s rfl h

theorem safe_tables {Q : Except OosLiteError MetadataStore → StorageEngine → Prop}
    (done : Q (.ok s.metadataStore) s) (fault : f.metadata → Q (.error (.redb "")) s) :
    Safe (engineMachine f fails) Q C tables s := by
  apply (safe_perform _ _).2
  refine ⟨fun _ => False.elim, ?_⟩
  rintro r s' ⟨rfl, rfl | ⟨failed, rfl⟩⟩
  · exact done
  · exact fault failed

theorem safe_commit {m : MetadataStore} {Q : Except OosLiteError Unit → StorageEngine → Prop}
    (before : C s) (after : C (s.withTables m)) (done : Q (.ok ()) (s.withTables m))
    (fault : f.metadata → Q (.error (.redb "")) s) :
    Safe (engineMachine f fails) Q C (commit m) s := by
  apply (safe_perform _ _).2
  constructor
  · rintro s' (rfl | rfl)
    · exact before
    · exact after
  · rintro r s' (⟨rfl, rfl⟩ | ⟨failed, rfl, rfl⟩)
    · exact done
    · exact fault failed

theorem safe_now {Q : Except OosLiteError UInt64 → StorageEngine → Prop}
    (h : ∀ t, Q (.ok t) s) : Safe (engineMachine f fails) Q C now s := by
  apply (safe_perform _ _).2
  refine ⟨fun _ => False.elim, ?_⟩
  rintro r s' ⟨rfl, t, rfl⟩
  exact h t

theorem safe_query {q : MetadataStore → Result α} {Q : Except OosLiteError α → StorageEngine → Prop}
    (done : Q (q s.metadataStore) s) (fault : f.metadata → Q (.error (.redb "")) s) :
    Safe (engineMachine f fails) Q C (query q) s := by
  unfold query
  rw [safe_bind]
  apply safe_tables
  · rw [thenSafe_ok, safe_ofExcept]
    exact done
  · exact fault

theorem safe_update {g : MetadataStore → MetadataStore}
    {Q : Except OosLiteError Unit → StorageEngine → Prop}
    (before : C s) (after : C (s.withTables (g s.metadataStore)))
    (done : Q (.ok ()) (s.withTables (g s.metadataStore)))
    (fault : f.metadata → Q (.error (.redb "")) s) :
    Safe (engineMachine f fails) Q C (update g) s := by
  unfold update
  rw [safe_bind]
  apply safe_tables
  · rw [thenSafe_ok]
    exact safe_commit before after done fault
  · exact fault

end Rules

end StorageEngine

end OosLite
