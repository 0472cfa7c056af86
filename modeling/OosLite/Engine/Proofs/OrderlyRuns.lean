import OosLite.Engine.Proofs.Orderly
import OosLite.Engine.Proofs.SnapshotRuns

/-!
# Tables in order over whole runs

Every call, every crash and every recovery leaves the tables in order, as long as nothing fails, no
prune takes all versions of a bound name, and no crash brings back a record that was done with.
-/

namespace OosLite

open Files Effect Relation StorageEngine

variable {env : Env} {G : Set ObjectId} {L : Set (ObjectId × UInt32 × String)} {m : MetadataStore}
  {s : StorageEngine}

/-! ## Calls -/

/-- A prune that leaves a bound name without versions. -/
def EngineCall.Empties (m : MetadataStore) : EngineCall → Prop
  | .prune name keepLastN => keepLastN = 0 ∧ (m.resolveName (Text.trim name)).isSome
  | .pruneAll keepLastN => keepLastN = 0 ∧ ∃ name, (m.resolveName name).isSome
  | _ => False

/-- Every version number has a successor. -/
def MetadataStore.Roomy (m : MetadataStore) : Prop :=
  ∀ id r, m.getObject id = .ok (some r) → r.latestVersion < r.latestVersion + 1

/-- A rollback makes one edit, or none. -/
theorem safe_rollbackFile {f : Faults} (name : String) (target : UInt32) (writes : Bool) :
    Safe (engineMachine f)
      (fun _ t => t = s ∨ ∃ m, s.metadataStore.RollsBack env (Text.trim name) target m ∧ t = s.withTables m)
      (fun t => t = s ∨ ∃ m, s.metadataStore.RollsBack env (Text.trim name) target m ∧ t = s.withTables m)
      (rollbackFile env name target writes) s := by
  unfold rollbackFile
  extract_lets name
  generalize validateLogicalName name = valid
  rw [safe_bind, safe_ofExcept]
  cases valid with
  | error e => exact .inl rfl
  | ok _ =>
    rw [thenSafe_ok, safe_bind]
    apply safe_query
    swap
    · exact fun _ => .inl rfl
    cases found : rollbackTarget env s.metadataStore name target with
    | error e => exact .inl rfl
    | ok chosen =>
      obtain ⟨record, entry, manifest⟩ := chosen
      obtain ⟨id, bound, object, there, version, present⟩ := rollbackTarget_ok found
      rw [thenSafe_ok]
      simp only
      rw [safe_bind]
      apply safe_now
      intro createdAt
      rw [thenSafe_ok, safe_bind]
      have rolls : s.metadataStore.RollsBack env name target (s.metadataStore.putObject
          { record with
            latestVersion := record.nextVersion
            versions := record.versions ++ [{ entry with version := record.nextVersion, createdAt }] }) :=
        ⟨id, record, entry, manifest, createdAt, bound, object, there, version, present, rfl⟩
      apply safe_update
      · exact .inl rfl
      · exact .inr ⟨_, rolls, rfl⟩
      · rw [thenSafe_ok]
        have done : s.withTables (s.metadataStore.putObject
            { record with
              latestVersion := record.nextVersion
              versions := record.versions ++ [{ entry with version := record.nextVersion, createdAt }] }) = s ∨
            ∃ m, s.metadataStore.RollsBack env name target m ∧ s.withTables (s.metadataStore.putObject
              { record with
                latestVersion := record.nextVersion
                versions := record.versions ++ [{ entry with version := record.nextVersion, createdAt }] }) =
              s.withTables m := .inr ⟨_, rolls, rfl⟩
        split
        · rw [safe_bind]
          apply (maintains_extractManifestToFile (I := fun t => t = s ∨
            ∃ m, s.metadataStore.RollsBack env name target m ∧ t = s.withTables m) env manifest _ done).mono
          · intro r t ht
            cases r with
            | error e => exact ht
            | ok written => exact ht
          · exact fun _ ht => ht
        · exact done
      · exact fun _ => .inl rfl

-- otherwise the elaborator runs the programs as far as it can
attribute [local irreducible] StorageEngine.rollbackFile StorageEngine.putFileNamed

/-- What a call returns does not matter. -/
theorem safe_ignored {α : Type} {f : Faults} {p : EngineProg α} {I C : StorageEngine → Prop}
    (h : Safe (engineMachine f) (fun _ t => I t) C p s) :
    Safe (engineMachine f) (fun _ t => I t) C (p >>= fun _ => pure ()) s := by
  rw [safe_bind]
  apply h.mono ?_ fun _ left => left
  intro r t ht
  cases r with
  | error e => exact ht
  | ok a => exact ht

/-- A collection touches neither names nor records nor the log. -/
theorem safe_gc_names {f : Faults} (J : MetadataStore → WalState → Prop)
    (sweeps : ∀ m w id, J m w → J (m.deleteManifest id) w) :
    Maintains (engineMachine f) (fun t => J t.metadataStore t.wal) (StorageEngine.gc env) := by
  apply Maintains.bind (maintains_query _)
  intro marked
  apply Maintains.bind (maintains_query _)
  intro ids
  apply Maintains.bind
  · apply Maintains.forEach
    intro count id _
    split
    · exact .pure _
    · apply Maintains.bind
      · intro t ht
        exact safe_update ht (sweeps _ _ id ht) (sweeps _ _ id ht) fun _ => ht
      · exact fun _ => .pure _
  · intro manifestsReclaimed
    apply Maintains.bind (maintains_besides J _)
    intro chunksReclaimed
    exact Maintains.bind (maintains_besides J _) fun _ => .pure _

namespace MetadataStore.Orderly

/-- Edits of a call that empties no record. -/
theorem edits (h : m.Orderly G L) {call : EngineCall} (only : call.OnlyEdits)
    (spares : ¬ call.Empties m) (rollback : ∀ name target writes, call ≠ .rollback name target writes)
    {m' : MetadataStore} (steps : ReflTransGen (call.Edits env) m m') : m'.Orderly G L := by
  have each (prune : ∀ name keepLastN, call = .prune name keepLastN → keepLastN ≠ 0)
      (pruneAll : ∀ keepLastN, call = .pruneAll keepLastN → keepLastN ≠ 0) : m'.Orderly G L := by
    induction steps with
    | refl => exact h
    | tail _ edit ih => exact ih.edit edit only prune pruneAll rollback
  -- a prune that would empty a record finds no name
  have idle (none : ∀ n, ¬ call.Edits env m n) : m'.Orderly G L := by
    rcases ReflTransGen.cases_head steps with rfl | ⟨n, edit, -⟩
    · exact h
    · exact absurd edit (none n)
  cases call with
  | prune name keepLastN =>
    by_cases zero : keepLastN = 0
    · apply idle
      rintro n ⟨id, r, bound, -⟩
      exact spares ⟨zero, by rw [bound]; rfl⟩
    · apply each
      · rintro name' keep ⟨⟩
        exact zero
      · rintro keep ⟨⟩
  | pruneAll keepLastN =>
    by_cases zero : keepLastN = 0
    · apply idle
      rintro n ⟨name, id, r, bound, -⟩
      exact spares ⟨zero, name, by rw [bound]; rfl⟩
    · apply each
      · rintro name' keep ⟨⟩
      · rintro keep ⟨⟩
        exact zero
  | _ =>
    apply each
    · rintro name' keep ⟨⟩
    · rintro keep ⟨⟩

end MetadataStore.Orderly

/-! ## Runs -/

/-- A step that opens the store. -/
def EngineAct.Opens : EngineAct → Prop
  | .opened _ | .openFailed _ | .openCrashed _ => True
  | _ => False

variable (env) in
/-- The condition on a step: nothing fails in it, a generated identifier is new, no prune empties the
record of a bound name, no number has reached its maximum, and no more than one record is replayed. -/
structure Careful (run : EngineRun) (act : EngineAct) : Prop where
  faultless : act.faults = .none
  calls : ∀ s call, run.phase = .running s → act.call? = some call →
    (∀ id ∈ call.generated, id ∉ run.history.generated) ∧ ¬ call.Empties s.metadataStore ∧
      s.metadataStore.Roomy ∧ s.wal.mem.checkpointLsn < s.wal.mem.currentLsn + 1
  opens : ∀ d, run.phase = .down d → act.Opens → (Wal.replays env d.wal).length ≤ 1

variable (env) in
/-- A stopped put of which the next open makes the rest. -/
structure Unfinished (G : Set ObjectId) (L : Set (ObjectId × UInt32 × String)) (d : Disk)
    (G₀ : Set ObjectId) (L₀ : Set (ObjectId × UInt32 × String)) (m : MetadataStore)
    (put : WalPutPayload) (lsn : UInt64) : Prop where
  orderly : m.Orderly G₀ L₀
  choice : m.Chooses G₀ put
  generated : insert put.objectId G₀ ⊆ G
  listed : d.tables.listed ⊆ L ∧ L ⊆ insert put.lists L₀
  left : PutLeft env m lsn put d.tables d.wal

variable (env) in
/-- What every phase of a run keeps to. -/
def EnginePhase.InOrder (G : Set ObjectId) (L : Set (ObjectId × UInt32 × String)) : EnginePhase → Prop
  | .running s => s.metadataStore.Orderly G L ∧ Wal.Between env s.wal ∧ Wal.replays env s.wal.fs = []
  | .down d => Wal.Firm env d.wal ∧
      (d.tables.Orderly G L ∧ Wal.replays env d.wal = [] ∨
        ∃ G₀ L₀ m put lsn, Unfinished env G L d G₀ L₀ m put lsn)

section Phases

variable {d d' : Disk} {G₀ G' : Set ObjectId} {L₀ : Set (ObjectId × UInt32 × String)}
  {put : WalPutPayload} {lsn : UInt64}

theorem inOrder_running (order : s.metadataStore.Orderly G L) (grown : G ⊆ G')
    (between : Wal.Between env s.wal) (idle : Wal.replays env s.wal.fs = []) :
    (EnginePhase.running s).InOrder env G' (L ∪ s.metadataStore.listed) :=
  ⟨order.remembered grown, between, idle⟩

theorem inOrder_down (order : d.tables.Orderly G L) (grown : G ⊆ G') (firm : Wal.Firm env d.wal)
    (idle : Wal.replays env d.wal = []) : (EnginePhase.down d).InOrder env G' (L ∪ d.tables.listed) :=
  ⟨firm, .inl ⟨order.remembered grown, idle⟩⟩

/-- More identifiers may have been generated. -/
theorem EnginePhase.InOrder.mono {phase : EnginePhase} (h : phase.InOrder env G L) (grown : G ⊆ G') :
    phase.InOrder env G' L := by
  cases phase with
  | running s =>
    obtain ⟨order, rest⟩ := h
    exact ⟨order.mono grown subset_rfl order.lists, rest⟩
  | down d =>
    obtain ⟨firm, ⟨order, idle⟩ | ⟨G₀, L₀, m, put, lsn, stopped⟩⟩ := h
    · exact ⟨firm, .inl ⟨order.mono grown subset_rfl order.lists, idle⟩⟩
    · exact ⟨firm, .inr ⟨G₀, L₀, m, put, lsn, stopped.orderly, stopped.choice,
        stopped.generated.trans grown, stopped.listed, stopped.left⟩⟩

/-- A put was stopped. -/
theorem PutLeft.inOrder (left : PutLeft env m lsn put d.tables d.wal) (order : m.Orderly G₀ L₀)
    (choice : m.Chooses G₀ put) (firm : Wal.Firm env d.wal) (generated : insert put.objectId G₀ ⊆ G)
    (within : L ⊆ insert put.lists L₀) : (EnginePhase.down d).InOrder env G (L ∪ d.tables.listed) := by
  have sub : d.tables.listed ⊆ insert put.lists L₀ := by
    cases left with
    | begun k stage pending => exact (order.underway choice stage).2
    | done stage pending => exact (order.underway choice stage).2
  exact ⟨firm, .inr ⟨G₀, L₀, m, put, lsn, order, choice, generated,
    ⟨Set.subset_union_right, Set.union_subset within sub⟩, left⟩⟩

namespace Unfinished

/-- The tables are in order meanwhile. -/
theorem tables (h : Unfinished env G L d G₀ L₀ m put lsn) :
    d.tables.Orderly G (L₀ ∪ d.tables.listed) := by
  cases h.left with
  | begun k stage pending =>
    exact (h.orderly.underway h.choice stage).1.mono h.generated subset_rfl Set.subset_union_right
  | done stage pending =>
    exact (h.orderly.underway h.choice stage).1.mono h.generated subset_rfl Set.subset_union_right

/-- What the next open has to do, if it does not replay more than one record. -/
theorem pending (h : Unfinished env G L d G₀ L₀ m put lsn) (few : (Wal.replays env d.wal).length ≤ 1) :
    d.tables.Orderly G L ∧ Wal.replays env d.wal = [] ∨
      (∃ k, MetadataStore.Underway env put m k d.tables) ∧
        Wal.replays env d.wal = [⟨lsn, .putObject put⟩] := by
  cases h.left with
  | begun k stage pending => exact .inr ⟨⟨k, stage⟩, pending⟩
  | done stage pending =>
    rcases pending with none | there
    · left
      exact ⟨(h.orderly.underway_added h.choice stage (by omega)).mono h.generated h.listed.2 h.listed.1,
        none⟩
    · right
      refine ⟨⟨3, stage⟩, ?_⟩
      obtain ⟨record, one⟩ : ∃ record, Wal.replays env d.wal = [record] := by
        rw [← List.length_eq_one_iff]
        have some := List.length_pos_of_mem there
        omega
      rw [one] at there ⊢
      rw [List.mem_singleton.1 there]

end Unfinished

/-- What an open makes of what was left. -/
theorem inOrder_opens (h : (EnginePhase.down d).InOrder env G L) (starts : s.Starts d)
    (few : (Wal.replays env d.wal).length ≤ 1) :
    Safe (engineMachine .none)
      (fun r t => (EnginePhase.down t.disk).InOrder env G (L ∪ t.metadataStore.listed) ∧
        (r = .ok () → (EnginePhase.running t).InOrder env G (L ∪ t.metadataStore.listed)))
      (fun t => ∀ d', t.disk.PowerCut d' →
        (EnginePhase.down d').InOrder env G (L ∪ d'.tables.listed)) (openInternal env) s := by
  obtain ⟨-, wal, tables⟩ := starts
  obtain ⟨firm, rest⟩ := h
  rw [← wal] at firm few
  have cases : s.metadataStore.Orderly G L ∧ Wal.replays env s.wal.fs = [] ∨
      ∃ G₀ L₀ m put lsn, Unfinished env G L d G₀ L₀ m put lsn ∧
        (∃ k, MetadataStore.Underway env put m k s.metadataStore) ∧
        Wal.replays env s.wal.fs = [⟨lsn, .putObject put⟩] := by
    rw [tables, wal]
    rcases rest with idle | ⟨G₀, L₀, m, put, lsn, stopped⟩
    · exact .inl idle
    · rcases stopped.pending (wal ▸ few) with idle | pending
      · exact .inl idle
      · exact .inr ⟨G₀, L₀, m, put, lsn, stopped, pending⟩
  rcases cases with ⟨order, idle⟩ | ⟨G₀, L₀, m, put, lsn, stopped, ⟨k, stage⟩, pending⟩
  · apply (safe_openInternal_idle firm idle).mono
    · rintro r t ⟨same, firm', log, ok⟩
      rw [← same] at order
      have idle' := log.replays.trans idle
      exact ⟨inOrder_down order subset_rfl firm' idle',
        fun done => inOrder_running order subset_rfl (ok done) idle'⟩
    · rintro t ⟨same, left⟩ d' cut
      obtain ⟨-, wal', tables'⟩ := cut
      have tables' : d'.tables = t.metadataStore := tables'
      obtain ⟨firm', log⟩ := left _ wal'
      rw [← same, ← tables'] at order
      exact inOrder_down order subset_rfl firm' (log.replays.trans idle)
  · have takes : m.Takes env put := stopped.orderly.takes stopped.choice
    apply (safe_openInternal_redo firm takes pending stage).mono
    · rintro r t ⟨firm', err, ok⟩
      cases r with
      | error e =>
        obtain ⟨same, log⟩ := err e rfl
        rw [← same] at stage
        have left : PutLeft env m lsn put t.disk.tables t.disk.wal :=
          .begun k stage (log.replays.trans pending)
        exact ⟨left.inOrder stopped.orderly stopped.choice firm' stopped.generated stopped.listed.2,
          fun failed => by cases failed⟩
      | ok _ =>
        obtain ⟨between, done, idle⟩ := ok rfl
        have added := stopped.orderly.underway_added stopped.choice done (by omega)
        have order : t.metadataStore.Orderly G (L ∪ t.metadataStore.listed) :=
          added.mono stopped.generated (Set.union_subset stopped.listed.2 added.lists)
            Set.subset_union_right
        exact ⟨⟨firm', .inl ⟨order, idle⟩⟩, fun _ => ⟨order, between, idle⟩⟩
    · intro t left d' cut
      obtain ⟨-, wal', tables'⟩ := cut
      have tables' : d'.tables = t.metadataStore := tables'
      obtain ⟨firm', put', -⟩ := left _ wal'
      rw [← tables'] at put'
      exact put'.inOrder stopped.orderly stopped.choice firm' stopped.generated stopped.listed.2

theorem inOrder_closed (h : (EnginePhase.running s).InOrder env G L) :
    (EnginePhase.down s.disk).InOrder env G L := by
  obtain ⟨order, between, idle⟩ := h
  exact ⟨between.firm, .inl ⟨order, idle⟩⟩

/-- Between two operations a power cut changes nothing that matters here. -/
theorem inOrder_cut (h : (EnginePhase.down d).InOrder env G L) (cut : d.PowerCut d') :
    (EnginePhase.down d').InOrder env G (L ∪ d'.tables.listed) := by
  obtain ⟨firm, rest⟩ := h
  obtain ⟨-, wal, tables⟩ := cut
  obtain ⟨firm', log⟩ := firm.cutLeaves _ wal
  have log : SameLog env d.wal d'.wal := log
  rcases rest with ⟨order, idle⟩ | ⟨G₀, L₀, m, put, lsn, stopped⟩
  · rw [← tables] at order
    exact inOrder_down order subset_rfl firm' (log.replays.trans idle)
  · have left : PutLeft env m lsn put d'.tables d'.wal := by
      rw [tables]
      cases stopped.left with
      | begun k stage pending => exact .begun k stage (log.replays.trans pending)
      | done stage pending =>
        rw [← log.replays] at pending
        exact .done stage pending
    exact left.inOrder stopped.orderly stopped.choice firm' stopped.generated stopped.listed.2

/-- A call that edits the tables, or collects, and leaves the log alone. -/
theorem inOrder_call {call : EngineCall} (h : (EnginePhase.running s).InOrder env G L)
    (room : s.metadataStore.Roomy) (spares : ¬ call.Empties s.metadataStore)
    (other : ∀ name file generated, call ≠ .put name file generated) :
    Safe (engineMachine .none)
      (fun _ t => t.metadataStore.Orderly G (L ∪ t.metadataStore.listed) ∧ t.wal = s.wal)
      (fun t => t.metadataStore.Orderly G (L ∪ t.metadataStore.listed) ∧ t.wal = s.wal)
      (call.run env) s := by
  obtain ⟨order, -, -⟩ := h
  have same : s.metadataStore.Orderly G (L ∪ s.metadataStore.listed) := order.remembered subset_rfl
  rcases call.onlyEdits_or with only | ⟨name, file, generated, rfl⟩ | rfl
  · by_cases rolls : ∃ name target writes, call = .rollback name target writes
    · obtain ⟨name, target, writes, rfl⟩ := rolls
      have done {t : StorageEngine} (h : t = s ∨ ∃ m, s.metadataStore.RollsBack env (Text.trim name)
          target m ∧ t = s.withTables m) :
          t.metadataStore.Orderly G (L ∪ t.metadataStore.listed) ∧ t.wal = s.wal := by
        rcases h with rfl | ⟨m, rolled, rfl⟩
        · exact ⟨same, rfl⟩
        · exact ⟨order.rollsBack room (.edit (.rollback name target writes) only rolled) rolled, rfl⟩
      show Safe _ _ _ (rollbackFile env name target writes >>= fun _ => pure ()) s
      apply safe_ignored
      exact (safe_rollbackFile name target writes).mono (fun _ _ h => done h) fun _ h => done h
    · have each {t : StorageEngine} (h : s.Edited (call.Edits env) t) :
          t.metadataStore.Orderly G (L ∪ t.metadataStore.listed) ∧ t.wal = s.wal := by
        obtain ⟨m', rfl, steps⟩ := h
        refine ⟨(order.edits only spares (fun name target writes same => ?_) steps).remembered subset_rfl, rfl⟩
        exact rolls ⟨name, target, writes, same⟩
      exact (safe_call only).mono (fun _ _ h => each h) fun _ h => each h
  · exact absurd rfl (other name file generated)
  · have done {t : StorageEngine} (h : t.metadataStore.Orderly G L ∧ t.wal = s.wal) :
        t.metadataStore.Orderly G (L ∪ t.metadataStore.listed) ∧ t.wal = s.wal :=
      ⟨h.1.remembered subset_rfl, h.2⟩
    show Safe _ _ _ (StorageEngine.gc env >>= fun _ => pure ()) s
    apply safe_ignored
    apply (safe_gc_names (fun m w => m.Orderly G L ∧ w = s.wal) (fun m w id h => ?_) s ⟨order, rfl⟩).mono
    · exact fun _ _ h => done h
    · exact fun _ h => done h
    · exact ⟨h.1.congr rfl rfl, h.2⟩

theorem inOrder_put (h : (EnginePhase.running s).InOrder env G L) (room : s.metadataStore.Roomy)
    {name : String} {file : SourceFile} {generated : ObjectId} (fresh : generated ∉ G)
    (next : s.wal.mem.checkpointLsn < s.wal.mem.currentLsn + 1) :
    Safe (engineMachine .none)
      (fun _ t => (EnginePhase.running t).InOrder env (insert generated G) (L ∪ t.metadataStore.listed))
      (fun t => ∀ d', t.disk.PowerCut d' →
        (EnginePhase.down d').InOrder env (insert generated G) (L ∪ d'.tables.listed))
      ((EngineCall.put name file generated).run env) s := by
  obtain ⟨order, between, idle⟩ := h
  have grown : G ⊆ insert generated G := Set.subset_insert _ _
  have chooses (put : WalPutPayload) (of : PutOf env s.metadataStore name file generated put) :
      s.metadataStore.Chooses G put ∧ insert put.objectId G ⊆ insert generated G :=
    order.chooses fresh room of.target
  rw [← between.saved] at next
  show Safe _ _ _ (putFileNamed env name file generated >>= fun _ => pure ()) s
  apply safe_ignored
  apply (safe_putFileNamed between idle next fun put of => order.takes (chooses put of).1).mono
  · rintro r t ⟨between', idle', err, ok⟩
    cases r with
    | error e =>
      have same := err e rfl
      exact inOrder_running (same ▸ order) grown between' idle'
    | ok summary =>
      obtain ⟨put, of, -, -, done⟩ := ok summary rfl
      obtain ⟨choice, within⟩ := chooses put of
      exact ⟨(order.underway choice done).1.mono within subset_rfl Set.subset_union_right, between', idle'⟩
  · intro t left d' cut
    obtain ⟨-, wal, tables⟩ := cut
    have tables : d'.tables = t.metadataStore := tables
    obtain ⟨firm, left, -⟩ := left _ wal
    rw [← tables] at left
    cases left with
    | nothing same _ covered =>
      exact inOrder_down (same ▸ order) grown firm (Wal.replays_eq_nil.2 covered)
    | logged put of left =>
      obtain ⟨choice, within⟩ := chooses put of
      exact left.inOrder order choice firm within (Set.subset_insert _ _)

/-- A call of which the result does not matter. -/
theorem inOrder_run {call : EngineCall} (h : (EnginePhase.running s).InOrder env G L)
    (fresh : ∀ id ∈ call.generated, id ∉ G) (spares : ¬ call.Empties s.metadataStore)
    (room : s.metadataStore.Roomy) (next : s.wal.mem.checkpointLsn < s.wal.mem.currentLsn + 1) :
    Safe (engineMachine .none)
      (fun _ t => (EnginePhase.running t).InOrder env (G ∪ call.generated) (L ∪ t.metadataStore.listed))
      (fun t => ∀ d', t.disk.PowerCut d' →
        (EnginePhase.down d').InOrder env (G ∪ call.generated) (L ∪ d'.tables.listed))
      (call.run env) s := by
  by_cases puts : ∃ name file generated, call = .put name file generated
  · obtain ⟨name, file, generated, rfl⟩ := puts
    have same : G ∪ (EngineCall.put name file generated).generated = insert generated G :=
      Set.union_singleton
    rw [same]
    exact inOrder_put h room (fresh generated rfl) next
  · have others := inOrder_call h room spares fun name file generated same =>
      puts ⟨name, file, generated, same⟩
    obtain ⟨-, between, idle⟩ := h
    have grown : G ⊆ G ∪ call.generated := Set.subset_union_left
    apply others.mono
    · rintro r t ⟨order, log⟩
      rw [← log] at between idle
      exact EnginePhase.InOrder.mono ⟨order, between, idle⟩ grown
    · rintro t ⟨order, log⟩ d' ⟨-, wal, tables⟩
      have tables : d'.tables = t.metadataStore := tables
      rw [← log] at between idle
      obtain ⟨firm, same⟩ := between.firm.cutLeaves _ wal
      have same : SameLog env t.wal.fs d'.wal := same
      rw [← tables] at order
      exact EnginePhase.InOrder.mono ⟨firm, .inl ⟨order, same.replays.trans idle⟩⟩ grown

end Phases

/-- Every step keeps to it. -/
theorem EngineStep.inOrder {run run' : EngineRun} {act : EngineAct} (step : EngineStep env run act run')
    (careful : Careful env run act)
    (h : run.phase.InOrder env run.history.generated run.history.listed) :
    run'.phase.InOrder env run'.history.generated run'.history.listed := by
  obtain ⟨phase, g⟩ := run
  obtain ⟨faultless, calls, opens⟩ := careful
  cases step with
  | mk step =>
    have grown {act : EngineAct} {phase : EnginePhase} : g.generated ⊆ (g.next act phase).generated :=
      Set.subset_union_left
    cases step with
    | opened starts returned =>
      obtain rfl := faultless
      exact ((inOrder_opens h starts (opens _ rfl trivial)).returns returned |>.2 rfl).mono grown
    | openFailed starts returned =>
      obtain rfl := faultless
      exact ((inOrder_opens h starts (opens _ rfl trivial)).returns returned |>.1).mono grown
    | openCrashed starts crashed cut =>
      obtain rfl := faultless
      exact ((inOrder_opens h starts (opens _ rfl trivial)).crashes crashed _ cut).mono grown
    | returned returned =>
      obtain rfl := faultless
      obtain ⟨fresh, spares, room, next⟩ := calls _ _ rfl rfl
      exact (inOrder_run h fresh spares room next).returns returned
    | crashed crashed cut =>
      obtain rfl := faultless
      obtain ⟨fresh, spares, room, next⟩ := calls _ _ rfl rfl
      exact (inOrder_run h fresh spares room next).crashes crashed _ cut
    | @powerCut s d cut => exact (inOrder_cut (inOrder_closed h) cut).mono grown
    | downCut cut => exact (inOrder_cut h cut).mono grown
    | closed =>
      exact ⟨(inOrder_closed h).1, .inl ⟨h.1.remembered grown, h.2.2⟩⟩

/-- So do runs. -/
theorem EngineReachable.inOrder {run : EngineRun} (h : EngineReachable env (Careful env) run) :
    run.phase.InOrder env run.history.generated run.history.listed := by
  induction h with
  | start =>
    refine ⟨⟨?_, ?_, ?_⟩, .inl ⟨.empty, Wal.replays_of_logged_nil (Wal.logged_of_none ?_)⟩⟩
    all_goals simp [Disk.new, Wal.Intact, Fs.file]
  | step _ step careful ih => exact step.inOrder careful ih

end OosLite
