import OosLite.Engine.Proofs.Redo

/-!
# Opening what a put left

Where nothing is to be replayed an open leaves the tables as they are. The record of one put makes its
transactions, however many of them were made before, and however often this is stopped.
-/

namespace OosLite

open Files Effect StorageEngine

variable {env : Env} {put : WalPutPayload} {m : MetadataStore} {s : StorageEngine} {k : Nat}
  {lsn : UInt64}

/-- A program that leaves the tables and the log alone, before another one. -/
theorem safe_besides {α β : Type} {f : Faults} {p : EngineProg α} {q : α → EngineProg β}
    {Q : Result β → StorageEngine → Prop} {C : StorageEngine → Prop}
    (alone : ∀ J : MetadataStore → WalState → Prop,
      Maintains (engineMachine f) (fun t => J t.metadataStore t.wal) p)
    (crash : ∀ t : StorageEngine, t.metadataStore = s.metadataStore → t.wal = s.wal → C t)
    (failed : ∀ e (t : StorageEngine), t.metadataStore = s.metadataStore → t.wal = s.wal →
      Q (.error e) t)
    (next : ∀ a (t : StorageEngine), t.metadataStore = s.metadataStore → t.wal = s.wal →
      Safe (engineMachine f) Q C (q a) t) : Safe (engineMachine f) Q C (p >>= q) s := by
  rw [safe_bind]
  apply (alone (fun m w => m = s.metadataStore ∧ w = s.wal) s ⟨rfl, rfl⟩).mono ?_
    fun t left => crash t left.1 left.2
  rintro r t ⟨tables, log⟩
  cases r with
  | error e => exact failed e t tables log
  | ok a => exact next a t tables log

section Parts

variable (J : MetadataStore → WalState → Prop) {f : Faults}

theorem maintains_replayChunk (chunk : ChunkId × Bytes) :
    Maintains (engineMachine f) (fun t => J t.metadataStore t.wal) (replayChunk env chunk) := by
  apply Maintains.bind (maintains_besides J _)
  intro there
  apply Maintains.when
  apply Maintains.bind (maintains_besides J _)
  exact fun actual => Maintains.when (.throw _)

theorem maintains_requireChunk (id : ChunkId) :
    Maintains (engineMachine f) (fun t => J t.metadataStore t.wal) (requireChunk id) := by
  apply Maintains.bind (maintains_besides J _)
  exact fun there => Maintains.when (.throw _)

end Parts

/-- Without faults, a put of the log is made again to its end, unless a chunk is missing. -/
theorem safe_replayPut {C : StorageEngine → Prop} (takes : m.Takes env put)
    (h : MetadataStore.Underway env put m k s.metadataStore)
    (crash : ∀ (t : StorageEngine) k', t.wal = s.wal →
      MetadataStore.Underway env put m k' t.metadataStore → C t) :
    Safe (engineMachine .none)
      (fun r t => t.wal = s.wal ∧ (∀ e, r = .error e → t.metadataStore = s.metadataStore) ∧
        (r = .ok () → MetadataStore.Underway env put m 3 t.metadataStore)) C (replayPut env put) s := by
  have same (t : StorageEngine) (tables : t.metadataStore = s.metadataStore) (log : t.wal = s.wal) :
      C t := crash t k log (tables ▸ h)
  unfold replayPut
  apply safe_besides fun J => Maintains.forEach (fun _ chunk _ => maintains_replayChunk J chunk) ()
  · exact same
  · exact fun e t tables log => ⟨log, fun _ _ => tables, fun failed => by cases failed⟩
  intro _ t tables log
  rw [← tables, ← log] at same
  apply safe_besides fun J => maintains_besides J _
  · exact same
  · exact fun e u tables' log' => ⟨log'.trans log, fun _ _ => tables'.trans tables, fun failed => by cases failed⟩
  intro _ u tables' log'
  rw [← tables', ← log'] at same
  apply safe_besides fun J => Maintains.forEach (fun _ id _ => maintains_requireChunk J id) ()
  · exact same
  · exact fun e v tables'' log'' => ⟨log''.trans (log'.trans log),
      fun _ _ => tables''.trans (tables'.trans tables), fun failed => by cases failed⟩
  intro _ v tables'' log''
  have wal : v.wal = s.wal := log''.trans (log'.trans log)
  have underway : MetadataStore.Underway env put m k v.metadataStore := by
    rw [tables'', tables', tables]
    exact h
  apply (safe_storePut takes underway fun k' n _ h' => crash (v.withTables n) k' wal h').mono ?_
    fun _ left => left
  rintro r w ⟨ok, n, rfl, done⟩
  rw [ok]
  exact ⟨wal, fun _ failed => (by cases failed), fun _ => done⟩

/-- Nothing is replayed. -/
theorem safe_recover_idle (between : Wal.Between env s.wal) (idle : Wal.replays env s.wal.fs = []) :
    Safe (engineMachine .none) (fun r t => r = .ok () ∧ t = s) (fun _ => False) (recover env) s := by
  unfold recover
  rw [safe_bind]
  apply safe_log
  apply (between.read fun _ failed => failed).mono ?_ fun _ never => never
  rintro r w ⟨rfl, rfl⟩
  rw [thenSafe_ok, idle]
  apply safe_when
  · exact fun some => absurd rfl some
  · exact fun _ => ⟨rfl, rfl⟩

/-- One put is replayed. -/
theorem safe_recover_redo (between : Wal.Between env s.wal) (takes : m.Takes env put)
    (pending : Wal.replays env s.wal.fs = [⟨lsn, .putObject put⟩])
    (current : s.wal.mem.currentLsn = lsn)
    (h : MetadataStore.Underway env put m k s.metadataStore) :
    Safe (engineMachine .none)
      (fun r t => Wal.Between env t.wal ∧
        (∀ e, r = .error e → t.metadataStore = s.metadataStore ∧ t.wal = s.wal) ∧
        (r = .ok () → MetadataStore.Underway env put m 3 t.metadataStore ∧
          Wal.replays env t.wal.fs = []))
      (fun t => Wal.CutLeaves env (fun fs => PutLeft env m lsn put t.metadataStore fs ∧
        (Wal.logged env fs).length ≤ (Wal.logged env s.wal.fs).length) t.wal.fs)
      (recover env) s := by
  have there : ⟨lsn, .putObject put⟩ ∈ Wal.replays env s.wal.fs := by
    rw [pending]
    exact List.mem_singleton_self _
  obtain ⟨there, overdue⟩ := List.mem_filter.1 there
  have overdue : Wal.savedLsn s.wal.fs < lsn := of_decide_eq_true overdue
  have above (r : WalRecord) (hr : r ∈ Wal.logged env s.wal.fs) : r.lsn ≤ lsn := by
    by_cases more : Wal.savedLsn s.wal.fs < r.lsn
    · have replayed : r ∈ Wal.replays env s.wal.fs := List.mem_filter.2 ⟨hr, decide_eq_true more⟩
      rw [pending] at replayed
      rw [List.mem_singleton.1 replayed]
      exact UInt64.le_refl _
    · exact UInt64.le_trans (UInt64.not_lt.1 more) (UInt64.le_of_lt overdue)
  unfold recover
  rw [safe_bind]
  apply safe_log
  apply (between.read fun _ failed => failed).mono ?_ fun _ never => never.elim
  rintro r w ⟨rfl, rfl⟩
  rw [thenSafe_ok, pending]
  apply safe_when
  swap
  · exact fun none => absurd (not_not.1 none) (List.cons_ne_nil _ _)
  intro _
  rw [safe_bind]
  apply safe_log
  rw [Proc.safe_load, thenSafe_ok, safe_bind]
  unfold Prog.forEach Prog.forEach replayRecord
  show Safe _ _ _ ((replayPut env put >>= fun _ => _) >>= fun lsn => pure lsn) _
  rw [safe_bind, safe_bind]
  apply (safe_replayPut (C := fun t => Wal.CutLeaves env (fun fs => PutLeft env m lsn put
    t.metadataStore fs ∧ (Wal.logged env fs).length ≤ (Wal.logged env s.wal.fs).length) t.wal.fs)
    takes h ?_).mono ?_ fun _ left => left
  · intro t k' log underway
    rw [log]
    apply between.firm.cutLeaves.mono
    rintro fs ⟨logged, saved⟩
    refine ⟨.begun k' underway ?_, by rw [logged]⟩
    unfold Wal.replays at pending ⊢
    rw [logged, saved, pending]
  · rintro r t ⟨log, err, ok⟩
    cases r with
    | error e =>
      have log : t.wal = s.wal := log
      refine ⟨by rw [log]; exact between, fun _ _ => ⟨err e rfl, log⟩, fun failed => by cases failed⟩
    | ok _ =>
      have done := ok rfl
      have log : t.wal = s.wal := log
      have highest : (if lsn > s.wal.mem.checkpointLsn then lsn else s.wal.mem.checkpointLsn) = lsn := by
        rw [← between.saved]
        exact if_pos overdue
      rw [thenSafe_ok]
      show Safe _ _ _ (StorageEngine.log (Wal.checkpoint
        (if lsn > s.wal.mem.checkpointLsn then lsn else s.wal.mem.checkpointLsn))) t
      rw [highest]
      apply safe_log
      rw [← log] at between current there above
      apply (between.checkpoint (fun _ failed => failed) lsn).mono
      · rintro r w ⟨rfl, between', -, -, empty⟩
        rw [if_pos (by rw [current]; exact UInt64.le_refl _)] at empty
        exact ⟨between', fun _ failed => (by cases failed),
          fun _ => ⟨done, Wal.replays_of_logged_nil empty⟩⟩
      · intro w left
        apply left.mono
        intro fs left
        refine ⟨.of_checkpoint done there above left, ?_⟩
        rw [← log]
        rcases left with same | ⟨-, part⟩
        · rw [same]
        · exact part.length_le

/-! ## Opening -/

variable (env) in
/-- The directory of a log, with the same records and the same checkpoint. -/
def SameLog (fs fs' : Fs WalPath) : Prop :=
  Wal.logged env fs' = Wal.logged env fs ∧ Wal.savedLsn fs' = Wal.savedLsn fs

theorem SameLog.replays {fs fs' : Fs WalPath} (h : SameLog env fs fs') :
    Wal.replays env fs' = Wal.replays env fs := by
  unfold Wal.replays
  rw [h.1, h.2]

/-- An open comes to its recovery with the tables as they were. -/
theorem safe_openInternal {Q : Result Unit → StorageEngine → Prop} {C : StorageEngine → Prop}
    (firm : Wal.Firm env s.wal.fs)
    (crash : ∀ t : StorageEngine, t.metadataStore = s.metadataStore →
      Wal.CutLeaves env (SameLog env s.wal.fs) t.wal.fs → C t)
    (failed : ∀ e (t : StorageEngine), t.metadataStore = s.metadataStore → t.wal = s.wal →
      Q (.error e) t)
    (next : ∀ t : StorageEngine, t.metadataStore = s.metadataStore → Wal.Between env t.wal →
      SameLog env s.wal.fs t.wal.fs →
      (∀ record, Wal.replays env s.wal.fs = [record] → t.wal.mem.currentLsn = record.lsn) →
      Safe (engineMachine .none) Q C (recover env) t) :
    Safe (engineMachine .none) Q C (openInternal env) s := by
  unfold openInternal
  apply safe_besides fun J => maintains_besides J _
  · intro t tables log
    apply crash t tables
    rw [log]
    exact firm.cutLeaves
  · exact failed
  intro _ t tables log
  rw [safe_bind]
  apply safe_log
  rw [← log] at firm
  apply (firm.openWithVault fun _ failed => failed).mono
  · rintro r w ⟨rfl, between, logged, saved, current⟩
    rw [log] at logged saved current
    rw [thenSafe_ok]
    exact next _ tables between ⟨logged, saved⟩ current
  · intro w left
    rw [log] at left
    exact crash _ tables left

/-- An open without anything to be replayed. -/
theorem safe_openInternal_idle (firm : Wal.Firm env s.wal.fs) (idle : Wal.replays env s.wal.fs = []) :
    Safe (engineMachine .none)
      (fun r t => t.metadataStore = s.metadataStore ∧ Wal.Firm env t.wal.fs ∧
        SameLog env s.wal.fs t.wal.fs ∧ (r = .ok () → Wal.Between env t.wal))
      (fun t => t.metadataStore = s.metadataStore ∧
        Wal.CutLeaves env (SameLog env s.wal.fs) t.wal.fs) (openInternal env) s := by
  apply safe_openInternal firm
  · exact fun t tables left => ⟨tables, left⟩
  · intro e t tables log
    rw [log]
    exact ⟨tables, firm, ⟨rfl, rfl⟩, fun failed => by cases failed⟩
  · intro t tables between same _
    apply (safe_recover_idle between (same.replays.trans idle)).mono ?_ fun _ never => never.elim
    rintro r u ⟨-, rfl⟩
    exact ⟨tables, between.firm, same, fun _ => between⟩

/-- An open with one put to be replayed. -/
theorem safe_openInternal_redo (firm : Wal.Firm env s.wal.fs) (takes : m.Takes env put)
    (pending : Wal.replays env s.wal.fs = [⟨lsn, .putObject put⟩])
    (h : MetadataStore.Underway env put m k s.metadataStore) :
    Safe (engineMachine .none)
      (fun r t => Wal.Firm env t.wal.fs ∧
        (∀ e, r = .error e → t.metadataStore = s.metadataStore ∧ SameLog env s.wal.fs t.wal.fs) ∧
        (r = .ok () → Wal.Between env t.wal ∧ MetadataStore.Underway env put m 3 t.metadataStore ∧
          Wal.replays env t.wal.fs = []))
      (fun t => Wal.CutLeaves env (fun fs => PutLeft env m lsn put t.metadataStore fs ∧
        (Wal.logged env fs).length ≤ (Wal.logged env s.wal.fs).length) t.wal.fs)
      (openInternal env) s := by
  apply safe_openInternal firm
  · intro t tables left
    apply left.mono
    intro fs same
    refine ⟨.begun k (tables ▸ h) (same.replays.trans pending), by rw [same.1]⟩
  · intro e t tables log
    rw [log]
    exact ⟨firm, fun _ _ => ⟨tables, rfl, rfl⟩, fun failed => by cases failed⟩
  · intro t tables between same current
    rw [← same.1]
    apply (safe_recover_redo between takes (same.replays.trans pending) (current _ pending)
      (tables ▸ h)).mono ?_ fun _ left => left
    rintro r u ⟨between', err, ok⟩
    refine ⟨between'.firm, fun e failed => ?_, fun done => ⟨between', ok done⟩⟩
    obtain ⟨tables', log'⟩ := err e failed
    rw [log']
    exact ⟨tables'.trans tables, same⟩

end OosLite
