import OosLite.Engine.Proofs.Reads
import OosLite.Wal.Proofs.Pending

/-!
# A put that is made again

A put that was stopped leaves its record in the log, and the tables after some of its transactions.
The next open makes all of them again, which comes to the tables after the whole put.
-/

namespace OosLite

open Files Effect Relation StorageEngine

variable {env : Env} {put : WalPutPayload} {m n : MetadataStore} {k : Nat}

/-! ## Tables -/

/-- The tables after so many transactions of a put. -/
inductive MetadataStore.Underway (env : Env) (put : WalPutPayload) (m : MetadataStore) :
    Nat → MetadataStore → Prop where
  | start : Underway env put m 0 m
  | saved : Underway env put m 1 (m.saveManifest env put.manifest).2
  | added {n : MetadataStore} : (m.saveManifest env put.manifest).2.putVersion put = .ok n →
      Underway env put m 2 n
  | bound {n : MetadataStore} : (m.saveManifest env put.manifest).2.putVersion put = .ok n →
      Underway env put m 3 (n.bindName put.name put.objectId)

/-- The version of a put can be added, and is found then. -/
def MetadataStore.Takes (env : Env) (put : WalPutPayload) (m : MetadataStore) : Prop :=
  ∃ n, (m.saveManifest env put.manifest).2.putVersion put = .ok n ∧ n.putVersion put = .ok n

namespace MetadataStore

theorem insert_same {α β : Type} [Ord α] [Std.TransOrd α] [Std.LawfulEqOrd α]
    {t : Std.ExtTreeMap α β} {a : α} {b : β} (there : t[a]? = some b) : t.insert a b = t := by
  apply Std.ExtTreeMap.ext_getElem?
  intro x
  rw [Std.ExtTreeMap.getElem?_insert]
  split
  · rename_i same
    rw [← Std.LawfulEqOrd.eq_of_compare same, there]
  · rfl

/-- A manifest that is there is saved again. -/
theorem saveManifest_again {manifest : Manifest}
    (there : n.manifests[manifest.contentId]? = some (manifest.toBytes env)) :
    (n.saveManifest env manifest).2 = n := by
  unfold saveManifest
  rw [insert_same there]

/-- A name is bound again to its object. -/
theorem bindName_again (m : MetadataStore) (name : String) (id : ObjectId) :
    (m.bindName name id).bindName name id = m.bindName name id := by
  unfold bindName
  simp only
  rw [insert_same (by simp)]

theorem putVersion_bindName {n' : MetadataStore} (name : String) (id : ObjectId)
    (added : n.putVersion put = .ok n') :
    (n.bindName name id).putVersion put = .ok (n'.bindName name id) := by
  unfold putVersion at added ⊢
  obtain ⟨found, known, added⟩ := Result.bind_eq_ok.1 added
  have known' : (n.bindName name id).getObject put.objectId = .ok found := known
  rw [Result.bind_eq_ok]
  refine ⟨found, known', ?_⟩
  simp only at added ⊢
  split at added
  · rename_i listed
    rw [if_pos listed]
    cases added
    rfl
  · rename_i new
    rw [if_neg new]
    cases added
    rfl

namespace Underway

theorem manifests (h : Underway env put m k n) (begun : 1 ≤ k) :
    n.manifests[put.manifest.contentId]? = some (put.manifest.toBytes env) := by
  have saved : (m.saveManifest env put.manifest).2.manifests[put.manifest.contentId]? =
      some (put.manifest.toBytes env) := by simp [saveManifest]
  cases h with
  | start => omega
  | saved => exact saved
  | added added => rw [putVersion_manifests added, saved]
  | bound added =>
    show (_ : Std.ExtTreeMap String Bytes)[put.manifest.contentId]? = _
    rw [← saved, ← putVersion_manifests added]
    rfl

/-- The first transaction, again. -/
theorem save (h : Underway env put m k n) :
    Underway env put m (max k 1) (n.saveManifest env put.manifest).2 := by
  by_cases begun : 1 ≤ k
  · rw [saveManifest_again (h.manifests begun), Nat.max_eq_left begun]
    exact h
  · cases h with
    | start => exact .saved
    | saved | added | bound => omega

/-- The second transaction, again. -/
theorem add (h : Underway env put m k n) (takes : m.Takes env put) (begun : 1 ≤ k) :
    ∃ n', n.putVersion put = .ok n' ∧ Underway env put m (max k 2) n' := by
  obtain ⟨n₂, added, again⟩ := takes
  cases h with
  | start => omega
  | saved => exact ⟨n₂, added, .added added⟩
  | added added' =>
    obtain rfl := Except.ok.inj (added.symm.trans added')
    exact ⟨n₂, again, .added added⟩
  | bound added' =>
    obtain rfl := Except.ok.inj (added.symm.trans added')
    exact ⟨_, putVersion_bindName _ _ again, .bound added⟩

/-- The last transaction, again. -/
theorem bind (h : Underway env put m k n) (begun : 2 ≤ k) :
    Underway env put m 3 (n.bindName put.name put.objectId) := by
  cases h with
  | start | saved => omega
  | added added => exact .bound added
  | bound added =>
    rw [bindName_again]
    exact .bound added

theorem le (h : Underway env put m k n) : k ≤ 3 := by
  cases h <;> omega

/-- After all transactions the put is done. -/
theorem applyPut (h : Underway env put m 3 n) : m.applyPut env put none = (.ok (), n) := by
  cases h with
  | bound added =>
    unfold MetadataStore.applyPut
    simp only [added, reduceCtorEq, if_false]

end Underway

end MetadataStore

/-! ## The transactions of a put -/

section Programs

variable {C : StorageEngine → Prop} {s : StorageEngine}

/-- Without faults, a version is added as its transaction says. -/
theorem safe_addVersion {n' : MetadataStore} (added : s.metadataStore.putVersion put = .ok n')
    (before : C s) (after : C (s.withTables n')) :
    Safe (engineMachine .none) (fun r t => r = .ok () ∧ t = s.withTables n') C (addVersion put) s := by
  unfold MetadataStore.putVersion at added
  obtain ⟨found, known, added⟩ := Result.bind_eq_ok.1 added
  unfold addVersion
  rw [safe_bind]
  apply safe_query
  · rw [known, thenSafe_ok]
    simp only at added ⊢
    apply safe_when
    · intro new
      rw [if_neg new] at added
      cases added
      exact safe_update before after ⟨rfl, rfl⟩ fun failed => failed.elim
    · intro old
      rw [if_pos (not_not.1 old)] at added
      cases added
      exact ⟨rfl, rfl⟩
  · exact fun failed => failed.elim

/-- Without faults, the transactions of a put that was begun are made to the end. -/
theorem safe_storePut (takes : m.Takes env put) (h : MetadataStore.Underway env put m k s.metadataStore)
    (crash : ∀ k' n, k ≤ k' → MetadataStore.Underway env put m k' n → C (s.withTables n)) :
    Safe (engineMachine .none)
      (fun r t => r = .ok () ∧ ∃ n, t = s.withTables n ∧ MetadataStore.Underway env put m 3 n) C
      (storePut env put) s := by
  have first := h.save
  obtain ⟨n, added, second⟩ := first.add takes (Nat.le_max_right k 1)
  have third := second.bind (Nat.le_max_right _ 2)
  unfold storePut
  rw [safe_bind]
  apply safe_update
  · exact crash k _ (Nat.le_refl k) h
  · exact crash _ _ (Nat.le_max_left k 1) first
  · rw [thenSafe_ok, safe_bind]
    apply (safe_addVersion (C := C) (s := s.withTables (s.metadataStore.saveManifest env put.manifest).2)
      added (crash _ _ (Nat.le_max_left k 1) first) (crash _ _ (by omega) second)).mono ?_
      fun _ left => left
    rintro r t ⟨rfl, rfl⟩
    rw [thenSafe_ok]
    apply safe_update
    · exact crash _ _ (by omega) second
    · exact crash 3 _ h.le third
    · exact ⟨rfl, _, rfl, third⟩
    · exact fun failed => failed.elim
  · exact fun failed => failed.elim

/-- A program of the segment store leaves the log and the tables alone. -/
theorem maintains_besides {α : Type} (J : MetadataStore → WalState → Prop) {f : Faults} (p : SegProg α) :
    Maintains (engineMachine f) (fun t => J t.metadataStore t.wal) (segments p) := by
  intro t ht
  apply safe_segments
  apply (safe_trivial p t.segmentStore).mono
  · intro r g _
    exact ht
  · intro g _
    exact ht

/-- What is read is what one of the attempts gave. -/
theorem safe_stableRead (J : MetadataStore → WalState → Prop) {f : Faults} (readings : List Reading)
    (h : J s.metadataStore s.wal) :
    Safe (engineMachine f)
      (fun r t => J t.metadataStore t.wal ∧ ∀ content n, r = .ok (content, n) →
        ∃ reading ∈ readings, reading.content = content ∧ reading.failure = none ∧
          reading.stable = true)
      (fun t => J t.metadataStore t.wal) (stableRead env readings) s := by
  induction readings generalizing s with
  | nil => exact ⟨h, fun _ _ failed => by cases failed⟩
  | cons reading rest ih =>
    have chunks : Maintains (engineMachine f) (fun t => J t.metadataStore t.wal)
        (putChunks env (reading.chunks env)) := by
      apply Maintains.forEach
      intro count data _
      exact Maintains.bind (maintains_besides J _) fun _ => .pure _
    unfold stableRead readOnce
    rw [safe_bind, safe_bind]
    apply (chunks s h).mono ?_ fun _ left => left
    intro r t ht
    cases r with
    | error e => exact ⟨ht, fun _ _ failed => by cases failed⟩
    | ok n =>
      rw [thenSafe_ok]
      cases failure : reading.failure with
      | some failed => exact ⟨ht, fun _ _ failed => by cases failed⟩
      | none =>
        show Safe _ _ _ (if reading.stable then _ else _) t
        by_cases stable : reading.stable = true
        · rw [if_pos stable]
          refine ⟨ht, fun content count same => ?_⟩
          cases same
          exact ⟨reading, List.mem_cons_self, rfl, failure, stable⟩
        · rw [if_neg stable]
          apply (ih ht).mono ?_ fun _ left => left
          rintro r u ⟨hu, found⟩
          refine ⟨hu, fun content count same => ?_⟩
          obtain ⟨other, there, whole⟩ := found content count same
          exact ⟨other, List.mem_cons_of_mem reading there, whole⟩

end Programs

/-! ## A put that is stopped -/

/-- The put that a call makes of a file. -/
structure PutOf (env : Env) (m : MetadataStore) (name : String) (file : SourceFile)
    (generated : ObjectId) (put : WalPutPayload) : Prop where
  named : put.name = Text.trim name
  valid : validateLogicalName put.name = .ok ()
  target : m.putTarget put.name generated = .ok (put.objectId, put.version)
  present : file.exists = true
  reading : ∃ i createdAt, (file.readings i).failure = none ∧ (file.readings i).stable = true ∧
    put.manifest = manifestOf env (file.readings i).content createdAt
  alone : put.chunks = []

/-- What is left of a put that was stopped with its record in the log: some of its transactions, and
the record is replayed, or all of them. -/
inductive PutLeft (env : Env) (m : MetadataStore) (lsn : UInt64) (put : WalPutPayload)
    (n : MetadataStore) (fs : Fs WalPath) : Prop where
  | begun (k : Nat) : MetadataStore.Underway env put m k n →
      Wal.replays env fs = [⟨lsn, .putObject put⟩] → PutLeft env m lsn put n fs
  | done : MetadataStore.Underway env put m 3 n →
      Wal.replays env fs = [] ∨ ⟨lsn, .putObject put⟩ ∈ Wal.replays env fs →
      PutLeft env m lsn put n fs

/-- What is left of a put that was stopped anywhere. Without its record the tables are as they were. -/
inductive LeftBy (env : Env) (m : MetadataStore) (lsn : UInt64) (puts : WalPutPayload → Prop)
    (n : MetadataStore) (fs : Fs WalPath) : Prop where
  | nothing : n = m → Wal.savedLsn fs < lsn → (∀ r ∈ Wal.logged env fs, r.lsn ≤ Wal.savedLsn fs) →
      LeftBy env m lsn puts n fs
  | logged (put : WalPutPayload) : puts put → PutLeft env m lsn put n fs → LeftBy env m lsn puts n fs

section Puts

variable {s : StorageEngine} {name : String} {file : SourceFile} {generated : ObjectId}

/-- A record that a checkpoint of it covers, in a crash of that. -/
theorem PutLeft.of_checkpoint {fs₀ fs : Fs WalPath} {lsn : UInt64}
    (done : MetadataStore.Underway env put m 3 n)
    (there : ⟨lsn, .putObject put⟩ ∈ Wal.logged env fs₀)
    (above : ∀ r ∈ Wal.logged env fs₀, r.lsn ≤ lsn)
    (left : Wal.logged env fs = Wal.logged env fs₀ ∨
      Wal.savedLsn fs = lsn ∧ Wal.logged env fs <+: Wal.logged env fs₀) :
    PutLeft env m lsn put n fs := by
  rcases left with same | ⟨saved, part⟩
  · rw [← same] at there above
    exact .done done (Wal.replays_or_mem there above)
  · refine .done done (.inl (Wal.replays_eq_nil.2 fun r hr => ?_))
    rw [saved]
    exact above r (part.subset hr)

/-- A put without faults, from an open log of which nothing is to be replayed: it does all of its
transactions, or fails and does nothing. What is left when it is stopped is known. -/
theorem safe_putFileNamed (between : Wal.Between env s.wal) (idle : Wal.replays env s.wal.fs = [])
    (next : Wal.savedLsn s.wal.fs < s.wal.mem.currentLsn + 1)
    (takes : ∀ put, PutOf env s.metadataStore name file generated put → s.metadataStore.Takes env put) :
    Safe (engineMachine .none)
      (fun r t => Wal.Between env t.wal ∧ Wal.replays env t.wal.fs = [] ∧
        (∀ e, r = .error e → t.metadataStore = s.metadataStore) ∧
        ∀ summary, r = .ok summary → ∃ put, PutOf env s.metadataStore name file generated put ∧
          summary.objectId = put.objectId ∧ summary.version = put.version ∧
          MetadataStore.Underway env put s.metadataStore 3 t.metadataStore)
      (fun t => Wal.CutLeaves env (fun fs => LeftBy env s.metadataStore
        (s.wal.mem.currentLsn + 1) (PutOf env s.metadataStore name file generated) t.metadataStore fs ∧
        (Wal.logged env fs).length ≤ (Wal.logged env s.wal.fs).length + 1) t.wal.fs)
      (putFileNamed env name file generated) s := by
  have covered := Wal.replays_eq_nil.1 idle
  have untouched {fs : Fs WalPath} {n : MetadataStore} (tables : n = s.metadataStore)
      (logged : Wal.logged env fs = Wal.logged env s.wal.fs)
      (saved : Wal.savedLsn fs = Wal.savedLsn s.wal.fs) : LeftBy env s.metadataStore
        (s.wal.mem.currentLsn + 1) (PutOf env s.metadataStore name file generated) n fs ∧
        (Wal.logged env fs).length ≤ (Wal.logged env s.wal.fs).length + 1 := by
    refine ⟨.nothing tables (by rw [saved]; exact next) ?_, by rw [logged]; exact Nat.le_succ _⟩
    rw [logged, saved]
    exact covered
  have before {t : StorageEngine} (tables : t.metadataStore = s.metadataStore)
      (log : t.wal = s.wal) : Wal.CutLeaves env (fun fs => LeftBy env s.metadataStore
        (s.wal.mem.currentLsn + 1) (PutOf env s.metadataStore name file generated) t.metadataStore fs ∧
        (Wal.logged env fs).length ≤ (Wal.logged env s.wal.fs).length + 1) t.wal.fs := by
    rw [log]
    exact between.firm.cutLeaves.mono fun fs same => untouched tables same.1 same.2
  unfold putFileNamed
  extract_lets trimmed
  generalize valid : validateLogicalName trimmed = verdict
  rw [safe_bind, safe_ofExcept]
  cases verdict with
  | error e => exact ⟨between, idle, fun _ _ => rfl, fun _ failed => by cases failed⟩
  | ok _ =>
    rw [thenSafe_ok]
    by_cases present : file.exists = true
    swap
    · rw [if_pos present]
      exact ⟨between, idle, fun _ _ => rfl, fun _ failed => by cases failed⟩
    rw [if_neg (not_not_intro present), safe_bind]
    apply (safe_stableRead (fun m w => m = s.metadataStore ∧ w = s.wal) _ ⟨rfl, rfl⟩).mono ?_
      fun t left => before left.1 left.2
    rintro r t ⟨⟨tables, log⟩, found⟩
    cases r with
    | error e =>
      rw [← log] at between idle
      exact ⟨between, idle, fun _ _ => tables, fun _ failed => by cases failed⟩
    | ok read =>
      obtain ⟨content, newChunks⟩ := read
      obtain ⟨reading, there, rfl, whole, stable⟩ := found content newChunks rfl
      obtain ⟨i, -, rfl⟩ := List.mem_map.1 there
      rw [thenSafe_ok]
      simp only
      unfold storeFile
      rw [safe_bind]
      apply (maintains_besides (fun m w => m = s.metadataStore ∧ w = s.wal) _ t ⟨tables, log⟩).mono ?_
        fun t left => before left.1 left.2
      rintro r u ⟨tables, log⟩
      cases r with
      | error e =>
        rw [← log] at between idle
        exact ⟨between, idle, fun _ _ => tables, fun _ failed => by cases failed⟩
      | ok _ =>
        rw [thenSafe_ok, safe_bind]
        apply safe_now
        intro createdAt
        rw [thenSafe_ok, safe_bind]
        apply safe_query
        swap
        · exact fun failed => failed.elim
        cases target : u.metadataStore.putTarget trimmed generated with
        | error e =>
          rw [← log] at between idle
          exact ⟨between, idle, fun _ _ => tables, fun _ failed => by cases failed⟩
        | ok chosen =>
          rw [thenSafe_ok]
          simp only
          rw [safe_bind]
          obtain ⟨put, hput⟩ : ∃ put : WalPutPayload, put = ⟨trimmed, chosen.1, chosen.2,
            manifestOf env (file.readings i).content createdAt, []⟩ := ⟨_, rfl⟩
          have of : PutOf env s.metadataStore name file generated put := by
            refine ⟨by rw [hput], by rw [hput]; exact valid, ?_, present,
              ⟨i, createdAt, whole, stable, by rw [hput]⟩, by rw [hput]⟩
            rw [hput, ← tables]
            exact target
          show Safe _ (thenSafe _ _ _ _) _ (StorageEngine.log (Wal.appendPutAndSync env
            ⟨trimmed, chosen.1, chosen.2, manifestOf env (file.readings i).content createdAt, []⟩)) u
          rw [← hput]
          apply safe_log
          rw [← log] at between
          apply (between.append (fun _ failed => failed) put).mono
          · rintro r w ⟨between', saved, current, ok, err⟩
            rw [log] at saved current ok err
            cases r with
            | error e =>
              refine ⟨between', ?_, fun _ _ => tables, fun _ failed => by cases failed⟩
              rw [withWal_wal, err e rfl]
              exact idle
            | ok lsn =>
              obtain ⟨number, here⟩ := ok lsn rfl
              rw [number] at here
              have there : ⟨s.wal.mem.currentLsn + 1, .putObject put⟩ ∈ Wal.logged env w.fs := by
                rw [here]
                exact List.mem_append_right _ (List.mem_singleton_self _)
              have above (r : WalRecord) (hr : r ∈ Wal.logged env w.fs) :
                  r.lsn ≤ s.wal.mem.currentLsn + 1 := by
                rw [here] at hr
                rcases List.mem_append.1 hr with old | last
                · exact UInt64.le_of_lt (UInt64.lt_of_le_of_lt (covered r old) next)
                · rw [List.mem_singleton.1 last]
                  exact UInt64.le_refl _
              have one : Wal.replays env w.fs = [⟨s.wal.mem.currentLsn + 1, .putObject put⟩] := by
                unfold Wal.replays at idle ⊢
                rw [here, List.filter_append, saved, idle]
                simp [next]
              have longer : (Wal.logged env w.fs).length = (Wal.logged env s.wal.fs).length + 1 := by
                rw [here, List.length_append, List.length_singleton]
              rw [thenSafe_ok, safe_bind]
              have begun (k : Nat) (n : MetadataStore)
                  (h : MetadataStore.Underway env put s.metadataStore k n) :
                  Wal.CutLeaves env (fun fs => LeftBy env s.metadataStore (s.wal.mem.currentLsn + 1)
                    (PutOf env s.metadataStore name file generated) n fs ∧
                    (Wal.logged env fs).length ≤ (Wal.logged env s.wal.fs).length + 1) w.fs := by
                apply between'.firm.cutLeaves.mono
                rintro fs ⟨logged, same⟩
                refine ⟨.logged put of (.begun k h ?_), by rw [logged, longer]⟩
                unfold Wal.replays at one ⊢
                rw [logged, same, one]
              have unbegun : MetadataStore.Underway env put s.metadataStore 0
                  (u.withWal w).metadataStore := by
                rw [withWal_metadataStore, tables]
                exact .start
              apply (safe_storePut (takes put of) unbegun fun k n _ h => begun k n h).mono ?_
                fun _ left => left
              rintro r v ⟨rfl, n, rfl, done⟩
              rw [thenSafe_ok, safe_bind]
              apply safe_log
              apply (between'.checkpoint (fun _ failed => failed) lsn).mono
              · rintro r w' ⟨rfl, between'', -, -, empty⟩
                rw [if_pos (by rw [number, ← current]; exact UInt64.le_refl _)] at empty
                rw [thenSafe_ok, safe_pure]
                refine ⟨between'', Wal.replays_of_logged_nil empty, fun _ failed => (by cases failed),
                  fun summary same => ?_⟩
                cases same
                exact ⟨put, of, by rw [hput], by rw [hput], done⟩
              · intro w' left
                apply left.mono
                intro fs left
                rw [number] at left
                refine ⟨.logged put of (.of_checkpoint done there above left), ?_⟩
                rw [← longer]
                rcases left with same | ⟨-, part⟩
                · rw [same]
                · exact part.length_le
          · intro w left
            rw [log] at left
            apply left.mono
            rintro fs ⟨saved, same | more⟩
            · exact untouched tables same saved
            · refine ⟨.logged put of (.begun 0 ?_ ?_), ?_⟩
              · show MetadataStore.Underway env put s.metadataStore 0 u.metadataStore
                rw [tables]
                exact .start
              · unfold Wal.replays at idle ⊢
                rw [more, List.filter_append, saved, idle]
                simp [next]
              · rw [more, List.length_append, List.length_singleton]

end Puts

end OosLite
