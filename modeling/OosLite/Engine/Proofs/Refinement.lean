import OosLite.Engine.Proofs.Consistency
import OosLite.Engine.Proofs.Shown

/-!
# The engine as a store of versioned files

Every step of a run is a number of operations of the abstract store, most calls are one operation or
none, and a crash with the recovery after it keeps what was done before it.
-/

namespace OosLite

open Files Effect Relation StorageEngine

variable {env : Env} {G : Set ObjectId} {L : Set (ObjectId × UInt32 × String)} {m : MetadataStore}
  {s : StorageEngine}

/-! ## What a call asks for -/

/-- The names and versions of a store, with the identifiers of manifests for contents. -/
abbrev FileStore : Type := VersionedStore String ObjectId String

/-- What can happen to it. -/
abbrev FileOp : Type := VersionedStore.Op String ObjectId String

namespace EngineCall

/-- The operations that a call may come to. -/
def Asks (env : Env) (call : EngineCall) (op : FileOp) : Prop :=
  match call with
  | put name file generated => ∃ i createdAt, (file.readings i).failure = none ∧
    (file.readings i).stable = true ∧
    op = .put (Text.trim name) generated (manifestOf env (file.readings i).content createdAt).contentId
  | delete name => op = .delete (Text.trim name)
  | deletePrefix start => ∃ name, (Text.stripPrefix start name).isSome ∧ op = .delete name
  | unbind name => op = .unbind (Text.trim name)
  | rename oldName newName => op = .rename (Text.trim oldName) (Text.trim newName)
  | updateWatchedPrefix _ source _ _ => ∃ origin : String → Option String,
    (∀ name' name, origin name' = some name → name' = name ∨ (suffixOf source name).isSome) ∧
    op = .move origin
  | prune name keepLastN => op = .prune (Text.trim name) keepLastN
  | pruneAll keepLastN => ∃ name, op = .prune name keepLastN
  | rollback name targetVersion _ => op = .rollback (Text.trim name) targetVersion.toNat
  | get .. | createSnapshot _ | restoreSnapshot _ | deleteSnapshot _ | markWatcherFile .. | gc => False

/-- The calls that go through many files. -/
def Sweeps : EngineCall → Prop
  | deletePrefix _ | pruneAll _ => True
  | _ => False

/-- The operations that a call has come to: one or none, unless it goes through many files. -/
structure Does (env : Env) (call : EngineCall) (ops : List FileOp) : Prop where
  asked : ∀ op ∈ ops, call.Asks env op
  once : ¬ call.Sweeps → ops.length ≤ 1

end EngineCall

/-- The operations of a step. -/
def EngineAct.Does (env : Env) (act : EngineAct) (ops : List FileOp) : Prop :=
  act.call?.elim (ops = []) fun call => call.Does env ops

/-- The tables after the recovery that the next open makes. -/
def Disk.recovered (env : Env) (d : Disk) : MetadataStore :=
  (Wal.replays env d.wal).foldl (fun m record =>
    match record.payload with
    | .putObject put => (m.applyPut env put none).2
    | .checkpoint _ => m) d.tables

/-- The store that a phase comes to, if no crash brought back records that were done with. -/
def EnginePhase.Shows (env : Env) (a : FileStore) : EnginePhase → Prop
  | .running s => s.metadataStore.shown = a
  | .down d => (Wal.replays env d.wal).length ≤ 1 → (d.recovered env).shown = a

/-! ## One transaction -/

namespace StorageEngine

/-- One edit of the tables, or none. -/
def EditedOnce (R : MetadataStore → MetadataStore → Prop) (s t : StorageEngine) : Prop :=
  t = s ∨ ∃ m, R s.metadataStore m ∧ t = s.withTables m

section Once

variable {f : Faults} {fails : Prop} {R : MetadataStore → MetadataStore → Prop} {α β : Type}

/-- A transaction with a result is one edit. -/
theorem safe_transaction (g : MetadataStore → β × MetadataStore) (p : β → EngineProg α)
    (edit : R s.metadataStore (g s.metadataStore).2)
    (rest : ∀ b, Maintains (engineMachine f fails) (s.EditedOnce R) (p b)) :
    Safe (engineMachine f fails) (fun _ t => s.EditedOnce R t) (s.EditedOnce R) (do
      let m ← tables
      commit (g m).2
      p (g m).1) s := by
  have before : s.EditedOnce R s := .inl rfl
  have after : s.EditedOnce R (s.withTables (g s.metadataStore).2) := .inr ⟨_, edit, rfl⟩
  rw [safe_bind]
  apply safe_tables
  · rw [thenSafe_ok, safe_bind]
    apply safe_commit before after
    · exact rest _ _ after
    · exact fun _ => before
  · exact fun _ => before

theorem safe_pruneFileVersions (name : String) (keepLastN : Nat) :
    Safe (engineMachine f fails)
      (fun _ t => s.EditedOnce (fun m m' => m.Prunes (Text.trim name) keepLastN m') t)
      (s.EditedOnce fun m m' => m.Prunes (Text.trim name) keepLastN m')
      (pruneFileVersions name keepLastN) s := by
  unfold pruneFileVersions
  rw [safe_bind]
  apply safe_query
  swap
  · exact fun _ => .inl rfl
  cases same : namedRecord s.metadataStore (Text.trim name) with
  | error e => exact .inl rfl
  | ok found =>
    rw [thenSafe_ok]
    cases found with
    | none => exact .inl rfl
    | some record =>
      simp only
      split
      · exact .inl rfl
      · rename_i more
        have prunes : s.metadataStore.Prunes (Text.trim name) keepLastN (s.metadataStore.putObject
            { record with versions := record.versions.drop (record.versions.length - keepLastN) }) := by
          unfold namedRecord at same
          split at same
          · rename_i id bound
            exact ⟨id, record, bound, same, Nat.lt_of_not_le more, rfl⟩
          · cases same
        rw [safe_bind]
        apply safe_update
        · exact .inl rfl
        · exact .inr ⟨_, prunes, rfl⟩
        · exact .inr ⟨_, prunes, rfl⟩
        · exact fun _ => .inl rfl

theorem safe_renameFile (oldName newName : String) :
    Safe (engineMachine f fails)
      (fun _ t => s.EditedOnce ((EngineCall.rename oldName newName).Edits env) t)
      (s.EditedOnce ((EngineCall.rename oldName newName).Edits env)) (renameFile oldName newName) s := by
  unfold renameFile
  extract_lets oldName newName
  generalize validateLogicalName newName = valid
  rw [safe_bind, safe_ofExcept]
  cases valid with
  | error e => exact .inl rfl
  | ok _ =>
    rw [thenSafe_ok]
    exact safe_transaction (fun m => m.renameNameBinding oldName newName) pure rfl
      fun _ => Maintains.pure _

theorem safe_updateWatchedPrefix (watchRoot source : String) (target : Option String)
    (included : String → Bool) :
    Safe (engineMachine f fails)
      (fun _ t => s.EditedOnce ((EngineCall.updateWatchedPrefix watchRoot source target included).Edits env) t)
      (s.EditedOnce ((EngineCall.updateWatchedPrefix watchRoot source target included).Edits env))
      (updateWatchedPrefix watchRoot source target included) s := by
  unfold updateWatchedPrefix
  rw [safe_bind]
  apply safe_tables
  · rw [thenSafe_ok, safe_bind, safe_ofExcept]
    cases moved : s.metadataStore.updateWatchedPrefix watchRoot source target included with
    | error e => exact .inl rfl
    | ok found =>
      have edit : (EngineCall.updateWatchedPrefix watchRoot source target included).Edits env
          s.metadataStore found.2 := ⟨found.1, moved⟩
      rw [thenSafe_ok, safe_bind]
      apply safe_commit
      · exact .inl rfl
      · exact .inr ⟨_, edit, rfl⟩
      · exact .inr ⟨_, edit, rfl⟩
      · exact fun _ => .inl rfl
  · exact fun _ => .inl rfl

/-- Only files below a prefix are deleted with it. -/
theorem maintains_deletePrefix (start : String) :
    Maintains (engineMachine f fails)
      (s.Edited fun m m' => ∃ name, (Text.stripPrefix start name).isSome ∧ m' = (m.deleteNamedObject name).2)
      (deletePrefix start) := by
  apply Maintains.bind (maintains_query _)
  intro files
  apply Maintains.forEach
  intro count file _
  split
  · rename_i below
    exact Maintains.bind (maintains_deleteNamed _ fun _ => ⟨_, below, rfl⟩) fun _ => Maintains.pure _
  · exact .pure _

end Once

end StorageEngine

-- otherwise the elaborator runs the programs as far as it can
attribute [local irreducible] StorageEngine.putFileNamed StorageEngine.rollbackFile
  StorageEngine.renameFile StorageEngine.updateWatchedPrefix

/-! ## Calls -/

/-- The tables went on by operations that the call asks for. -/
def EngineCall.DoneBy (env : Env) (call : EngineCall) (m m' : MetadataStore) : Prop :=
  ∃ ops, call.Does env ops ∧ m'.shown = m.shown.performAll ops

section Calls

variable {call : EngineCall} {m' : MetadataStore} {f : Faults}

theorem EngineCall.doneBy_same (same : m'.shown = m.shown) : call.DoneBy env m m' :=
  ⟨[], ⟨fun _ none => absurd none List.not_mem_nil, fun _ => Nat.zero_le _⟩, same⟩

theorem EngineCall.doneBy_one {op : FileOp} (asks : call.Asks env op)
    (same : m'.shown = m.shown.perform op) : call.DoneBy env m m' := by
  refine ⟨[op], ⟨fun op' there => ?_, fun _ => Nat.le_refl _⟩, same⟩
  rw [List.mem_singleton.1 there]
  exact asks

/-- One edit that is one operation. -/
theorem EngineCall.doneBy_once {R : MetadataStore → MetadataStore → Prop} {t : StorageEngine}
    (h : s.EditedOnce R t) (edit : ∀ m, R s.metadataStore m → ∃ op, call.Asks env op ∧
      m.shown = s.metadataStore.shown.perform op) : call.DoneBy env s.metadataStore t.metadataStore := by
  rcases h with rfl | ⟨m, edited, rfl⟩
  · exact doneBy_same rfl
  · obtain ⟨op, asks, same⟩ := edit m edited
    exact doneBy_one asks same

/-- Edits that are operations one by one. -/
theorem performs_edits {R : MetadataStore → MetadataStore → Prop} {A : FileOp → Prop}
    {P : MetadataStore → Prop}
    (each : ∀ m m', P m → R m m' → P m' ∧ ∃ op, A op ∧ m'.shown = m.shown.perform op) (h : P m)
    (steps : ReflTransGen R m m') :
    P m' ∧ ∃ ops : List FileOp, (∀ op ∈ ops, A op) ∧ m'.shown = m.shown.performAll ops := by
  induction steps with
  | refl => exact ⟨h, [], fun _ none => absurd none List.not_mem_nil, rfl⟩
  | tail _ edit ih =>
    obtain ⟨h, ops, all, same⟩ := ih
    obtain ⟨h', op, asked, same'⟩ := each _ _ h edit
    refine ⟨h', ops ++ [op], fun op' there => ?_, ?_⟩
    · rcases List.mem_append.1 there with there | last
      · exact all op' there
      · rw [List.mem_singleton.1 last]
        exact asked
    · rw [same', same, VersionedStore.performAll_append]
      rfl

/-- Calls that leave names and versions alone. -/
theorem shown_of_edits (asks : ∀ op, ¬ call.Asks env op) (only : call.OnlyEdits)
    (steps : ReflTransGen (call.Edits env) m m') : m'.shown = m.shown := by
  induction steps with
  | refl => rfl
  | tail _ edit ih =>
    rw [← ih]
    cases call with
    | put | gc => exact only.elim
    | get | restoreSnapshot => exact edit.elim
    | createSnapshot label =>
      obtain ⟨named, createdAt, -, -, -, rfl⟩ := edit
      exact MetadataStore.shown_congr rfl rfl
    | deleteSnapshot label =>
      obtain rfl := edit
      exact MetadataStore.shown_congr rfl rfl
    | markWatcherFile watchRoot logicalName =>
      obtain rfl := edit
      exact MetadataStore.shown_congr rfl rfl
    | delete | unbind | rename | prune | rollback => exact absurd rfl (asks _)
    | deletePrefix start => exact absurd ⟨start, by simp [Text.stripPrefix], rfl⟩ (asks (.delete start))
    | updateWatchedPrefix watchRoot source target included =>
      exact absurd ⟨some, fun name' name same => .inl (Option.some.inj same), rfl⟩ (asks (.move some))
    | pruneAll keepLastN => exact absurd ⟨"", rfl⟩ (asks (.prune "" keepLastN))

theorem doneBy_quiet (asks : ∀ op, ¬ call.Asks env op) (only : call.OnlyEdits) :
    Safe (engineMachine f) (fun _ t => call.DoneBy env s.metadataStore t.metadataStore)
      (fun t => call.DoneBy env s.metadataStore t.metadataStore) (call.run env) s := by
  have done {t : StorageEngine} (h : s.Edited (call.Edits env) t) :
      call.DoneBy env s.metadataStore t.metadataStore := by
    obtain ⟨m', rfl, steps⟩ := h
    exact EngineCall.doneBy_same (shown_of_edits asks only steps)
  exact (safe_call only).mono (fun _ _ h => done h) fun _ h => done h

/-- Calls of one transaction. -/
theorem doneBy_transaction {α : Type} {R : MetadataStore → MetadataStore → Prop} {p : EngineProg α}
    (safe : Safe (engineMachine f) (fun _ t => s.EditedOnce R t) (s.EditedOnce R) p s)
    (edit : ∀ m, R s.metadataStore m → ∃ op, call.Asks env op ∧
      m.shown = s.metadataStore.shown.perform op) :
    Safe (engineMachine f) (fun _ t => call.DoneBy env s.metadataStore t.metadataStore)
      (fun t => call.DoneBy env s.metadataStore t.metadataStore) (p >>= fun _ => pure ()) s :=
  safe_ignored (safe.mono (fun _ _ h => EngineCall.doneBy_once h edit)
    fun _ h => EngineCall.doneBy_once h edit)

/-- However a call ends that does not store a file, it has come to operations it asks for. -/
theorem doneBy_call (order : s.metadataStore.Orderly G L) (whole : s.metadataStore.NamesWhole)
    (room : s.metadataStore.Roomy) (spares : ¬ call.Empties s.metadataStore)
    (other : ∀ name file generated, call ≠ .put name file generated) :
    Safe (engineMachine f) (fun _ t => call.DoneBy env s.metadataStore t.metadataStore)
      (fun t => call.DoneBy env s.metadataStore t.metadataStore) (call.run env) s := by
  cases call with
  | put name file generated => exact absurd rfl (other name file generated)
  | get | createSnapshot | restoreSnapshot | deleteSnapshot | markWatcherFile =>
    exact doneBy_quiet (fun _ asked => asked) trivial
  | gc =>
    show Safe _ _ _ (StorageEngine.gc env >>= fun _ => pure ()) s
    apply safe_ignored
    apply (safe_gc_names (fun m _ => m.shown = s.metadataStore.shown) (fun m w id h => ?_) s rfl).mono
    · exact fun _ _ h => EngineCall.doneBy_same h
    · exact fun _ h => EngineCall.doneBy_same h
    · rw [← h]
      exact MetadataStore.shown_congr rfl rfl
  | delete name =>
    apply doneBy_transaction (R := fun m m' => m' = (m.deleteNamedObject (Text.trim name)).2)
      (safe_transaction (fun m => m.deleteNamedObject (Text.trim name)) (fun id => pure id.isSome) rfl
        fun _ => .pure _)
    rintro m rfl
    exact ⟨_, rfl, MetadataStore.shown_deleteNamedObject _⟩
  | deletePrefix start =>
    have done {t : StorageEngine} (h : s.Edited (fun m m' => ∃ name,
        (Text.stripPrefix start name).isSome ∧ m' = (m.deleteNamedObject name).2) t) :
        (EngineCall.deletePrefix start).DoneBy env s.metadataStore t.metadataStore := by
      obtain ⟨m', rfl, steps⟩ := h
      obtain ⟨-, ops, all, same⟩ := performs_edits (P := fun _ => True)
        (A := (EngineCall.deletePrefix start).Asks env) (fun m m' _ edit => by
          obtain ⟨name, below, rfl⟩ := edit
          exact ⟨trivial, _, ⟨name, below, rfl⟩, MetadataStore.shown_deleteNamedObject _⟩) trivial steps
      exact ⟨ops, ⟨all, fun one => absurd trivial one⟩, same⟩
    show Safe _ _ _ (StorageEngine.deletePrefix start >>= fun _ => pure ()) s
    apply safe_ignored
    exact (maintains_deletePrefix start s (.refl _ s)).mono (fun _ _ h => done h) fun _ h => done h
  | unbind name =>
    apply doneBy_transaction (R := fun m m' => m' = (m.unbindName (Text.trim name)).2)
      (safe_transaction (fun m => m.unbindName (Text.trim name)) (fun id => pure id.isSome) rfl
        fun _ => .pure _)
    rintro m rfl
    exact ⟨_, rfl, MetadataStore.shown_unbindName _⟩
  | rename oldName newName =>
    apply doneBy_transaction (R := (EngineCall.rename oldName newName).Edits env)
      (safe_renameFile oldName newName)
    rintro m rfl
    exact ⟨_, rfl, MetadataStore.shown_renameNameBinding whole _ _⟩
  | updateWatchedPrefix watchRoot source target included =>
    apply doneBy_transaction (R := (EngineCall.updateWatchedPrefix watchRoot source target included).Edits env)
      (safe_updateWatchedPrefix watchRoot source target included)
    rintro m ⟨changes, moved⟩
    obtain ⟨origin, within, same⟩ := MetadataStore.shown_updateWatchedPrefix moved
    exact ⟨_, ⟨origin, within, rfl⟩, same⟩
  | prune name keepLastN =>
    apply doneBy_transaction (safe_pruneFileVersions name keepLastN)
    intro m prunes
    have some : keepLastN ≠ 0 := by
      rintro rfl
      obtain ⟨id, r, bound, -⟩ := prunes
      exact spares ⟨rfl, by rw [bound]; rfl⟩
    exact ⟨_, rfl, order.shown_prunes some prunes⟩
  | pruneAll keepLastN =>
    have done {t : StorageEngine} (h : s.Edited ((EngineCall.pruneAll keepLastN).Edits env) t) :
        (EngineCall.pruneAll keepLastN).DoneBy env s.metadataStore t.metadataStore := by
      obtain ⟨m', rfl, steps⟩ := h
      by_cases zero : keepLastN = 0
      · rcases ReflTransGen.cases_head steps with same | ⟨n, ⟨name, id, r, bound, -⟩, -⟩
        · exact EngineCall.doneBy_same (congrArg MetadataStore.shown same.symm)
        · exact absurd ⟨zero, name, by rw [bound]; rfl⟩ spares
      · obtain ⟨-, ops, all, same⟩ := performs_edits (P := fun m => m.Orderly G L)
          (A := (EngineCall.pruneAll keepLastN).Asks env) (fun m m' order edit => by
            have edited := edit
            obtain ⟨name, prunes⟩ := edited
            exact ⟨order.prunes zero (.edit (.pruneAll keepLastN) trivial edit) prunes, _, ⟨name, rfl⟩,
              order.shown_prunes zero prunes⟩) order steps
        exact ⟨ops, ⟨all, fun one => absurd trivial one⟩, same⟩
    have only : (EngineCall.pruneAll keepLastN).OnlyEdits := trivial
    exact (safe_call only).mono (fun _ _ h => done h) fun _ h => done h
  | rollback name targetVersion writes =>
    apply doneBy_transaction (R := fun m m' => m.RollsBack env (Text.trim name) targetVersion m')
      (safe_rollbackFile name targetVersion writes)
    intro m rolls
    exact ⟨_, rfl, order.shown_rollsBack room rolls⟩

/-! ### Puts -/

/-- The tables after a whole put. -/
theorem MetadataStore.Underway.unique {put : WalPutPayload} {n n' : MetadataStore}
    (h : Underway env put m 3 n) (h' : Underway env put m 3 n') : n = n' :=
  (Prod.mk.inj (h.applyPut.symm.trans h'.applyPut)).2

/-- The put of a call is the operation that it asks for. -/
theorem PutOf.shown (order : m.Orderly G L) {name : String} {file : SourceFile} {generated : ObjectId}
    {put : WalPutPayload} (of : PutOf env m name file generated put) (choice : m.Chooses G put)
    {n : MetadataStore} (done : MetadataStore.Underway env put m 3 n) :
    ∃ op, (EngineCall.put name file generated).Asks env op ∧ n.shown = m.shown.perform op := by
  obtain ⟨named, -, target, -, ⟨i, createdAt, whole, stable, manifest⟩, -⟩ := of
  refine ⟨_, ⟨i, createdAt, whole, stable, rfl⟩, ?_⟩
  rw [order.shown_put choice done, ← manifest, ← named]
  have same : (m.shown.names put.name).getD put.objectId = (m.shown.names put.name).getD generated := by
    rw [show m.shown.names put.name = m.resolveName put.name from rfl]
    unfold MetadataStore.putTarget at target
    cases bound : m.resolveName put.name with
    | some id => rfl
    | none =>
      rw [bound] at target
      exact (Prod.mk.inj (Except.ok.inj target)).1.symm
  show m.shown.put put.name put.objectId _ = m.shown.put put.name generated _
  unfold VersionedStore.put
  rw [same]

/-- What recovery comes to with no put to be made again. -/
theorem Disk.recovered_idle {d : Disk} (idle : Wal.replays env d.wal = []) :
    d.recovered env = d.tables := by
  unfold recovered
  rw [idle]
  rfl

/-- What it comes to with one. -/
theorem Disk.recovered_redo {d : Disk} {put : WalPutPayload} {lsn : UInt64} {k : Nat} {n : MetadataStore}
    (takes : m.Takes env put) (stage : MetadataStore.Underway env put m k d.tables)
    (pending : Wal.replays env d.wal = [⟨lsn, .putObject put⟩])
    (done : MetadataStore.Underway env put m 3 n) : d.recovered env = n := by
  obtain ⟨n', added, stage'⟩ := stage.save.add takes (Nat.le_max_right _ _)
  have bound := stage'.bind (Nat.le_max_right _ _)
  unfold recovered
  rw [pending, List.foldl_cons, List.foldl_nil]
  simp only [MetadataStore.applyPut, reduceCtorEq, if_false, added]
  exact bound.unique done

/-- A put that was stopped in the log is done when the store is opened again. -/
theorem PutLeft.recovered {d : Disk} {put : WalPutPayload} {lsn : UInt64}
    (left : PutLeft env m lsn put d.tables d.wal) (takes : m.Takes env put) {n : MetadataStore}
    (done : MetadataStore.Underway env put m 3 n) (few : (Wal.replays env d.wal).length ≤ 1) :
    d.recovered env = n := by
  cases left with
  | begun k stage pending => exact Disk.recovered_redo takes stage pending done
  | done stage pending =>
    rcases pending with idle | there
    · rw [Disk.recovered_idle idle]
      exact stage.unique done
    · obtain ⟨record, one⟩ : ∃ record, Wal.replays env d.wal = [record] := by
        rw [← List.length_eq_one_iff]
        have some := List.length_pos_of_mem there
        omega
      rw [one, List.mem_singleton] at there
      rw [← there] at one
      exact Disk.recovered_redo takes stage one done

end Calls

/-! ## Phases -/

section Phases

variable {a : FileStore} {d d' : Disk}

theorem shows_idle (idle : Wal.replays env d.wal = []) (shown : d.tables.shown = a) :
    (EnginePhase.down d).Shows env a := by
  intro _
  rw [Disk.recovered_idle idle]
  exact shown

theorem PutLeft.shows {put : WalPutPayload} {lsn : UInt64} {n : MetadataStore}
    (left : PutLeft env m lsn put d.tables d.wal) (takes : m.Takes env put)
    (done : MetadataStore.Underway env put m 3 n) (shown : n.shown = a) :
    (EnginePhase.down d).Shows env a := by
  intro few
  rw [left.recovered takes done few]
  exact shown

/-- The tables after a put that can be made. -/
theorem MetadataStore.Takes.done {put : WalPutPayload} (takes : m.Takes env put) :
    ∃ n, Underway env put m 3 n := by
  obtain ⟨n, added, -⟩ := takes
  exact ⟨_, .bound added⟩

/-- An open comes to the store that was shown, and so does the next one when it is stopped. -/
theorem shows_opens (h : (EnginePhase.down d).InOrder env G L) (starts : s.Starts d)
    (few : (Wal.replays env d.wal).length ≤ 1) (shows : (EnginePhase.down d).Shows env a) :
    Safe (engineMachine .none)
      (fun r t => (EnginePhase.down t.disk).Shows env a ∧ (r = .ok () → t.metadataStore.shown = a))
      (fun t => ∀ d', t.disk.PowerCut d' → (EnginePhase.down d').Shows env a) (openInternal env) s := by
  obtain ⟨-, wal, tables⟩ := starts
  obtain ⟨firm, rest⟩ := h
  rw [← wal] at firm
  have shown := shows few
  have cases : Wal.replays env d.wal = [] ∨ ∃ G₀ L₀ m put lsn, Unfinished env G L d G₀ L₀ m put lsn ∧
      (∃ k, MetadataStore.Underway env put m k d.tables) ∧
      Wal.replays env d.wal = [⟨lsn, .putObject put⟩] := by
    rcases rest with ⟨-, idle⟩ | ⟨G₀, L₀, m, put, lsn, stopped⟩
    · exact .inl idle
    · rcases stopped.pending few with ⟨-, idle⟩ | pending
      · exact .inl idle
      · exact .inr ⟨G₀, L₀, m, put, lsn, stopped, pending⟩
  rcases cases with idle | ⟨G₀, L₀, m, put, lsn, stopped, ⟨k, stage⟩, pending⟩
  · rw [Disk.recovered_idle idle, ← tables] at shown
    rw [← wal] at idle
    apply (safe_openInternal_idle firm idle).mono
    · rintro r t ⟨same, -, log, -⟩
      rw [← same] at shown
      exact ⟨shows_idle (log.replays.trans idle) shown, fun _ => shown⟩
    · rintro t ⟨same, left⟩ d' ⟨-, wal', tables'⟩
      have tables' : d'.tables = t.metadataStore := tables'
      obtain ⟨-, log⟩ := left _ wal'
      rw [← same, ← tables'] at shown
      exact shows_idle (log.replays.trans idle) shown
  · have takes : m.Takes env put := stopped.orderly.takes stopped.choice
    obtain ⟨n, done⟩ := takes.done
    rw [Disk.recovered_redo takes stage pending done] at shown
    rw [← tables] at stage
    rw [← wal] at pending
    apply (safe_openInternal_redo firm takes pending stage).mono
    · rintro r t ⟨-, err, ok⟩
      cases r with
      | error e =>
        obtain ⟨same, log⟩ := err e rfl
        rw [← same] at stage
        have left : PutLeft env m lsn put t.disk.tables t.disk.wal :=
          .begun k stage (log.replays.trans pending)
        exact ⟨left.shows takes done shown, fun failed => by cases failed⟩
      | ok _ =>
        obtain ⟨-, made, idle⟩ := ok rfl
        rw [← made.unique done] at shown
        exact ⟨shows_idle idle shown, fun _ => shown⟩
    · rintro t left d' ⟨-, wal', tables'⟩
      have tables' : d'.tables = t.metadataStore := tables'
      obtain ⟨-, put', -⟩ := left _ wal'
      rw [← tables'] at put'
      exact put'.shows takes done shown

/-- A put is one operation when it returns, and one or none after a crash. -/
theorem shows_put (h : (EnginePhase.running s).InOrder env G L) (room : s.metadataStore.Roomy)
    {name : String} {file : SourceFile} {generated : ObjectId} (fresh : generated ∉ G)
    (next : s.wal.mem.checkpointLsn < s.wal.mem.currentLsn + 1) :
    Safe (engineMachine .none)
      (fun _ t => (EngineCall.put name file generated).DoneBy env s.metadataStore t.metadataStore)
      (fun t => ∀ d', t.disk.PowerCut d' → ∃ ops, (EngineCall.put name file generated).Does env ops ∧
        (EnginePhase.down d').Shows env (s.metadataStore.shown.performAll ops))
      ((EngineCall.put name file generated).run env) s := by
  obtain ⟨order, between, idle⟩ := h
  have chooses (put : WalPutPayload) (of : PutOf env s.metadataStore name file generated put) :
      s.metadataStore.Chooses G put := (order.chooses fresh room of.target).1
  have nothing : (EngineCall.put name file generated).Does env [] :=
    ⟨fun _ none => absurd none List.not_mem_nil, fun _ => Nat.zero_le _⟩
  rw [← between.saved] at next
  show Safe _ _ _ (putFileNamed env name file generated >>= fun _ => pure ()) s
  apply safe_ignored
  apply (safe_putFileNamed between idle next fun put of => order.takes (chooses put of)).mono
  · rintro r t ⟨-, -, err, ok⟩
    cases r with
    | error e => exact EngineCall.doneBy_same (congrArg MetadataStore.shown (err e rfl))
    | ok summary =>
      obtain ⟨put, of, -, -, done⟩ := ok summary rfl
      obtain ⟨op, asks, same⟩ := of.shown order (chooses put of) done
      exact EngineCall.doneBy_one asks same
  · rintro t left d' ⟨-, wal, tables⟩
    have tables : d'.tables = t.metadataStore := tables
    obtain ⟨-, left, -⟩ := left _ wal
    rw [← tables] at left
    cases left with
    | nothing same _ covered =>
      exact ⟨[], nothing, shows_idle (Wal.replays_eq_nil.2 covered) (congrArg MetadataStore.shown same)⟩
    | logged put of left =>
      have takes : s.metadataStore.Takes env put := order.takes (chooses put of)
      obtain ⟨n, done⟩ := takes.done
      obtain ⟨op, asks, same⟩ := of.shown order (chooses put of) done
      refine ⟨[op], ⟨fun op' there => ?_, fun _ => Nat.le_refl _⟩, left.shows takes done same⟩
      rw [List.mem_singleton.1 there]
      exact asks

/-- Any call. -/
theorem shows_run {call : EngineCall} (h : (EnginePhase.running s).InOrder env G L)
    (whole : s.metadataStore.NamesWhole) (fresh : ∀ id ∈ call.generated, id ∉ G)
    (spares : ¬ call.Empties s.metadataStore) (room : s.metadataStore.Roomy)
    (next : s.wal.mem.checkpointLsn < s.wal.mem.currentLsn + 1) :
    Safe (engineMachine .none)
      (fun _ t => call.DoneBy env s.metadataStore t.metadataStore)
      (fun t => ∀ d', t.disk.PowerCut d' → ∃ ops, call.Does env ops ∧
        (EnginePhase.down d').Shows env (s.metadataStore.shown.performAll ops))
      (call.run env) s := by
  by_cases puts : ∃ name file generated, call = .put name file generated
  · obtain ⟨name, file, generated, rfl⟩ := puts
    exact shows_put h room (fresh generated rfl) next
  · have other (name : String) (file : SourceFile) (generated : ObjectId) :
        call ≠ .put name file generated := fun same => puts ⟨name, file, generated, same⟩
    have order := h.1
    -- the log is as it was, without records to be replayed
    have quiet := inOrder_call h room spares other
    obtain ⟨-, between, idle⟩ := h
    apply ((doneBy_call order whole room spares other).and quiet).mono
    · exact fun _ t h => h.1
    · rintro t ⟨⟨ops, does, same⟩, -, log⟩ d' ⟨-, wal, tables⟩
      have tables : d'.tables = t.metadataStore := tables
      rw [← log] at between idle
      obtain ⟨-, same'⟩ := between.firm.cutLeaves _ wal
      have same' : SameLog env t.wal.fs d'.wal := same'
      rw [← tables] at same
      exact ⟨ops, does, shows_idle (same'.replays.trans idle) same⟩

end Phases

/-! ## Runs -/

section Runs

variable {a : FileStore} {run run' : EngineRun} {act : EngineAct}

/-- Every name of a run has an identifier for its value. -/
theorem EngineReachable.namesWhole (h : EngineReachable env (Careful env) run) :
    run.phase.tables.NamesWhole := by
  have endures := h.endures fun run act careful => by
    rw [careful.faultless]
    exact onlyMetadata_none
  obtain ⟨phase, g⟩ := run
  cases phase with
  | running s =>
    obtain ⟨⟨H, K, kept⟩, -⟩ := endures
    exact MetadataStore.namesWhole_of_lawful kept.changes
  | down d => exact MetadataStore.namesWhole_of_lawful endures.changes

theorem shows_cut {d d' : Disk} (shows : (EnginePhase.down d).Shows env a)
    (firm : Wal.Firm env d.wal) (cut : d.PowerCut d') : (EnginePhase.down d').Shows env a := by
  obtain ⟨-, wal, tables⟩ := cut
  obtain ⟨-, log⟩ := firm.cutLeaves _ wal
  have log : SameLog env d.wal d'.wal := log
  have same : d'.recovered env = d.recovered env := by
    unfold Disk.recovered
    rw [log.replays, tables]
  intro few
  rw [log.replays] at few
  rw [same]
  exact shows few

/-- One step of the engine is some operations of the store, and none apart from calls. -/
theorem EngineStep.refines (step : EngineStep env run act run') (careful : Careful env run act)
    (reachable : EngineReachable env (Careful env) run) (shows : run.phase.Shows env a) :
    ∃ ops, act.Does env ops ∧ run'.phase.Shows env (a.performAll ops) := by
  have h := reachable.inOrder
  have whole := reachable.namesWhole
  obtain ⟨phase, g⟩ := run
  obtain ⟨faultless, calls, opens⟩ := careful
  cases step with
  | mk step =>
    cases step with
    | opened starts returned =>
      obtain rfl := faultless
      exact ⟨[], rfl, ((shows_opens h starts (opens _ rfl trivial) shows).returns returned).2 rfl⟩
    | openFailed starts returned =>
      obtain rfl := faultless
      exact ⟨[], rfl, ((shows_opens h starts (opens _ rfl trivial) shows).returns returned).1⟩
    | openCrashed starts crashed cut =>
      obtain rfl := faultless
      exact ⟨[], rfl, (shows_opens h starts (opens _ rfl trivial) shows).crashes crashed _ cut⟩
    | returned returned =>
      obtain rfl := faultless
      obtain rfl := shows
      obtain ⟨fresh, spares, room, next⟩ := calls _ _ rfl rfl
      exact (shows_run h whole fresh spares room next).returns returned
    | crashed crashed cut =>
      obtain rfl := faultless
      obtain rfl := shows
      obtain ⟨fresh, spares, room, next⟩ := calls _ _ rfl rfl
      exact (shows_run h whole fresh spares room next).crashes crashed _ cut
    | @powerCut s d cut =>
      have down := inOrder_closed h
      have shown : s.disk.tables.shown = a := shows
      have idle : (EnginePhase.down s.disk).Shows env a := shows_idle h.2.2 shown
      have left : (EnginePhase.down d).Shows env a := shows_cut idle down.1 cut
      exact ⟨[], rfl, left⟩
    | @downCut d d' cut =>
      have left : (EnginePhase.down d').Shows env a := shows_cut shows h.1 cut
      exact ⟨[], rfl, left⟩
    | @closed s =>
      have shown : s.disk.tables.shown = a := shows
      have idle : (EnginePhase.down s.disk).Shows env a := shows_idle h.2.2 shown
      exact ⟨[], rfl, idle⟩

end Runs

end OosLite
