import OosLite.Engine.Proofs.Refinement

/-!
# Stored versions are read

A version that was acknowledged is read with its content from then on, whatever is stored, renamed or
collected meanwhile and wherever processes are stopped, until it is pruned or its object deleted.
-/

namespace OosLite

open Files Effect Relation StorageEngine

variable {env : Env} {G : Set ObjectId} {L : Set (ObjectId × UInt32 × String)} {m : MetadataStore}
  {s : StorageEngine} {id : ObjectId} {v : UInt32}

/-- No operation that a call may come to deletes the object or prunes this version of it. -/
def EngineCall.SparesVersion (env : Env) (m : MetadataStore) (id : ObjectId) (v : UInt32)
    (call : EngineCall) : Prop :=
  ∀ op, call.Asks env op → m.shown.Spares id v.toNat op

/-- The calls of a step spare a version. -/
def EngineAct.SparesVersion (env : Env) (id : ObjectId) (v : UInt32) (run : EngineRun)
    (act : EngineAct) : Prop :=
  ∀ s call, run.phase = .running s → act.call? = some call →
    call.SparesVersion env s.metadataStore id v

/-! ## Operations of a call -/

/-- What a call has come to spares the version, one operation after the other. -/
theorem EngineCall.Does.spares {call : EngineCall} {ops : List FileOp} (does : call.Does env ops)
    (spares : call.SparesVersion env m id v) : m.shown.SparesAll id v.toNat ops := by
  by_cases sweeps : call.Sweeps
  · apply VersionedStore.SparesAll.of_stable _ does.asked spares
    intro s op op' asked asked' spares'
    cases call with
    | deletePrefix start =>
      obtain ⟨name, -, rfl⟩ := asked
      obtain ⟨name', -, rfl⟩ := asked'
      exact spares'.delete
    | pruneAll keepLastN =>
      obtain ⟨name, rfl⟩ := asked
      obtain ⟨name', rfl⟩ := asked'
      exact spares'.prune
    | _ => exact sweeps.elim
  · have once := does.once sweeps
    have asked := does.asked
    cases ops with
    | nil => exact trivial
    | cons op rest =>
      obtain rfl := List.length_eq_zero_iff.1 (Nat.le_zero.1 (Nat.le_of_succ_le_succ once))
      exact ⟨spares op (asked op (List.mem_singleton_self _)), trivial⟩

/-! ## Versions of the tables -/

namespace MetadataStore

/-- The number of a put is the one behind those of its object. -/
theorem Orderly.nextNumber_chosen {put : WalPutPayload} (h : m.Orderly G L) (choice : m.Chooses G put) :
    VersionedStore.nextNumber ((m.shown.files put.objectId).getD []) = put.version.toNat := by
  cases choice with
  | next r bound found number less =>
    rw [shown_files found, Option.getD_some, nextNumber_numbered (h.records _ _ found).1, number,
      toNat_succ (number ▸ less)]
  | new free unused first =>
    have none : m.getObject put.objectId = .ok none := by
      have legible := h.legible.getObject put.objectId
      cases found : (m.getObject put.objectId).toOption.join with
      | none => rw [legible, found]
      | some r =>
        rw [found] at legible
        exact absurd (h.records _ _ legible).2 unused
    rw [shown_files_none none, first]
    rfl

/-- After a put its version is there. -/
theorem Orderly.has_put {put : WalPutPayload} {n : MetadataStore} (h : m.Orderly G L)
    (choice : m.Chooses G put) (done : Underway env put m 3 n) :
    n.shown.Has put.objectId put.version.toNat put.manifest.contentId := by
  have there := m.shown.has_put put.name put.objectId put.manifest.contentId
  have chosen : (m.shown.names put.name).getD put.objectId = put.objectId := by
    rw [show m.shown.names put.name = m.resolveName put.name from rfl]
    cases choice with
    | next r bound found number less => rw [bound, Option.getD_some]
    | new free unused first => rw [free, Option.getD_none]
  rw [chosen, h.nextNumber_chosen choice] at there
  rw [h.shown_put choice done]
  exact there

theorem contentAt_numbered (r : ObjectRecord) (v : UInt32) :
    VersionedStore.contentAt r.numbered v.toNat = (r.entry v).map ObjectVersion.manifestId := by
  unfold VersionedStore.contentAt ObjectRecord.numbered ObjectRecord.entry
  have same : ((fun n : Nat × String => decide (n.1 = v.toNat)) ∘
      fun u : ObjectVersion => (u.version.toNat, u.manifestId)) = fun u => decide (u.version = v) := by
    funext u
    simp [UInt32.toNat_inj]
  rw [List.find?_map, Option.map_map, same]
  rfl

/-- A version of an object is the entry of this number, under every target that leads to it. -/
theorem Orderly.entry_of_has (h : m.Orderly G L) {manifestId target : String}
    (has : m.shown.Has id v.toNat manifestId)
    (leads : m.resolveName target = some id ∨
      m.resolveName target = none ∧ ObjectId.parse target = some id) :
    ∃ e, (m.targetRecord target).bind (fun r => r.entry v) = some e ∧ e.manifestId = manifestId := by
  obtain ⟨versions, there, listed⟩ := has
  have content := VersionedStore.contentAt_of_mem (h.ascends_shown id versions there) listed
  change (m.getObject id).toOption.join.map _ = _ at there
  obtain ⟨r, found, rfl⟩ := Option.map_eq_some_iff.1 there
  rw [contentAt_numbered] at content
  obtain ⟨e, entry, same⟩ := Option.map_eq_some_iff.1 content
  have record : m.targetRecord target = some r := by
    unfold targetRecord
    rcases leads with bound | ⟨free, parsed⟩
    · rw [bound]
      exact found
    · rw [free, parsed]
      exact found
  exact ⟨e, by rw [record, Option.bind_some, entry], same⟩

end MetadataStore

-- otherwise the elaborator runs the program as far as it can
attribute [local irreducible] StorageEngine.putFileNamed

/-! ## Runs -/

section Runs

variable {run run' : EngineRun} {act : EngineAct}

/-- Some store is shown that has the version. -/
def EnginePhase.Holds (env : Env) (id : ObjectId) (v : UInt32) (manifestId : String)
    (phase : EnginePhase) : Prop :=
  ∃ a : FileStore, phase.Shows env a ∧ a.Ascends ∧ a.Has id v.toNat manifestId

theorem EngineStep.holds {manifestId : String} (step : EngineStep env run act run')
    (reachable : EngineReachable env (Careful env) run) (careful : Careful env run act)
    (spares : act.SparesVersion env id v run) (h : run.phase.Holds env id v manifestId) :
    run'.phase.Holds env id v manifestId := by
  obtain ⟨a, shows, ascends, has⟩ := h
  obtain ⟨ops, does, shows'⟩ := step.refines careful reachable shows
  refine ⟨_, shows', ascends.performAll ops, has.performAll ascends ?_⟩
  obtain ⟨phase, g⟩ := run
  unfold EngineAct.Does at does
  cases called : act.call? with
  | none =>
    rw [called] at does
    obtain rfl : ops = [] := does
    trivial
  | some call =>
    rw [called] at does
    have running : ∃ s, phase = .running s := by
      cases step with
      | mk step =>
        cases step with
        | returned | crashed => exact ⟨_, rfl⟩
        | _ => cases called
    obtain ⟨s, rfl⟩ := running
    obtain rfl := shows
    have does : call.Does env ops := does
    exact does.spares (spares s call rfl called)

/-- So do runs. -/
theorem EngineSteps.holds {manifestId : String} (reachable : EngineReachable env (Careful env) run)
    (later : EngineSteps env (fun run act => Careful env run act ∧ act.SparesVersion env id v run) run run')
    (h : run.phase.Holds env id v manifestId) : run'.phase.Holds env id v manifestId := by
  induction later with
  | refl => exact h
  | tail before step ih =>
    obtain ⟨act, step, careful, spares⟩ := step
    have careful' := EngineSteps.mono before fun _ _ all => all.1
    exact step.holds (reachable.steps careful') careful spares ih

/-- In every run whose steps meet the condition, with crashes anywhere: once a put has returned a
version, every target that leads to its object gives the content that was read from the file under
this version, as long as no call may delete the object or prune the version. -/
theorem stored_version_read (reachable : EngineReachable env (Careful env) run)
    (running : run.phase = .running s) {name : String} {file : SourceFile} {generated : ObjectId}
    (careful : Careful env run (.returned (.put name file generated) .none)) {summary : PutSummary}
    {s' : StorageEngine}
    (stored : Returns (engineMachine .none) (putFileNamed env name file generated) s (.ok summary) s')
    (later : EngineSteps env (fun run act => Careful env run act ∧
        act.SparesVersion env summary.objectId summary.version run)
      ⟨.running s', run.history.next (.returned (.put name file generated) .none) (.running s')⟩ run')
    {t : StorageEngine} (running' : run'.phase = .running t)
    (distinct : NoCollision env (dataOf env run'.history.files)) :
    ∃ i, (file.readings i).failure = none ∧ (file.readings i).stable = true ∧
      ∀ target, t.metadataStore.resolveName target = some summary.objectId ∨
          t.metadataStore.resolveName target = none ∧ ObjectId.parse target = some summary.objectId →
        t.Gives (getFileVersion env target (some summary.version)) (.ok (file.readings i).content) := by
  have faultless (run : EngineRun) (act : EngineAct) (careful : Careful env run act) :
      act.faults.OnlyMetadata := by
    rw [careful.faultless]
    exact onlyMetadata_none
  obtain ⟨phase, history⟩ := run
  simp only at running
  subst running
  -- the put
  have returned : Returns (engineMachine .none) ((EngineCall.put name file generated).run env) s (.ok ()) s' :=
    returns_bind.2 (.inl ⟨summary, s', stored, .pure _ _⟩)
  obtain ⟨order, between, idle⟩ := reachable.inOrder
  obtain ⟨fresh, -, room, next⟩ := careful.calls _ _ rfl rfl
  have chooses (put : WalPutPayload) (of : PutOf env s.metadataStore name file generated put) :
      s.metadataStore.Chooses history.generated put := (order.chooses (fresh _ rfl) room of.target).1
  rw [← between.saved] at next
  obtain ⟨-, -, -, ok⟩ := (safe_putFileNamed between idle next fun put of =>
    order.takes (chooses put of)).returns stored
  obtain ⟨put, of, object, number, done⟩ := ok summary rfl
  have choice := chooses put of
  obtain ⟨i, createdAt, whole, stable, manifest⟩ := of.reading
  refine ⟨i, whole, stable, ?_⟩
  -- what follows it
  have reachable' := reachable.step (.mk (.returned returned)) careful
  have order' := reachable'.inOrder.1
  have has := order.has_put choice done
  rw [← object, ← number] at has
  have start : (EnginePhase.running s').Holds env summary.objectId summary.version put.manifest.contentId :=
    ⟨_, rfl, order'.ascends_shown, has⟩
  obtain ⟨a, shows, -, has'⟩ := EngineSteps.holds reachable' later start
  have last := reachable'.steps (later.mono fun _ _ all => all.1)
  have third := last.endures faultless
  have order'' := last.inOrder
  unfold Endures at third
  rw [running'] at third order'' shows
  obtain ⟨⟨H, K, kept⟩, -⟩ := third
  intro target leads
  have shows : t.metadataStore.shown = a := shows
  rw [← shows] at has'
  obtain ⟨e, entry, same⟩ := order''.1.entry_of_has has' leads
  have gives := kept.gives_version distinct target summary.version
  rw [entry] at gives
  obtain ⟨content, own, gives⟩ := gives
  have original : ContentOf env run'.history.files e.manifestId (file.readings i).content := by
    refine ⟨later.files (.inr ⟨i, rfl⟩), ?_⟩
    rw [same, manifest]
    rfl
  obtain rfl := own.unique distinct original
  exact gives

end Runs

namespace EngineSample

/-- The store after the crash, and a collection. -/
def swept : StorageEngine := after recovered .gc

/-- The first put, with what it returns. -/
def storing : Result PutSummary × StorageEngine :=
  exec false answers (putFileNamed EngineSample.env "report" (file [7, 8]) (FixedBytes.ofBytes 16 [1])) []
    opened

theorem spares_step {id : ObjectId} {v : UInt32} {run : EngineRun} {act : EngineAct}
    (harmless : ∀ call op, act.call? = some call → call.Asks EngineSample.env op →
      (∃ name new content, op = .put name new content) ∨ ∃ old new, op = .rename old new) :
    act.SparesVersion EngineSample.env id v run := by
  intro s call _ called op asked
  obtain ⟨name, new, content, rfl⟩ | ⟨old, new, rfl⟩ := harmless call op called asked
  · trivial
  · trivial

end EngineSample

/-- The first version of a file that got a second one and another name, after a crash in the put of a
third one and a collection. -/
theorem stored_version_read_archive : EngineSample.swept.Gives
    (getFileVersion EngineSample.env "archive" (some 1)) (.ok [7, 8]) := by
  obtain ⟨g, new, unread, trace, careful⟩ := EngineSample.traced_opened
  have stored := returns_exec false EngineSample.answers (putFileNamed EngineSample.env "report"
    (EngineSample.file [7, 8]) (FixedBytes.ofBytes 16 [1])) [] EngineSample.opened
  rw [Faults.all_false] at stored
  have computed : EngineSample.storing.1.map (fun summary => (summary.objectId, summary.version)) =
        .ok (FixedBytes.ofBytes 16 [1], 1) ∧
      (EngineSample.recovered.metadataStore.objects.toList.all fun e =>
        (ObjectRecord.fromBytes e.2).toOption.all fun r => r.latestVersion < r.latestVersion + 1) ∧
      EngineSample.recovered.wal.mem.checkpointLsn < EngineSample.recovered.wal.mem.currentLsn + 1 ∧
      EngineSample.swept.metadataStore.resolveName "archive" = some (FixedBytes.ofBytes 16 [1]) := by
    decide +kernel
  obtain ⟨taken, room, next, bound⟩ := computed
  cases done : EngineSample.storing.1 with
  | error e =>
    rw [done] at taken
    cases taken
  | ok summary =>
    rw [done] at taken
    obtain ⟨object, number⟩ := Prod.mk.inj (Except.ok.inj taken)
    have same : EngineSample.storing.2 = EngineSample.written := (exec_discard _ _ _ _ _).symm
    have stored : Returns (engineMachine .none) (putFileNamed EngineSample.env "report"
        (EngineSample.file [7, 8]) (FixedBytes.ofBytes 16 [1])) EngineSample.opened EngineSample.storing.1
        EngineSample.storing.2 := stored
    rw [done, same] at stored
    -- the steps behind the put
    obtain ⟨g₁, g₂, g₃, g₄, read, ⟨revised, c₁⟩, ⟨moved, c₂⟩, ⟨crashed, c₃⟩, opened, c₄⟩ :=
      @EngineSample.steps_recovered
        (g.next (.returned EngineSample.reporting .none) (.running EngineSample.written)) (by
          simp [EngineHistory.next, EngineAct.call?, EngineCall.generated, EngineSample.reporting, new])
    have c₅ : Careful EngineSample.env ⟨.running EngineSample.recovered, g₄⟩ (.returned .gc .none) :=
      EngineSample.careful_act rfl rfl (fun id none => none.elim) (fun empties => empties) room next
    have puts {act : EngineAct} {run : EngineRun} {name : String} {content : Bytes} {id : ObjectId}
        (called : act.call? = some (.put name (EngineSample.file content) id)) :
        act.SparesVersion EngineSample.env summary.objectId summary.version run := by
      apply EngineSample.spares_step
      intro call op called' asked
      obtain rfl := Option.some.inj (called.symm.trans called')
      obtain ⟨i, createdAt, -, -, rfl⟩ := asked
      exact .inl ⟨_, _, _, rfl⟩
    have moves : EngineAct.SparesVersion EngineSample.env summary.objectId summary.version
        ⟨.running EngineSample.reported, g₁⟩ (.returned EngineSample.moving .none) := by
      apply EngineSample.spares_step
      rintro call op ⟨⟩ rfl
      exact .inr ⟨_, _, rfl⟩
    have opens : EngineAct.SparesVersion EngineSample.env summary.objectId summary.version
        ⟨.down EngineSample.halted.disk.visible, g₃⟩ (.opened .none) := by
      rintro s call ⟨⟩
    have collects : EngineAct.SparesVersion EngineSample.env summary.objectId summary.version
        ⟨.running EngineSample.recovered, g₄⟩ (.returned .gc .none) := by
      apply EngineSample.spares_step
      rintro call op ⟨⟩ none
      exact none.elim
    have later : EngineSteps EngineSample.env (fun run act => Careful EngineSample.env run act ∧
        act.SparesVersion EngineSample.env summary.objectId summary.version run)
        ⟨.running EngineSample.written, g.next (.returned EngineSample.reporting .none)
          (.running EngineSample.written)⟩
        ⟨.running EngineSample.swept, g₄.next (.returned .gc .none) (.running EngineSample.swept)⟩ := by
      exact ((((ReflTransGen.single ⟨_, revised, c₁, puts rfl⟩).tail ⟨_, moved, c₂, moves⟩).tail
        ⟨_, crashed, c₃, puts rfl⟩).tail ⟨_, opened, c₄, opens⟩).tail
          ⟨_, EngineSample.steps_after, c₅, collects⟩
    obtain ⟨i, -, -, gives⟩ := stored_version_read trace.reachable rfl careful stored later rfl (by
      apply EngineSample.noCollision [[7, 8], [9], [5]]
      · rintro d (there | none)
        · rcases read there with (known | known) | known
          · rw [unread] at known
            exact known.elim
          · obtain ⟨_, rfl⟩ := known
            exact List.mem_cons_self
          · rcases known with rfl | rfl <;> simp
        · exact none.elim
      · decide +kernel)
    have given := gives "archive" (.inl (object ▸ bound))
    rw [number] at given
    exact given

end OosLite
