import OosLite.Engine.Proofs.OrderlyRuns

/-!
# What the tables promise

Names, objects, versions and manifests in every state of a run, and the prune that breaks it.
-/

namespace OosLite

open Files Effect Relation StorageEngine

/-- Every bound name has an object of its own with a version; the versions of an object ascend to the
latest one, have their manifests, and no version number was ever listed with two manifests. -/
structure MetadataStore.Consistent (env : Env) (m : MetadataStore)
    (listed : Set (ObjectId × UInt32 × String)) : Prop where
  alone : ∀ name name' id, m.resolveName name = some id → m.resolveName name' = some id → name = name'
  bound : ∀ name id, m.resolveName name = some id →
    ∃ r, m.getObject id = .ok (some r) ∧ r.versions ≠ []
  ascending : ∀ id r, m.getObject id = .ok (some r) →
    r.versions.Pairwise fun a b => a.version < b.version
  latest : ∀ id r, m.getObject id = .ok (some r) →
    r.latest.map ObjectVersion.version = some r.latestVersion
  once : ∀ id v i i', (id, v, i) ∈ listed → (id, v, i') ∈ listed → i = i'
  manifests : ∀ id r, m.getObject id = .ok (some r) → ∀ v ∈ r.versions,
    ∃ manifest, m.getManifest env v.manifestId = .ok (some manifest)

section Runs

variable {env : Env} {files : Set Bytes} {G : Set ObjectId} {L L' : Set (ObjectId × UInt32 × String)}
  {m n : MetadataStore}

/-- Tables in order keep the promise, if their manifests are there. -/
theorem MetadataStore.Orderly.consistent (h : n.Orderly G L)
    (changes : ReflTransGen (MetadataStore.Lawful env files) .empty n)
    (once : ∀ id v i i', (id, v, i) ∈ L' → (id, v, i') ∈ L' → i = i') : n.Consistent env L' where
  alone := h.alone
  bound name id there := by
    obtain ⟨r, found⟩ := h.bound name id there
    obtain ⟨v, newest, -⟩ := (h.records id r found).1.last
    refine ⟨r, found, fun none => ?_⟩
    unfold ObjectRecord.latest at newest
    rw [none] at newest
    cases newest
  ascending id r found := (h.records id r found).1.ascending
  latest id r found := by
    obtain ⟨v, newest, number⟩ := (h.records id r found).1.last
    rw [newest, ← number]
    rfl
  once := once
  manifests id r found v there := by
    have stored := MetadataStore.rooted_of_lawful changes v.manifestId
      (MetadataStore.objectRoot_of_mem found there)
    obtain ⟨manifest, -, -, got⟩ := (MetadataStore.original_of_lawful changes).getManifest stored
    exact ⟨manifest, got⟩

/-- In every state of every run whose steps meet the condition, with crashes anywhere, the tables keep
what they promise. -/
theorem metadata_consistent {run : EngineRun} (h : EngineReachable env (Careful env) run) :
    run.phase.tables.Consistent env run.history.listed := by
  have order := h.inOrder
  have endures := h.endures fun run act careful => by
    rw [careful.faultless]
    exact onlyMetadata_none
  obtain ⟨phase, g⟩ := run
  cases phase with
  | running s =>
    obtain ⟨order, -⟩ := order
    obtain ⟨⟨H, K, kept⟩, -⟩ := endures
    exact order.consistent kept.changes order.once
  | down d =>
    obtain ⟨-, ⟨order, -⟩ | ⟨G₀, L₀, m, put, lsn, stopped⟩⟩ := order
    · exact order.consistent endures.changes order.once
    · obtain ⟨n, -, -, -, -, added⟩ := stopped.orderly.putVersion env stopped.choice
      apply stopped.tables.consistent endures.changes
      intro id v i i' there there'
      exact added.once id v i i' (stopped.listed.2 there) (stopped.listed.2 there')

end Runs

/-! ## A prune that keeps nothing -/

/-- Every version number of some tables has a successor, by a look at all records. -/
theorem MetadataStore.roomy_of_all {m : MetadataStore} (h : m.objects.toList.all fun e =>
    (ObjectRecord.fromBytes e.2).toOption.all fun r => r.latestVersion < r.latestVersion + 1) :
    m.Roomy := by
  intro id r found
  unfold getObject at found
  cases stored : m.objects[id]? with
  | none =>
    rw [stored] at found
    cases found
  | some value =>
    rw [stored] at found
    obtain ⟨r', decoded, found⟩ := Result.bind_eq_ok.1 found
    cases found
    have there := List.all_eq_true.1 h _ (Std.ExtTreeMap.mem_toList_iff_getElem?_eq_some.2 stored)
    rw [decoded] at there
    exact of_decide_eq_true there

namespace EngineSample

/-- The file gets another name. -/
def moving : EngineCall := .rename "report" "archive"

def archived : StorageEngine := after reported moving

/-- The process stops in a put of a third version, behind the append to the log, and another one opens
the store. -/
def amending : EngineCall := .put "archive" (file [5]) (FixedBytes.ofBytes 16 [3])

def halted : StorageEngine := (halt answers (amending.run env) archived).getD archived

def restarted : StorageEngine :=
  ⟨⟨halted.disk.visible.segments, unopened.segmentStore.mem⟩,
    ⟨halted.disk.visible.wal, unopened.wal.mem⟩, halted.disk.visible.tables⟩

def recovered : StorageEngine := (exec false answers (openInternal env) [] restarted).2

theorem careful_act {s : StorageEngine} {g : EngineHistory} {act : EngineAct} {call : EngineCall}
    (called : act.call? = some call) (faultless : act.faults = .none)
    (new : ∀ id ∈ call.generated, id ∉ g.generated) (spares : ¬ call.Empties s.metadataStore)
    (room : s.metadataStore.objects.toList.all fun e =>
      (ObjectRecord.fromBytes e.2).toOption.all fun r => r.latestVersion < r.latestVersion + 1)
    (next : s.wal.mem.checkpointLsn < s.wal.mem.currentLsn + 1) :
    Careful env ⟨.running s, g⟩ act := by
  refine ⟨faultless, ?_, ?_⟩
  · rintro s' call' ⟨⟩ called'
    obtain rfl := Option.some.inj (called.symm.trans called')
    exact ⟨new, spares, MetadataStore.roomy_of_all room, next⟩
  · rintro d ⟨⟩

theorem careful_opening {d : Disk} {g : EngineHistory} (few : (Wal.replays env d.wal).length ≤ 1) :
    Careful env ⟨.down d, g⟩ (.opened .none) := by
  refine ⟨rfl, ?_, ?_⟩
  · rintro s call ⟨⟩
  · rintro d' ⟨⟩ -
    exact few

theorem steps_after {s : StorageEngine} {call : EngineCall} {g : EngineHistory} :
    EngineStep env ⟨.running s, g⟩ (.returned call .none)
      ⟨.running (after s call), g.next (.returned call .none) (.running (after s call))⟩ := by
  have returned := returns_exec false answers (call.run env) [] s
  rw [Faults.all_false] at returned
  exact .mk (.returned returned)

theorem traced_opened : ∃ g : EngineHistory, g.generated = ∅ ∧ g.files = ∅ ∧
    EngineTrace env (Careful env) [.opened .none] ⟨.running opened, g⟩ ∧
      Careful env ⟨.running opened, g⟩ (.returned reporting .none) := by
  have returned := returns_exec false answers (openInternal env) [] unopened
  have ok : (exec false answers (openInternal env) [] unopened).1 = .ok () := by decide +kernel
  rw [ok, Faults.all_false] at returned
  refine ⟨_, ?_, ?_, EngineTrace.start.step (.mk (.opened ⟨rfl, rfl, rfl⟩ returned)) (careful_opening ?_),
    careful_act rfl rfl ?_ (fun empties => empties) (by decide +kernel) (by decide +kernel)⟩
  · simp [EngineHistory.next, EngineAct.call?]
  · simp [EngineHistory.next, EngineAct.call?]
  · decide +kernel
  · simp [EngineHistory.next, EngineAct.call?]

theorem traced_written : ∃ g : EngineHistory, g.generated = {FixedBytes.ofBytes 16 [1]} ∧
    EngineTrace env (Careful env) [.opened .none, .returned reporting .none] ⟨.running written, g⟩ := by
  obtain ⟨g, none, -, trace, careful⟩ := traced_opened
  refine ⟨_, ?_, trace.step steps_after careful⟩
  simp [EngineHistory.next, EngineAct.call?, EngineCall.generated, reporting, none]

/-- The steps behind the first version of the file. -/
theorem steps_recovered {g : EngineHistory} (old : g.generated = {FixedBytes.ofBytes 16 [1]}) :
    ∃ g₁ g₂ g₃ g₄ : EngineHistory, g₄.files ⊆ g.files ∪ {[9], [5]} ∧
      (EngineStep env ⟨.running written, g⟩ (.returned revising .none) ⟨.running reported, g₁⟩ ∧
        Careful env ⟨.running written, g⟩ (.returned revising .none)) ∧
      (EngineStep env ⟨.running reported, g₁⟩ (.returned moving .none) ⟨.running archived, g₂⟩ ∧
        Careful env ⟨.running reported, g₁⟩ (.returned moving .none)) ∧
      (EngineStep env ⟨.running archived, g₂⟩ (.crashed amending .none) ⟨.down halted.disk.visible, g₃⟩ ∧
        Careful env ⟨.running archived, g₂⟩ (.crashed amending .none)) ∧
      EngineStep env ⟨.down halted.disk.visible, g₃⟩ (.opened .none) ⟨.running recovered, g₄⟩ ∧
        Careful env ⟨.down halted.disk.visible, g₃⟩ (.opened .none) := by
  have ready : ∀ s ∈ [written, reported, archived], (s.metadataStore.objects.toList.all fun e =>
      (ObjectRecord.fromBytes e.2).toOption.all fun r => r.latestVersion < r.latestVersion + 1) ∧
      s.wal.mem.checkpointLsn < s.wal.mem.currentLsn + 1 := by decide +kernel
  have computed : (halt answers (amending.run env) archived).isSome ∧
      (Wal.replays env halted.disk.visible.wal).length = 1 ∧
      (exec false answers (openInternal env) [] restarted).1 = .ok () := by decide +kernel
  obtain ⟨stops, one, opens⟩ := computed
  obtain ⟨s, left⟩ := Option.isSome_iff_exists.1 stops
  have same : halted = s := by
    unfold halted
    rw [left]
    rfl
  have crashed := crashes_halt left
  have returned := returns_exec false answers (openInternal env) [] restarted
  rw [← same, Faults.all_false] at crashed
  rw [opens, Faults.all_false] at returned
  have starts : restarted.Starts halted.disk.visible := ⟨rfl, rfl, rfl⟩
  have careful (s : StorageEngine) (there : s ∈ [written, reported, archived]) {h : EngineHistory}
      {act : EngineAct} {call : EngineCall} (called : act.call? = some call)
      (faultless : act.faults = .none) (spares : ¬ call.Empties s.metadataStore)
      (new : ∀ id ∈ call.generated, id ∉ h.generated) : Careful env ⟨.running s, h⟩ act :=
    careful_act called faultless new spares (ready s there).1 (ready s there).2
  refine ⟨_, _, _, _, ?_, ⟨steps_after, careful written (by simp) rfl rfl (fun empties => empties) ?_⟩,
    ⟨steps_after, careful reported (by simp) rfl rfl (fun empties => empties) ?_⟩,
    ⟨.mk (.crashed crashed halted.disk.powerCut_visible),
      careful archived (by simp) rfl rfl (fun empties => empties) ?_⟩,
    .mk (.opened starts returned), careful_opening one.le⟩
  · simp only [EngineHistory.next, EngineAct.call?, Option.elim, Set.union_empty]
    rintro d (((there | there) | none) | there)
    · exact .inl there
    · exact .inr (.inl (mem_files_put there))
    · exact none.elim
    · exact .inr (.inr (mem_files_put there))
  · simp only [EngineCall.generated, revising, old, Set.mem_singleton_iff, forall_eq]
    decide
  · exact fun id none => none.elim
  · simp only [EngineHistory.next, EngineAct.call?, Option.elim, EngineCall.generated, revising, moving,
      amending, old, Set.union_empty, Set.mem_union, Set.mem_singleton_iff, forall_eq]
    decide

end EngineSample

/-- A file with two versions that got another name, after a crash in the put of a third one. -/
theorem metadata_consistent_report : ∃ g : EngineHistory,
    EngineSample.recovered.metadataStore.Consistent EngineSample.env g.listed := by
  obtain ⟨g, old, trace⟩ := EngineSample.traced_written
  obtain ⟨g₁, g₂, g₃, g₄, -, ⟨revised, c₁⟩, ⟨moved, c₂⟩, ⟨crashed, c₃⟩, opened, c₄⟩ :=
    EngineSample.steps_recovered old
  have reachable := (((trace.reachable.step revised c₁).step moved c₂).step crashed c₃).step opened c₄
  exact ⟨g₄, metadata_consistent reachable⟩

/-- Nothing fails in a step, generated identifiers are new, and no version number is exhausted. -/
structure Unexhausted (run : EngineRun) (act : EngineAct) : Prop where
  faultless : act.faults = .none
  calls : ∀ s call, run.phase = .running s → act.call? = some call →
    (∀ id ∈ call.generated, id ∉ run.history.generated) ∧ s.metadataStore.Roomy

theorem EngineReachable.mono {env : Env} {allowed allowed' : EngineRun → EngineAct → Prop} {run : EngineRun}
    (h : EngineReachable env allowed run) (le : ∀ run act, allowed run act → allowed' run act) :
    EngineReachable env allowed' run := by
  induction h with
  | start => exact .start
  | step _ step all ih => exact ih.step step (le _ _ all)

/-- A prune that keeps no version leaves a bound name with a record that lists none. -/
theorem emptied_name_stays_bound :
    ¬ ∀ (env : Env) (run : EngineRun), EngineReachable env Unexhausted run → run.phase.tables.Roomy →
      run.phase.tables.Consistent env run.history.listed := by
  intro all
  obtain ⟨g, old, trace⟩ := EngineSample.traced_written
  obtain ⟨g₁, -, -, -, -, ⟨revised, careful⟩, -⟩ := EngineSample.steps_recovered old
  have reachable := trace.reachable.step revised careful
  have reachable' : EngineReachable EngineSample.env Unexhausted _ := reachable.mono fun run act careful =>
    ⟨careful.faultless, fun s call running called =>
      ⟨(careful.calls s call running called).1, (careful.calls s call running called).2.2.1⟩⟩
  have returned := returns_exec false EngineSample.answers
    ((EngineCall.prune "report" 0).run EngineSample.env) [] EngineSample.reported
  rw [Faults.all_false] at returned
  have roomy : EngineSample.reported.metadataStore.Roomy := by
    apply MetadataStore.roomy_of_all
    decide +kernel
  have emptied := reachable'.step (.mk (.returned returned)) ⟨rfl, by
    rintro s call ⟨⟩ ⟨⟩
    exact ⟨fun id none => none.elim, roomy⟩⟩
  have roomy' : EngineSample.emptied.metadataStore.Roomy := by
    apply MetadataStore.roomy_of_all
    decide +kernel
  have bound : EngineSample.emptied.metadataStore.resolveName "report" =
      some (FixedBytes.ofBytes 16 [1]) := by decide +kernel
  obtain ⟨r, found, some⟩ := (all _ _ emptied roomy').bound _ _ bound
  have none : (EngineSample.emptied.metadataStore.getObject (FixedBytes.ofBytes 16 [1])).toOption.join.map
      (fun r => r.versions) = Option.some [] := by decide +kernel
  have found : EngineSample.emptied.metadataStore.getObject (FixedBytes.ofBytes 16 [1]) =
    .ok (Option.some r) := found
  rw [found] at none
  exact some (Option.some.inj none)

end OosLite
