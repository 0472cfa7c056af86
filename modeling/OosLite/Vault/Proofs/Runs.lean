import OosLite.Engine.Proofs.Lookups
import OosLite.Vault.Execution
import OosLite.Vault.Proofs.Opening

/-!
# A store is never half encrypted

The key of a store is made before anything is written, and stays. So whatever happens to it, all of it
was written with its one key, or all without.
-/

namespace OosLite

open Files Effect StoreFiles VaultKey

variable {crates : VaultCrates} {root : String} {key : Option VaultKey} {run run' : VaultRun}

/-- The steps in which the looks do not fail, and nothing of the engine but transactions. -/
def VaultAct.Sound : VaultAct → Prop
  | refused _ f | stopped _ f => f.Sound
  | opens _ f act => f.Sound ∧ act.faults.OnlyMetadata
  | engine act => act.faults.OnlyMetadata

/-- No step of the engine changes the key file. -/
theorem HoldsKey.file_leaves {act : EngineAct} {fs fs' : Fs RootPath} (h : HoldsKey crates key fs)
    (leaves : act.LeavesRoot fs fs') : fs'.file .vaultKey = fs.file .vaultKey := by
  cases act with
  | openCrashed _ | crashed _ _ | powerCut => exact h.file_powerCut leaves
  | opened _ | openFailed _ | returned _ _ | closed => rw [show fs' = fs from leaves]

/-- A power cut is the same with any key, and stops the process. -/
theorem EngineStep.powerCut {env env' : Env} {run run' : EngineRun}
    (step : EngineStep env run .powerCut run') :
    EngineStep env' run .powerCut run' ∧ ∃ d, run'.phase = .down d := by
  obtain ⟨phase, g⟩ := run
  cases step with
  | mk step =>
    cases step with
    | powerCut cut => exact ⟨.mk (.powerCut cut), _, rfl⟩
    | downCut cut => exact ⟨.mk (.downCut cut), _, rfl⟩

/-- A store with a key, or without one, in all its parts. -/
structure VaultRun.KeyedBy (crates : VaultCrates) (key : Option VaultKey) (run : VaultRun) : Prop where
  holds : HoldsKey crates key run.root
  opened : ∀ s, run.engine.phase = .running s → run.vaultKey = key
  endures : Endures (crates.env key) run.engine
  seals : run.engine.Seals (crates.env key)
  blank : run.initialized = false → ∃ d, run.engine.phase = .down d ∧ d.Blank

namespace VaultRun.KeyedBy

theorem new : VaultRun.new.KeyedBy crates none where
  holds := by
    show (∅ : Std.ExtTreeMap RootPath File compare)[RootPath.vaultKey]? = none
    simp
  opened s same := by cases same
  endures := .new
  seals := (Disk.Unwritten.new.begins _).2
  blank _ := ⟨_, rfl, .new⟩

/-- Where an attempt to open finds nothing, nothing was ever written. -/
theorem unwritten (h : run.KeyedBy crates key) {d : Disk} (down : run.engine.phase = .down d) {database : Bool}
    (there : run.initialized = true → database = true)
    (none : StoreFiles.Unwritten ⟨⟨run.root, ()⟩, d, database⟩) : d.Unwritten := by
  have uninitialized : run.initialized = false := by
    cases was : run.initialized with
    | false => rfl
    | true =>
      have absent : database = false := none.database
      rw [there was] at absent
      cases absent
  obtain ⟨d', down', blank⟩ := h.blank uninitialized
  obtain rfl : d' = d := EnginePhase.down.inj (down'.symm.trans down)
  exact blank.unwritten none.segments

/-- An open that has come as far as `open_internal`, or not: the store has the key that it opens with,
also if it is a new one. -/
theorem rekey (h : run.KeyedBy crates key) {d : Disk} (down : run.engine.phase = .down d) {database : Bool}
    (there : run.initialized = true → database = true) {t : StoreFiles} {key' : Option VaultKey}
    (becomes : KeyBecomes crates key ⟨⟨run.root, ()⟩, d, database⟩ t key') (vaultKey : Option VaultKey) :
    VaultRun.KeyedBy crates key' { run with root := t.root.fs, vaultKey } := by
  have closed (s : StorageEngine) (same : run.engine.phase = .running s) : vaultKey = key' := by
    rw [down] at same
    cases same
  obtain ⟨holds, ⟨rfl, -⟩ | ⟨rfl, none⟩⟩ := becomes
  · exact ⟨holds, closed, h.endures, h.seals, h.blank⟩
  · obtain ⟨remains, seals⟩ := @Disk.Unwritten.begins (crates.env key') d (h.unwritten down there none)
      run.engine.history.files
    refine ⟨holds, closed, ?_, ?_, h.blank⟩
    · show Endures _ run.engine
      rw [Endures, down]
      exact remains
    · show run.engine.Seals _
      rw [EngineRun.Seals, down]
      exact seals

/-- Opening a store that was never open leaves it so, until an open returns. -/
theorem blank_step {env : Env} {act : EngineAct} {engine engine' : EngineRun}
    (h : ∃ d, engine.phase = .down d ∧ d.Blank) (only : act.faults.OnlyMetadata)
    (step : EngineStep env engine act engine') (notOpened : act.isOpened = false) :
    ∃ d, engine'.phase = .down d ∧ d.Blank := by
  obtain ⟨phase, g⟩ := engine
  obtain ⟨d, rfl, blank⟩ := h
  cases step with
  | mk step =>
    cases step with
    | opened _ _ => cases notOpened
    | openFailed starts returned => exact ⟨_, rfl, (blank.openInternal only starts).returns returned⟩
    | openCrashed starts crashed cut =>
      exact ⟨_, rfl, ((blank.openInternal only starts).crashes crashed).powerCut cut⟩
    | downCut cut => exact ⟨_, rfl, blank.powerCut cut⟩

/-- A step of the engine with the key of the store. -/
theorem engineStep (h : run.KeyedBy crates key) {act : EngineAct} (only : act.faults.OnlyMetadata)
    {engine' : EngineRun} (step : EngineStep (crates.env key) run.engine act engine') {fs : Fs RootPath}
    (leaves : act.LeavesRoot run.root fs) {vaultKey : Option VaultKey}
    (opened : ∀ s, engine'.phase = .running s → vaultKey = key) {initialized : Bool}
    (never : initialized = false → run.initialized = false ∧ act.isOpened = false) :
    VaultRun.KeyedBy crates key ⟨fs, initialized, vaultKey, engine'⟩ where
  holds := h.holds.congr (h.holds.file_leaves leaves)
  opened := opened
  endures := h.endures.step only step
  seals := h.seals.step h.endures only step
  blank was := blank_step (h.blank (never was).1) only step (never was).2

/-- The key file is the same after a step, or the step has made it, where nothing was ever written. -/
def Made (key : Option VaultKey) (run run' : VaultRun) : Prop :=
  run'.root.file .vaultKey = run.root.file .vaultKey ∨
    key = none ∧ ∃ d, run.engine.phase = .down d ∧ d.Unwritten

theorem made (h : run.KeyedBy crates key) {d : Disk} (down : run.engine.phase = .down d) {database : Bool}
    (there : run.initialized = true → database = true) {t : StoreFiles} {key' : Option VaultKey}
    (becomes : KeyBecomes crates key ⟨⟨run.root, ()⟩, d, database⟩ t key')
    (same : run'.root.file .vaultKey = t.root.fs.file .vaultKey) : Made key run run' := by
  obtain ⟨-, ⟨-, kept⟩ | ⟨rfl, none⟩⟩ := becomes
  · exact .inl (same.trans kept)
  · exact .inr ⟨rfl, d, down, h.unwritten down there none⟩

theorem step (authentic : Authentic crates) (h : run.KeyedBy crates key) {act : VaultAct}
    (step : VaultStep crates root run act run') (sound : act.Sound) :
    ∃ key', run'.KeyedBy crates key' ∧ Made key run run' := by
  cases step with
  | @refused opening f d database e t down there returned =>
    obtain ⟨key', becomes, -⟩ := (safe_openingKey authentic h.holds sound opening).returns returned
    exact ⟨key', h.rekey down there becomes _, h.made down there becomes rfl⟩
  | @stopped opening f d database t fs engine' down there crashed cut step =>
    obtain ⟨key', becomes⟩ := (safe_openingKey authentic h.holds sound opening).crashes crashed
    have rekeyed := h.rekey down there becomes run.vaultKey
    obtain ⟨cutStep, d', down'⟩ := step.powerCut
    have stopped (s : StorageEngine) (running : engine'.phase = .running s) : run.vaultKey = key' := by
      rw [down'] at running
      cases running
    have only : EngineAct.powerCut.faults.OnlyMetadata := onlyMetadata_none
    refine ⟨key', rekeyed.engineStep only cutStep cut stopped fun was => ⟨was, rfl⟩, ?_⟩
    exact h.made down there becomes (becomes.holds.file_powerCut cut)
  | @opens opening f act d database opened t fs engine' down there notCut returned step leaves =>
    obtain ⟨key', becomes, same⟩ := (safe_openingKey authentic h.holds sound.1 opening).returns returned
    obtain rfl := (same opened rfl).1
    have rekeyed := h.rekey down there becomes opened
    refine ⟨opened, rekeyed.engineStep sound.2 step leaves (fun _ _ => rfl) Bool.or_eq_false_iff.1, ?_⟩
    exact h.made down there becomes (becomes.holds.file_leaves leaves)
  | @engine act fs engine' may step leaves =>
    refine ⟨key, ?_, .inl (h.holds.file_leaves leaves)⟩
    rcases may with ⟨s, running⟩ | rfl
    · obtain rfl := h.opened s running
      refine h.engineStep sound step leaves (fun _ _ => rfl) fun was => ?_
      obtain ⟨d, down, -⟩ := h.blank was
      rw [running] at down
      cases down
    · obtain ⟨cutStep, d, down⟩ := step.powerCut
      refine h.engineStep sound cutStep leaves (fun s running => ?_) fun was => ⟨was, rfl⟩
      rw [down] at running
      cases running

/-- A password that unlocks the key file unlocks it to the key of the store. -/
theorem eq_of_unlocks (authentic : Authentic crates) (h : run.KeyedBy crates key) {password : String}
    {master : VaultKey} (unlocks : UnlocksTo crates password master run.root) : key = some master := by
  obtain ⟨f, there, ok⟩ := unlocks
  have holds := h.holds
  cases key with
  | none =>
    have absent : run.root.file .vaultKey = none := holds
    rw [there] at absent
    cases absent
  | some key => rw [holds.unlock_eq authentic there ok]

/-- After an open that came as far as `open_internal`, the password unlocks the key file. -/
theorem unlocks_of_opens (authentic : Authentic crates) (h : run.KeyedBy crates key) {opening : Opening}
    {f : OpeningFaults} {act : EngineAct} (step : VaultStep crates root run (.opens opening f act) run')
    (sound : f.Sound) {password : String} (given : opening.password? = some password) :
    ∃ master, UnlocksTo crates password master run'.root := by
  cases step with
  | @opens _ _ _ d database opened t fs engine' down there notCut returned step leaves =>
    obtain ⟨key', becomes, same⟩ := (safe_openingKey authentic h.holds sound opening).returns returned
    obtain ⟨master, -, file, found, ok⟩ := (same opened rfl).2 password given
    exact ⟨master, file, (becomes.holds.file_leaves leaves).trans found, ok⟩

end VaultRun.KeyedBy

/-- In every run in which only transactions fail, and no look at the store. -/
theorem VaultReachable.keyedBy (authentic : Authentic crates)
    (h : VaultReachable crates root VaultAct.Sound run) : ∃ key, run.KeyedBy crates key := by
  induction h with
  | start => exact ⟨none, .new⟩
  | step _ step sound ih =>
    obtain ⟨key, keyed⟩ := ih
    obtain ⟨key', keyed', -⟩ := keyed.step authentic step sound
    exact ⟨key', keyed'⟩

/-- A store whose records and log entries are all written with one key, or all without, and which runs
with it. -/
structure VaultRun.WrittenWith (crates : VaultCrates) (key : Option VaultKey) (run : VaultRun) : Prop where
  written : run.engine.phase.WrittenWith (crates.env key)
  opened : ∀ s, run.engine.phase = .running s → run.vaultKey = key

theorem VaultRun.KeyedBy.writtenWith (h : run.KeyedBy crates key) : run.WrittenWith crates key :=
  ⟨h.seals.writtenWith h.endures, h.opened⟩

/-! ## A store that is made with a password -/

namespace VaultSample

def openedAct : EngineAct := .opened (Faults.all false)

/-- The open that makes the store. -/
def makingAct : VaultAct := .opens making noFaults openedAct

/-- The store it makes. -/
def created : VaultRun :=
  ⟨made.root.fs, true, some masterKey, ⟨.running opened, EngineHistory.next ⟨∅, ∅, ∅⟩ openedAct (.running opened)⟩⟩

theorem none_fails : (Faults.all false).OnlyMetadata :=
  ⟨fun _ never => (by cases never), fun _ never => (by cases never)⟩

theorem sound_making : makingAct.Sound :=
  ⟨⟨fun never => (by cases never), fun never => never⟩, none_fails⟩

theorem returns_openInternal : Returns (engineMachine (Faults.all false)) (StorageEngine.openInternal env)
    EngineSample.unopened (.ok ()) opened := by
  have returned := StorageEngine.returns_exec false EngineSample.answers (StorageEngine.openInternal env) []
    EngineSample.unopened
  rw [show (StorageEngine.exec false EngineSample.answers (StorageEngine.openInternal env) []
    EngineSample.unopened).1 = .ok () by decide +kernel] at returned
  exact returned

theorem returns_openingKey : Returns (openingMachine noFaults) (openingKey VaultSample.crates "store" making)
    ⟨⟨VaultRun.new.root, ()⟩, .new, false⟩ (.ok (some masterKey)) made := by
  have returned := StoreFiles.returns_exec answer (openingKey VaultSample.crates "store" making)
    ⟨⟨VaultRun.new.root, ()⟩, .new, false⟩
  rw [show (StoreFiles.exec answer (openingKey VaultSample.crates "store" making)
    ⟨⟨VaultRun.new.root, ()⟩, .new, false⟩).1 = .ok (some masterKey) by decide +kernel] at returned
  exact returned

theorem step_making : VaultStep VaultSample.crates "store" .new makingAct created := by
  have starts : EngineSample.unopened.Starts .new := ⟨rfl, rfl, rfl⟩
  have step : EngineStep env VaultRun.new.engine openedAct created.engine :=
    .mk (.opened starts returns_openInternal)
  exact .opens rfl (fun never => by cases never) (fun never => by cases never) returns_openingKey step rfl

theorem reachable_created : VaultReachable VaultSample.crates "store" VaultAct.Sound created :=
  .step .start step_making sound_making

/-- The step that stores a file. -/
def storingAct : EngineAct := .returned storing (Faults.all false)

/-- The engine with the file in it. -/
def holding : StorageEngine := (StorageEngine.exec false EngineSample.answers (storing.run env) [] opened).2

/-- The store with the file in it. -/
def stored : VaultRun :=
  { created with engine := ⟨.running holding, created.engine.history.next storingAct (.running holding)⟩ }

theorem step_storing : VaultStep VaultSample.crates "store" created (.engine storingAct) stored := by
  have returned := StorageEngine.returns_exec false EngineSample.answers (storing.run env) [] opened
  have step : EngineStep env created.engine storingAct stored.engine := .mk (.returned returned)
  exact .engine (.inl ⟨opened, rfl⟩) step rfl

theorem sound_storing : (VaultAct.engine storingAct).Sound := none_fails

theorem reachable_stored : VaultReachable VaultSample.crates "store" VaultAct.Sound stored :=
  reachable_created.step step_storing sound_storing

end VaultSample

/-! ## What holds of every store -/

/-- A store without a key file has nothing that is encrypted, and one with a key file nothing that is
not: its passphrase unlocks the key that all of it is encrypted with. -/
theorem store_never_half_encrypted (authentic : Authentic crates)
    (h : VaultReachable crates root VaultAct.Sound run) :
    run.root.file .vaultKey = none ∧ run.WrittenWith crates none ∨
      ∃ passphrase key, UnlocksTo crates passphrase key run.root ∧ run.WrittenWith crates (some key) := by
  obtain ⟨key, keyed⟩ := h.keyedBy authentic
  have holds := keyed.holds
  cases key with
  | none => exact .inl ⟨holds, keyed.writtenWith⟩
  | some key =>
    obtain ⟨passphrase, file⟩ := holds
    exact .inr ⟨passphrase, key, file.unlocksTo, keyed.writtenWith⟩

/-- A file in a store that was made with a password. -/
theorem store_never_half_encrypted_stored :
    VaultSample.stored.root.file .vaultKey = none ∧ VaultSample.stored.WrittenWith VaultSample.crates none ∨
      ∃ passphrase key, UnlocksTo VaultSample.crates passphrase key VaultSample.stored.root ∧
        VaultSample.stored.WrittenWith VaultSample.crates (some key) :=
  store_never_half_encrypted VaultSample.authentic VaultSample.reachable_stored

/-- The key file is made at most once, where nothing was ever written, and nothing changes it. -/
theorem vault_key_made_first (authentic : Authentic crates)
    (h : VaultReachable crates root VaultAct.Sound run) {act : VaultAct}
    (step : VaultStep crates root run act run') (sound : act.Sound) :
    run'.root.file .vaultKey = run.root.file .vaultKey ∨
      run.root.file .vaultKey = none ∧ ∃ d, run.engine.phase = .down d ∧ d.Unwritten := by
  obtain ⟨key, keyed⟩ := h.keyedBy authentic
  obtain ⟨key', -, same | ⟨rfl, unwritten⟩⟩ := keyed.step authentic step sound
  · exact .inl same
  · exact .inr ⟨keyed.holds, unwritten⟩

/-- The open that makes the key. -/
theorem vault_key_made_first_created :
    VaultSample.created.root.file .vaultKey = VaultRun.new.root.file .vaultKey ∨
      VaultRun.new.root.file .vaultKey = none ∧ ∃ d, VaultRun.new.engine.phase = .down d ∧ d.Unwritten :=
  vault_key_made_first VaultSample.authentic .start VaultSample.step_making VaultSample.sound_making

/-! ## The password -/

variable (crates root) in
/-- Some step in which only transactions fail. -/
def SoundStep (run run' : VaultRun) : Prop := ∃ act : VaultAct, act.Sound ∧ VaultStep crates root run act run'

theorem VaultReachable.later (h : VaultReachable crates root VaultAct.Sound run)
    (later : Relation.ReflTransGen (SoundStep crates root) run run') :
    VaultReachable crates root VaultAct.Sound run' := by
  induction later with
  | refl => exact h
  | tail _ step ih =>
    obtain ⟨act, sound, step⟩ := step
    exact ih.step step sound

/-- A password goes on unlocking the key file, to the same key. -/
theorem UnlocksTo.later (authentic : Authentic crates) (h : VaultReachable crates root VaultAct.Sound run)
    {password : String} {master : VaultKey} (unlocks : UnlocksTo crates password master run.root)
    (later : Relation.ReflTransGen (SoundStep crates root) run run') :
    UnlocksTo crates password master run'.root := by
  induction later with
  | refl => exact unlocks
  | tail before step ih =>
    obtain ⟨act, sound, step⟩ := step
    obtain ⟨key, keyed⟩ := (h.later before).keyedBy authentic
    obtain rfl := keyed.eq_of_unlocks authentic ih
    obtain ⟨key', -, same | ⟨none, -⟩⟩ := keyed.step authentic step sound
    · obtain ⟨f, there, ok⟩ := ih
      exact ⟨f, same.trans there, ok⟩
    · cases none

/-- A password that a store was once opened with unlocks it for good, to the key that all of it is
encrypted with. -/
theorem password_unlocks_for_good (authentic : Authentic crates)
    (h : VaultReachable crates root VaultAct.Sound run) {opening : Opening} {f : OpeningFaults}
    {act : EngineAct} (sound : (VaultAct.opens opening f act).Sound)
    (step : VaultStep crates root run (.opens opening f act) run') {password : String}
    (given : opening.password? = some password) {run'' : VaultRun}
    (later : Relation.ReflTransGen (SoundStep crates root) run' run'') :
    ∃ key, UnlocksTo crates password key run''.root ∧ run''.WrittenWith crates (some key) := by
  obtain ⟨key, keyed⟩ := h.keyedBy authentic
  obtain ⟨master, unlocks⟩ := keyed.unlocks_of_opens authentic step sound.1 given
  have reached := h.step step sound
  have unlocks' := unlocks.later authentic reached later
  obtain ⟨key', keyed'⟩ := (reached.later later).keyedBy authentic
  obtain rfl := keyed'.eq_of_unlocks authentic unlocks'
  exact ⟨master, unlocks', keyed'.writtenWith⟩

/-- The password of a store that was made with it, once there is a file. -/
theorem password_unlocks_for_good_stored :
    ∃ key, UnlocksTo VaultSample.crates "correct horse" key VaultSample.stored.root ∧
      VaultSample.stored.WrittenWith VaultSample.crates (some key) :=
  password_unlocks_for_good VaultSample.authentic .start VaultSample.sound_making VaultSample.step_making rfl
    (.single ⟨_, VaultSample.sound_storing, VaultSample.step_storing⟩)

end OosLite
