import OosLite.Metadata.Proofs.MigrationFrames

/-!
# How far a migration is

From a directory in which nothing is committed, an attempt to open it leads to a whole database that
is not yet published and from there to a published one, and each of these stages is kept wherever the
attempt fails or is stopped.
-/

namespace OosLite.Migration

open Files Effect Backends

section Stages

variable {saved : Prop} {b : Backends} {init fs fs' : Fs Path} {input : Path} {settings : Bytes}
  {trees : SledDb} {d : MetadataDisk}

/-- Nothing is committed. -/
structure Raw (input : Path) (fs : Fs Path) : Prop where
  committed : fs.file (input ++ [".redb-active"]) = none
  active : fs.file (input ++ ["metadata.redb"]) = none
  tracked : fs.file (input ++ ["metadata.redb.staging"]) ≠ none →
    fs.file (input ++ [".redb-migrating"]) = some ⟨migrationVersion, migrationVersion⟩

/-- The marker of a migration that is committed. -/
def Committed (input : Path) (fs : Fs Path) : Prop :=
  fs.file (input ++ [".redb-active"]) = some ⟨migrationVersion, migrationVersion⟩

/-- The database is whole but not yet published. -/
structure Staged (b : Backends) (input : Path) (trees : SledDb) (fs : Fs Path) : Prop where
  committed : Committed input fs
  active : fs.file (input ++ ["metadata.redb"]) = none
  staging : b.Holds fs (input ++ ["metadata.redb.staging"]) (migrated trees)

/-- The database has been published. -/
structure Published (input : Path) (fs : Fs Path) : Prop where
  committed : Committed input fs
  staging : fs.file (input ++ ["metadata.redb.staging"]) = none

/-- What can be found before anything is written to the new database. -/
def Stage (b : Backends) (input : Path) (trees : SledDb) (fs : Fs Path) : Prop :=
  Raw input fs ∨ Staged b input trees fs ∨
    Published input fs ∧ b.Holds fs (input ++ ["metadata.redb"]) (migrated trees)

theorem Raw.frame (named : input ≠ []) (h : Raw input fs)
    (same : Changes ["conf", "conf.sled-backup"] input fs fs') : Raw input fs' := by
  constructor
  · rw [own_file named same (by decide) (by decide)]
    exact h.committed
  · rw [own_file named same (by decide) (by decide)]
    exact h.active
  · rw [own_file named same (by decide) (by decide), own_file named same (by decide) (by decide)]
    exact h.tracked

/-- As long as nothing is committed, the staged database may be anything. -/
theorem Raw.staging (named : input ≠ []) (h : Raw input fs)
    (marker : fs.file (input ++ [".redb-migrating"]) = some ⟨migrationVersion, migrationVersion⟩)
    (same : Changes ["metadata.redb.staging"] input fs fs') :
    Raw input fs' ∧
      fs'.file (input ++ [".redb-migrating"]) = some ⟨migrationVersion, migrationVersion⟩ := by
  have migrating : fs'.file (input ++ [".redb-migrating"]) =
      some ⟨migrationVersion, migrationVersion⟩ := by
    rw [own_file named same (by decide) (by decide)]
    exact marker
  refine ⟨⟨?_, ?_, fun _ => migrating⟩, migrating⟩
  · rw [own_file named same (by decide) (by decide)]
    exact h.committed
  · rw [own_file named same (by decide) (by decide)]
    exact h.active

theorem Committed.frame {names : List String} (named : input ≠ []) (h : Committed input fs)
    (same : Changes names input fs fs') (other : ".redb-active" ∉ names) : Committed input fs' :=
  (own_file named same (by decide) other).trans h

theorem changes_one {names : List String} {name : String}
    (h : Fs.SameBut (· = input ++ [name]) fs fs') (there : name ∈ names) :
    Changes names input fs fs' := by
  apply h.mono
  rintro q rfl
  exact .inr ⟨name, there, rfl⟩

/-- The copy of the directory has its trees. -/
theorem safe_legacyCopy (legacy : IsLegacy b input init settings trees)
    (kept : Kept saved init input settings d.fs) (blocked : Blocked input settings d.fs) :
    Safe b.machine
      (fun r d' => Changes [] input d.fs d'.fs ∧ ∀ found, r = .ok found → found = some trees)
      (fun d' => Changes [] input d.fs d'.fs) (legacyCopy input) d := by
  have named := legacy.named
  have db : (d.fs.file (input ++ ["db"])).isSome = true := by
    rw [kept.untouched.source ["db"] rfl]
    exact Option.isSome_iff_ne_none.2 legacy.db
  unfold legacyCopy
  rw [safe_bind]
  apply safe_onFiles
  apply Proc.safe_exists _ fun fault => fault.elim
  rw [thenSafe]
  simp only [db, Bool.not_true, Bool.false_eq_true, if_false]
  have backup : d.fs.data (input ++ ["conf.sled-backup"]) = some settings := by
    rw [Fs.data, blocked.2]
    rfl
  apply Safe.bind (P := fun r d' => Changes [] input d.fs d'.fs ∧ (r = .ok () →
    view d'.fs (input ++ [".redb-sled-import"]) = sledFiles init input))
  · apply safe_onFiles
    apply (safe_makeCopy (a := ⟨d.fs, ()⟩) named backup).mono
    · intro r a h
      refine ⟨h.1, fun done => funext fun rest => ?_⟩
      rw [view, h.2 done rest, sledFiles]
      by_cases isConf : rest = ["conf"]
      · rw [if_pos isConf, if_pos (by simp [isConf]), isConf, legacy.conf]
      rw [if_neg isConf]
      by_cases isCopied : copied rest = true
      · rw [if_pos isCopied, if_pos (by simp [isCopied]), Fs.data, Fs.data,
          kept.untouched.source rest isCopied]
      · rw [if_neg isCopied, if_neg (by simp [isConf, isCopied])]
    · intro a h
      exact h
  · intro _ d₁ h
    obtain ⟨same, files⟩ := h
    have files := files rfl
    have after {d₂ : MetadataDisk}
        (h : Fs.SameBut (input ++ [".redb-sled-import"] <+: ·) d₁.fs d₂.fs) :
        Changes [] input d.fs d₂.fs := by
      apply same.trans
      apply h.mono
      intro q inside
      exact .inl (.inr (.inr inside))
    apply Safe.bind (safe_openSled.mono (fun _ _ h => h) fun _ h => after h)
    · intro found d₂ h
      refine ⟨after h.1, ?_⟩
      rintro _ ⟨⟩
      have opened := h.2 found rfl
      rw [files, legacy.contents] at opened
      exact opened.symm
    · intro e d₂ h
      exact ⟨after h.1, fun _ h => by cases h⟩
  · intro e d₁ h
    exact ⟨h.1, fun _ h => by cases h⟩

/-- What an attempt leaves of a directory nothing was written to yet. -/
def Attempted (saved : Prop) (b : Backends) (init : Fs Path) (input : Path) (settings : Bytes) (trees : SledDb)
    (fs : Fs Path) : Prop :=
  Kept saved init input settings fs ∧ Stage b input trees fs

/-- A database is being built. -/
structure Building (saved : Prop) (init : Fs Path) (input : Path) (settings : Bytes) (fs : Fs Path) : Prop where
  kept : Kept saved init input settings fs
  raw : Raw input fs
  marker : fs.file (input ++ [".redb-migrating"]) = some ⟨migrationVersion, migrationVersion⟩
  blocked : Blocked input settings fs

theorem Building.frame (named : input ≠ []) (h : Building saved init input settings fs)
    (same : Changes ["metadata.redb.staging"] input fs fs') : Building saved init input settings fs' := by
  obtain ⟨raw, marker⟩ := h.raw.staging named h.marker same
  refine ⟨h.kept.frame named (same.more (by decide)), raw, marker, ?_⟩
  have blocked := h.blocked
  unfold Blocked at blocked ⊢
  rw [own_file named same (by decide) (by decide), own_file named same (by decide) (by decide)]
  exact blocked

theorem Building.attempted (h : Building saved init input settings fs) :
    Attempted saved b init input settings trees fs := ⟨h.kept, .inl h.raw⟩

/-- The commit of the intent. -/
theorem Building.commit (named : input ≠ []) (h : Building saved init input settings fs)
    (staging : b.Holds fs (input ++ ["metadata.redb.staging"]) (migrated trees))
    (marked : Marked (input ++ [".redb-active"]) migrationVersion fs fs') :
    Kept saved init input settings fs' ∧ Staged b input trees fs' := by
  have change : Changes [".redb-active"] input fs fs' := marked.changes (by decide) (by decide)
  refine ⟨h.kept.frame named (change.more (by decide)), marked.1, ?_, ?_⟩
  · rw [own_file named change (by decide) (by decide)]
    exact h.raw.active
  · exact staging.congr (own_file named change (by decide) (by decide))

/-- The publication of a staged database. -/
theorem Staged.publish (named : input ≠ []) (kept : Kept saved init input settings fs)
    (h : Staged b input trees fs) {f : File}
    (there : fs.file (input ++ ["metadata.redb.staging"]) = some f) :
    let fs' := (fs.drop (input ++ ["metadata.redb.staging"])).put (input ++ ["metadata.redb"]) f
    Kept saved init input settings fs' ∧ Published input fs' ∧
      b.Holds fs' (input ++ ["metadata.redb"]) (migrated trees) := by
  intro fs'
  have change : Changes ["metadata.redb", "metadata.redb.staging"] input fs fs' := by
    have first : Fs.SameBut (· = input ++ ["metadata.redb.staging"]) fs
      (fs.drop (input ++ ["metadata.redb.staging"])) := Fs.sameBut_drop rfl
    have second : Fs.SameBut (· = input ++ ["metadata.redb"])
      (fs.drop (input ++ ["metadata.redb.staging"])) fs' := Fs.sameBut_put _ rfl
    exact (changes_one first (by decide)).trans (changes_one second (by decide))
  have staging : fs'.file (input ++ ["metadata.redb.staging"]) = none := by
    simp [fs', Fs.file_put, Fs.file_drop]
  have active : fs'.file (input ++ ["metadata.redb"]) = some f := by
    simp [fs', Fs.file_put]
  refine ⟨kept.frame named (change.more (by decide)),
    ⟨h.committed.frame named change (by decide), staging⟩, ?_⟩
  exact h.staging.congr (active.trans there.symm)

/-- What is left when `open` does not succeed, and what it succeeds with. -/
def Opened (saved : Prop) (b : Backends) (init : Fs Path) (input : Path) (settings : Bytes) (trees : SledDb)
    (r : Except OosLiteError Path) (d : MetadataDisk) : Prop :=
  Attempted saved b init input settings trees d.fs ∧ ∀ p, r = .ok p → p = input ++ ["metadata.redb"] ∧
    Published input d.fs ∧ b.Holds d.fs (input ++ ["metadata.redb"]) (migrated trees)

theorem Opened.error {e : OosLiteError} (h : Attempted saved b init input settings trees d.fs) :
    Opened saved b init input settings trees (.error e) d := ⟨h, nofun⟩

theorem Published.reopened (named : input ≠ []) (h : Published input fs)
    (reopened : Reopened b (input ++ ["metadata.redb"]) fs fs') : Published input fs' := by
  have change : Changes ["metadata.redb"] input fs fs' :=
    changes_one reopened.sameBut (by decide)
  refine ⟨h.committed.frame named change (by decide), ?_⟩
  rw [own_file named change (by decide) (by decide)]
  exact h.staging

theorem Kept.reopened (named : input ≠ []) (h : Kept saved init input settings fs) {name : String}
    (own : name ∈ ["metadata.redb", "metadata.redb.staging", ".redb-active"])
    (reopened : Reopened b (input ++ [name]) fs fs') : Kept saved init input settings fs' :=
  h.frame named (changes_one reopened.sameBut own)

/-- The last steps: the staged database is published and opened. -/
theorem safe_publish (named : input ≠ []) (kept : Kept saved init input settings d.fs)
    (staged : Staged b input trees d.fs) :
    Safe b.machine
      (fun r d' => d'.imports = d.imports ∧ Attempted saved b init input settings trees d'.fs ∧
        (d'.fs.file (input ++ [".redb-active"]) = d.fs.file (input ++ [".redb-active"])) ∧
        (r = .ok () → Published input d'.fs ∧
          b.Holds d'.fs (input ++ ["metadata.redb"]) (migrated trees)))
      (fun d' => d'.imports = d.imports ∧ Attempted saved b init input settings trees d'.fs ∧
        (d'.fs.file (input ++ [".redb-active"]) = d.fs.file (input ++ [".redb-active"])))
      (onFiles (publish (input ++ ["metadata.redb.staging"]) (input ++ ["metadata.redb"]))) d := by
  obtain ⟨bytes, there, tables⟩ := staged.staging
  obtain ⟨kept', published, holds⟩ := staged.publish named kept there
  have before : Attempted saved b init input settings trees d.fs := ⟨kept, .inr (.inl staged)⟩
  have after := And.intro kept' (Or.inr (Or.inr (And.intro published holds)) : Stage b input trees _)
  have same := published.committed.trans staged.committed.symm
  apply safe_onFiles
  apply Proc.safe_rename there
  · exact ⟨rfl, before, rfl⟩
  · exact ⟨rfl, after, same⟩
  · exact ⟨rfl, after, same, fun _ => ⟨published, holds⟩⟩
  · intro _
    exact ⟨rfl, before, rfl, nofun⟩

/-- Opening what is published. -/
theorem safe_openActive (named : input ≠ []) (kept : Kept saved init input settings d.fs)
    (published : Published input d.fs)
    (holds : b.Holds d.fs (input ++ ["metadata.redb"]) (migrated trees)) :
    Safe b.machine
      (fun _ d' => d'.imports = d.imports ∧ Kept saved init input settings d'.fs ∧
        Published input d'.fs ∧ b.Holds d'.fs (input ++ ["metadata.redb"]) (migrated trees))
      (fun d' => d'.imports = d.imports ∧ Attempted saved b init input settings trees d'.fs)
      (openDatabase (input ++ ["metadata.redb"])) d := by
  have opened {d' : MetadataDisk} (h : Reopened b (input ++ ["metadata.redb"]) d.fs d'.fs) :
      Kept saved init input settings d'.fs ∧ Published input d'.fs ∧
        b.Holds d'.fs (input ++ ["metadata.redb"]) (migrated trees) :=
    ⟨kept.reopened named (by decide) h, published.reopened named h, h.holds holds⟩
  apply safe_openDatabase.mono
  · intro r d' h
    exact ⟨h.1, opened h.2.1⟩
  · intro d' h
    exact ⟨h.1, (opened h.2).1, .inr (.inr (opened h.2).2)⟩

/-- From the commit of the intent on. -/
theorem safe_commitBuilt (named : input ≠ []) (building : Building saved init input settings d.fs)
    (holds : b.Holds d.fs (input ++ ["metadata.redb.staging"]) (migrated trees)) :
    Safe b.machine (Opened saved b init input settings trees)
      (fun d' => Attempted saved b init input settings trees d'.fs)
      (do
        onFiles (writeMarker (input ++ [".redb-active"]) migrationVersion)
        onFiles (publish (input ++ ["metadata.redb.staging"]) (input ++ ["metadata.redb"]))
        openDatabase (input ++ ["metadata.redb"])
        return input ++ ["metadata.redb"]) d := by
  have half {fs : Fs Path} (h : Fs.SameBut (· = sibling (input ++ [".redb-active"]) ".tmp") d.fs fs) :
      Attempted saved b init input settings trees fs :=
    (building.frame named (changes_temporary h (by decide))).attempted
  apply Safe.bind (P := fun r d' => Attempted saved b init input settings trees d'.fs ∧
    (r = .ok () → Kept saved init input settings d'.fs ∧ Staged b input trees d'.fs))
  · apply safe_onFiles
    apply safe_writeMarker.mono
    · intro r a h
      rcases h with h | ⟨⟨e, rfl⟩, h⟩
      · obtain ⟨kept, staged⟩ := building.commit named holds h
        exact ⟨⟨kept, .inr (.inl staged)⟩, fun _ => ⟨kept, staged⟩⟩
      · exact ⟨half h, nofun⟩
    · intro a h
      cases h with
      | inl h =>
        obtain ⟨kept, staged⟩ := building.commit named holds h
        exact ⟨kept, .inr (.inl staged)⟩
      | inr h => exact half h
  · intro _ d₁ h
    obtain ⟨kept, staged⟩ := h.2 rfl
    apply Safe.bind ((safe_publish named kept staged).mono (fun _ _ h => h) fun _ h => h.2.1)
    · intro _ d₂ h
      obtain ⟨-, attempted, -, published⟩ := h
      obtain ⟨published, holds⟩ := published rfl
      apply Safe.bind ((safe_openActive named attempted.1 published holds).mono (fun _ _ h => h)
        fun _ h => h.2)
      · intro _ d₃ h
        obtain ⟨-, kept, published⟩ := h
        refine ⟨⟨kept, .inr (.inr published)⟩, ?_⟩
        rintro _ ⟨⟩
        exact ⟨rfl, published⟩
      · intro e d₃ h
        exact .error ⟨h.2.1, .inr (.inr h.2.2)⟩
    · intro e d₂ h
      exact .error h.2.1
  · intro e d₁ h
    exact .error h.1

/-- Building ends in a database that is published and has the trees; whatever stops it, the next
attempt finds a stage of it. -/
theorem safe_build (legacy : IsLegacy b input init settings trees)
    (kept : Kept saved init input settings d.fs) (raw : Raw input d.fs)
    (marker : d.fs.file (input ++ [".redb-migrating"]) =
      some ⟨migrationVersion, migrationVersion⟩) :
    Safe b.machine (Opened saved b init input settings trees)
      (fun d' => Attempted saved b init input settings trees d'.fs) (build input) d := by
  have named := legacy.named
  have unbuilt {fs : Fs Path} (same : Changes ["conf", "conf.sled-backup"] input d.fs fs)
      (now : Settings saved input settings fs) : Attempted saved b init input settings trees fs :=
    ⟨kept.blocking named same now, .inl (raw.frame named same)⟩
  unfold build
  simp only
  apply Safe.bind (P := fun r d' => Attempted saved b init input settings trees d'.fs ∧
    (r = .ok () → Building saved init input settings d'.fs))
  · apply safe_onFiles
    apply (safe_blockSled (a := ⟨d.fs, ()⟩) named legacy.accessible kept.settings).mono
    · intro r a h
      refine ⟨unbuilt h.1 h.2.1, fun done => ?_⟩
      refine ⟨kept.blocking named h.1 h.2.1, raw.frame named h.1, ?_, h.2.2 done⟩
      rw [own_file named h.1 (by decide) (by decide)]
      exact marker
    · intro a h
      exact unbuilt h.1 h.2
  · intro _ d₁ h
    have building := h.2 rfl
    -- the database of an earlier attempt is gone
    apply Safe.bind (P := fun r d' => Building saved init input settings d'.fs ∧
      (r = .ok () → d'.fs.file (input ++ ["metadata.redb.staging"]) = none))
    · apply safe_onFiles
      rw [safe_bind]
      apply Proc.safe_exists _ fun fault => fault.elim
      rw [thenSafe]
      cases there : d₁.fs.file (input ++ ["metadata.redb.staging"]) with
      | none =>
        rw [if_neg (by simp)]
        exact ⟨building, fun _ => there⟩
      | some f =>
        have dropped : Changes ["metadata.redb.staging"] input d₁.fs
            (d₁.fs.drop (input ++ ["metadata.redb.staging"])) :=
          changes_one (Fs.sameBut_drop rfl) (by decide)
        have gone := building.frame named dropped
        rw [if_pos (by simp)]
        apply Proc.safe_remove there
        · exact building.attempted
        · exact gone.attempted
        · exact ⟨gone, fun _ => by simp⟩
        · intro _
          exact ⟨building, fun h => by cases h⟩
    · intro _ d₂ h
      obtain ⟨building, gone⟩ := h
      have gone := gone rfl
      have copying {fs : Fs Path} (same : Changes [] input d₂.fs fs) :
          Building saved init input settings fs := building.frame named (same.more (by decide))
      apply Safe.bind ((safe_legacyCopy legacy building.kept building.blocked).mono
        (fun _ _ h => h) fun _ h => (copying h).attempted)
      · intro found d₃ h
        obtain rfl := h.2 found rfl
        have building := copying h.1
        have absent : d₃.fs.file (input ++ ["metadata.redb.staging"]) = none := by
          rw [own_file named h.1 (by decide) (by decide)]
          exact gone
        have writing {d d' : MetadataDisk} (building : Building saved init input settings d.fs)
            (same : Fs.SameBut (· = input ++ ["metadata.redb.staging"]) d.fs d'.fs) :
            Building saved init input settings d'.fs :=
          building.frame named (changes_one same (by decide))
        apply Safe.bind ((safe_createDatabase absent).mono (fun _ _ h => h)
          fun _ h => (writing building h).attempted)
        · intro _ d₄ h
          have building := writing building h.1
          apply Safe.bind ((safe_commit _ (h.2 rfl)).mono (fun _ _ h => h)
            fun _ h => (writing building h).attempted)
          · intro _ d₅ h
            have building := writing building h.1
            have holds := h.2 rfl
            rw [initializeDatabase_empty] at holds
            apply Safe.bind (safe_validateDatabase.mono (fun _ _ h => h) fun d' h => by
              rw [h]
              exact building.attempted)
            · rintro _ d₆ ⟨rfl, -⟩
              obtain ⟨bytes, there, tables⟩ := id holds
              have synced : Fs.SameBut (· = input ++ ["metadata.redb.staging"]) d₆.fs
                  (d₆.fs.put (input ++ ["metadata.redb.staging"]) ⟨bytes, bytes⟩) :=
                Fs.sameBut_put _ rfl
              have building' := building.frame named (changes_one synced (by decide))
              rw [safe_bind]
              apply safe_onFiles
              apply Proc.safe_sync there
              · exact building.attempted
              · exact building'.attempted
              · rw [thenSafe]
                have holds : b.Holds (d₆.fs.put (input ++ ["metadata.redb.staging"]) ⟨bytes, bytes⟩)
                    (input ++ ["metadata.redb.staging"]) (migrated trees) :=
                  ⟨bytes, by simp, tables⟩
                exact safe_commitBuilt named building' holds
              · intro _
                exact .error building.attempted
            · rintro e _ ⟨rfl, -⟩
              exact .error building.attempted
          · intro e d₅ h
            exact .error (writing building h.1).attempted
        · intro e d₄ h
          exact .error (writing building h.1).attempted
      · intro e d₃ h
        exact .error (copying h.1).attempted
    · intro e d₂ h
      exact .error h.1.attempted
  · intro e d₁ h
    exact .error h.1

theorem Raw.same (named : input ≠ []) (h : Raw input fs) (same : Changes [] input fs fs') :
    Raw input fs' := h.frame named (same.more (by decide))

theorem Kept.same (named : input ≠ []) (h : Kept saved init input settings fs)
    (same : Changes [] input fs fs') : Kept saved init input settings fs' :=
  h.frame named (same.more (by decide))

/-- The migration is marked as begun. -/
theorem safe_startMigrating (named : input ≠ []) {a : Proc Path Unit}
    (kept : Kept saved init input settings a.fs) (raw : Raw input a.fs) :
    Safe fileMachine
      (fun r a' => Kept saved init input settings a'.fs ∧ Raw input a'.fs ∧ (r = .ok () →
        a'.fs.file (input ++ [".redb-migrating"]) = some ⟨migrationVersion, migrationVersion⟩))
      (fun a' => Kept saved init input settings a'.fs ∧ Raw input a'.fs) (startMigrating input) a := by
  unfold startMigrating
  simp only
  apply Safe.bind (safe_checkMarker.mono (fun _ _ h => h) fun _ h => h.elim)
  · rintro r a' ⟨rfl, yes, no⟩
    cases r with
    | true =>
      rw [if_neg (by simp)]
      refine ⟨kept, raw, fun _ => ?_⟩
      rcases kept.migrating with absent | there
      · have := yes rfl
        rw [Fs.data, absent] at this
        cases this
      · exact there
    | false =>
      have unmarked := no rfl
      have unbuilt : a'.fs.file (input ++ ["metadata.redb.staging"]) = none := by
        by_contra there
        rw [raw.tracked there] at unmarked
        cases unmarked
      rw [if_pos (by simp), safe_bind]
      apply Proc.safe_exists _ fun fault => fault.elim
      rw [thenSafe, unbuilt]
      apply Safe.bind (safe_isThere.mono (fun _ _ h => h) fun _ h => h.elim)
      · rintro corrupt a₁ ⟨rfl, -⟩
        have half {fs : Fs Path}
            (h : Fs.SameBut (· = sibling (input ++ [".redb-migrating"]) ".tmp") a₁.fs fs) :
            Kept saved init input settings fs ∧ Raw input fs := by
          have change : Changes [] input a₁.fs fs := changes_temporary h (by decide)
          exact ⟨kept.same named change, raw.same named change⟩
        have wrote {fs : Fs Path}
            (h : Marked (input ++ [".redb-migrating"]) migrationVersion a₁.fs fs) :
            Kept saved init input settings fs ∧ Raw input fs := by
          have change : Changes [".redb-migrating"] input a₁.fs fs :=
            h.changes (by decide) (by decide)
          constructor
          · refine ⟨kept.untouched.frame named (change.more (by decide)), ?_, .inr h.1⟩
            have settings := kept.settings
            unfold Settings at settings ⊢
            rw [own_file named change (by decide) (by decide),
              own_file named change (by decide) (by decide)]
            exact settings
          · refine ⟨?_, ?_, fun _ => h.1⟩
            · rw [own_file named change (by decide) (by decide)]
              exact raw.committed
            · rw [own_file named change (by decide) (by decide)]
              exact raw.active
        by_cases refuse : corrupt = true
        · rw [if_pos (by simp [refuse])]
          exact ⟨kept, raw, fun h => by cases h⟩
        rw [if_neg (by simp [refuse])]
        apply safe_writeMarker.mono
        · intro r a' h
          rcases h with h | ⟨⟨e, rfl⟩, h⟩
          · exact ⟨(wrote h).1, (wrote h).2, fun _ => h.1⟩
          · exact ⟨(half h).1, (half h).2, fun h => by cases h⟩
        · intro a' h
          cases h with
          | inl h => exact wrote h
          | inr h => exact half h
      · rintro e a'' ⟨rfl, there, no, -⟩
        cases no
  · rintro e a' ⟨rfl, -⟩
    exact ⟨kept, raw, fun h => by cases h⟩

/-- What opening a published database leaves as it was. -/
structure Steady (saved : Prop) (b : Backends) (init : Fs Path) (input : Path) (settings : Bytes)
    (d d' : MetadataDisk) : Prop where
  imports : d'.imports = d.imports
  kept : Kept saved init input settings d'.fs
  published : Published input d'.fs
  holds : ∀ t, b.Holds d.fs (input ++ ["metadata.redb"]) t →
    b.Holds d'.fs (input ++ ["metadata.redb"]) t
  tables : b.tablesAt d'.fs (input ++ ["metadata.redb"]) =
    b.tablesAt d.fs (input ++ ["metadata.redb"])

/-- The published database is opened: it is what it was, and one that `validate_database` refuses is
not opened. -/
theorem safe_openPublished (legacy : IsLegacy b input init settings trees)
    (kept : Kept saved init input settings d.fs) (published : Published input d.fs) :
    Safe b.machine
      (fun r d' => Steady saved b init input settings d d' ∧ ∀ p, r = .ok p →
        p = input ++ ["metadata.redb"] ∧ Usable b d.fs (input ++ ["metadata.redb"]))
      (Steady saved b init input settings d)
      (do
        openDatabase (input ++ ["metadata.redb"])
        validateDatabase (input ++ ["metadata.redb"])
        onFiles (blockSled input)
        return input ++ ["metadata.redb"]) d := by
  have named := legacy.named
  have opened {d' : MetadataDisk} (h : d'.imports = d.imports ∧
      Reopened b (input ++ ["metadata.redb"]) d.fs d'.fs) : Steady saved b init input settings d d' :=
    { imports := h.1
      kept := kept.reopened named (by decide) h.2
      published := published.reopened named h.2
      holds := fun _ => h.2.holds
      tables := h.2.tablesAt }
  apply Safe.bind (safe_openDatabase.mono (fun _ _ h => h) fun _ h => opened h)
  · intro _ d₁ h
    have steady := opened ⟨h.1, h.2.1⟩
    apply Safe.bind (safe_validateDatabase.mono (fun _ _ h => h) fun d' same => by
      rw [same]
      exact steady)
    · rintro _ d₂ ⟨rfl, usable⟩
      have usable : Usable b d.fs (input ++ ["metadata.redb"]) := by
        obtain ⟨t, tables, valid⟩ := usable rfl
        exact ⟨t, steady.tables.symm.trans tables, valid⟩
      have blocking {fs : Fs Path}
          (h : Changes ["conf", "conf.sled-backup"] input d₂.fs fs ∧ Settings saved input settings fs) :
          Steady saved b init input settings d { d₂ with fs } := by
        have active : fs.file (input ++ ["metadata.redb"]) =
            d₂.fs.file (input ++ ["metadata.redb"]) := own_file named h.1 (by decide) (by decide)
        refine ⟨steady.imports, steady.kept.blocking named h.1 h.2, ⟨?_, ?_⟩, ?_, ?_⟩
        · exact steady.published.committed.frame named h.1 (by decide)
        · rw [own_file named h.1 (by decide) (by decide)]
          exact steady.published.staging
        · intro t holds
          exact (steady.holds t holds).congr active
        · rw [← steady.tables, Backends.tablesAt, Backends.tablesAt, Fs.data, Fs.data, active]
      apply Safe.bind (P := fun _ d' => Steady saved b init input settings d d')
      · apply safe_onFiles
        apply (safe_blockSled (a := ⟨d₂.fs, ()⟩) named legacy.accessible steady.kept.settings).mono
        · intro r a h
          exact blocking ⟨h.1, h.2.1⟩
        · intro a h
          exact blocking h
      · intro _ d₃ h
        refine ⟨h, ?_⟩
        rintro _ ⟨⟩
        exact ⟨rfl, usable⟩
      · intro e d₃ h
        exact ⟨h, fun _ h => by cases h⟩
    · rintro e d₂ ⟨rfl, -⟩
      exact ⟨steady, fun _ h => by cases h⟩
  · intro e d₁ h
    exact ⟨opened ⟨h.1, h.2.1⟩, fun _ h => by cases h⟩

/-- Nothing is resumed when the database is published. -/
theorem safe_resume_published {Q : Except OosLiteError Unit → MetadataDisk → Prop}
    {C : MetadataDisk → Prop} (published : Published input d.fs) (done : Q (.ok ()) d) :
    Safe b.machine Q C (resume input) d := by
  unfold resume
  simp only
  rw [safe_bind]
  apply safe_onFiles
  apply Proc.safe_exists _ fun fault => fault.elim
  rw [thenSafe, safe_bind]
  apply safe_onFiles
  apply Proc.safe_exists _ fun fault => fault.elim
  rw [thenSafe, if_neg]
  · exact done
  · rw [published.staging]
    simp

/-- An interrupted publication is finished without the directory. -/
theorem safe_resume_staged (named : input ≠ []) (kept : Kept saved init input settings d.fs)
    (staged : Staged b input trees d.fs) :
    Safe b.machine
      (fun r d' => (d'.imports = d.imports ∧ Committed input d'.fs ∧
          Attempted saved b init input settings trees d'.fs) ∧
        (r = .ok () → Published input d'.fs ∧
          b.Holds d'.fs (input ++ ["metadata.redb"]) (migrated trees)))
      (fun d' => d'.imports = d.imports ∧ Committed input d'.fs ∧
        Attempted saved b init input settings trees d'.fs) (resume input) d := by
  obtain ⟨bytes, there, tables⟩ := staged.staging
  unfold resume
  simp only
  rw [safe_bind]
  apply safe_onFiles
  apply Proc.safe_exists _ fun fault => fault.elim
  rw [thenSafe, safe_bind]
  apply safe_onFiles
  apply Proc.safe_exists _ fun fault => fault.elim
  rw [thenSafe, staged.active, there, if_pos (by simp)]
  have opened {d' : MetadataDisk} (h : d'.imports = d.imports ∧
      Reopened b (input ++ ["metadata.redb.staging"]) d.fs d'.fs) :
      d'.imports = d.imports ∧ Kept saved init input settings d'.fs ∧ Staged b input trees d'.fs := by
    have change : Changes ["metadata.redb.staging"] input d.fs d'.fs :=
      changes_one h.2.sameBut (by decide)
    refine ⟨h.1, kept.reopened named (by decide) h.2, ?_, ?_, h.2.holds staged.staging⟩
    · exact staged.committed.frame named change (by decide)
    · rw [own_file named change (by decide) (by decide)]
      exact staged.active
  have fine {d' : MetadataDisk} (h : d'.imports = d.imports ∧ Kept saved init input settings d'.fs ∧
      Staged b input trees d'.fs) : d'.imports = d.imports ∧ Committed input d'.fs ∧
        Attempted saved b init input settings trees d'.fs :=
    ⟨h.1, h.2.2.committed, h.2.1, .inr (.inl h.2.2)⟩
  apply Safe.bind (safe_openDatabase.mono (fun _ _ h => h) fun _ h => fine (opened h))
  · intro _ d₁ h
    have steady := opened ⟨h.1, h.2.1⟩
    apply Safe.bind (safe_validateDatabase.mono (fun _ _ h => h) fun d' same => by
      rw [same]
      exact fine steady)
    · rintro _ d₂ ⟨rfl, -⟩
      obtain ⟨imports, kept, staged⟩ := steady
      apply (safe_publish named kept staged).mono
      · intro r d' h
        exact ⟨⟨h.1.trans imports, h.2.2.1.trans staged.committed, h.2.1⟩, h.2.2.2⟩
      · intro d' h
        exact ⟨h.1.trans imports, h.2.2.trans staged.committed, h.2.1⟩
    · rintro e d₂ ⟨rfl, -⟩
      exact ⟨fine steady, fun ok => by cases ok⟩
  · intro e d₁ h
    exact ⟨fine (opened ⟨h.1, h.2.1⟩), fun ok => by cases ok⟩

/-- The marker of a committed migration is read. -/
theorem safe_checkCommitted {Q : Except OosLiteError Path → MetadataDisk → Prop}
    {C : MetadataDisk → Prop} {f : Bool → MigrationProg Path} (committed : Committed input d.fs)
    (yes : Safe b.machine Q C (f true) d) (err : ∀ e, Q (.error e) d) :
    Safe b.machine Q C (onFiles (checkMarker (input ++ [".redb-active"])) >>= f) d := by
  rw [safe_bind]
  apply safe_onFiles
  apply safe_checkMarker.mono
  · rintro r a ⟨rfl, -, no⟩
    cases r with
    | error e => exact err e
    | ok there =>
      cases there with
      | true => exact yes
      | false =>
        have absent := no rfl
        unfold Committed at committed
        rw [show (⟨d.fs, ()⟩ : Proc Path Unit).fs = d.fs from rfl, committed] at absent
        cases absent
  · intro a h
    exact h.elim

theorem safe_openNested_raw (legacy : IsLegacy b input init settings trees)
    (kept : Kept saved init input settings d.fs) (raw : Raw input d.fs) :
    Safe b.machine (Opened saved b init input settings trees)
      (fun d' => Attempted saved b init input settings trees d'.fs) (openNested input) d := by
  have before : Attempted saved b init input settings trees d.fs := ⟨kept, .inl raw⟩
  unfold openNested
  simp only
  rw [safe_bind]
  apply safe_onFiles
  apply safe_checkMarker.mono
  · rintro r a ⟨rfl, yes, -⟩
    cases r with
    | error e => exact .error before
    | ok there =>
      have unmarked : there = false := by
        by_contra marked
        rw [Bool.not_eq_false] at marked
        have there := yes (congrArg Except.ok marked)
        rw [Fs.data, raw.committed] at there
        cases there
      subst unmarked
      rw [thenSafe, if_neg (by simp), safe_bind]
      apply safe_onFiles
      apply Proc.safe_exists _ fun fault => fault.elim
      rw [thenSafe, raw.active, if_neg (by simp)]
      apply Safe.bind (P := fun r d' => (Kept saved init input settings d'.fs ∧ Raw input d'.fs) ∧
        (r = .ok () → d'.fs.file (input ++ [".redb-migrating"]) =
          some ⟨migrationVersion, migrationVersion⟩))
      · apply safe_onFiles
        apply (safe_startMigrating (a := ⟨d.fs, ()⟩) legacy.named kept raw).mono
        · intro r a h
          exact ⟨⟨h.1, h.2.1⟩, h.2.2⟩
        · intro a h
          exact ⟨h.1, .inl h.2⟩
      · intro _ d₁ h
        exact safe_build legacy h.1.1 h.1.2 (h.2 rfl)
      · intro e d₁ h
        exact .error ⟨h.1.1, .inl h.1.2⟩
  · intro a h
    exact h.elim

theorem safe_openNested_published (legacy : IsLegacy b input init settings trees)
    (kept : Kept saved init input settings d.fs) (published : Published input d.fs) :
    Safe b.machine
      (fun r d' => Steady saved b init input settings d d' ∧ ∀ p, r = .ok p →
        p = input ++ ["metadata.redb"] ∧ Usable b d.fs (input ++ ["metadata.redb"]))
      (Steady saved b init input settings d) (openNested input) d := by
  have same : Steady saved b init input settings d d := ⟨rfl, kept, published, fun _ h => h, rfl⟩
  unfold openNested
  simp only
  apply safe_checkCommitted published.committed
  · rw [if_pos rfl, safe_bind]
    apply safe_resume_published published
    exact safe_openPublished legacy kept published
  · intro e
    exact ⟨same, nofun⟩

theorem safe_openNested_staged (legacy : IsLegacy b input init settings trees)
    (kept : Kept saved init input settings d.fs) (staged : Staged b input trees d.fs) :
    Safe b.machine
      (fun r d' => (d'.imports = d.imports ∧ Committed input d'.fs) ∧
        Opened saved b init input settings trees r d')
      (fun d' => (d'.imports = d.imports ∧ Committed input d'.fs) ∧
        Attempted saved b init input settings trees d'.fs) (openNested input) d := by
  unfold openNested
  simp only
  apply safe_checkCommitted staged.committed
  · rw [if_pos rfl]
    apply Safe.bind ((safe_resume_staged legacy.named kept staged).mono (fun _ _ h => h)
      fun _ h => ⟨⟨h.1, h.2.1⟩, h.2.2⟩)
    · intro _ d₁ h
      obtain ⟨⟨imports, -, attempted⟩, published⟩ := h
      obtain ⟨published, holds⟩ := published rfl
      have steady {d' : MetadataDisk} (h : Steady saved b init input settings d₁ d') :
          (d'.imports = d.imports ∧ Committed input d'.fs) ∧
            Attempted saved b init input settings trees d'.fs :=
        ⟨⟨h.imports.trans imports, h.published.committed⟩, h.kept,
          .inr (.inr ⟨h.published, h.holds _ holds⟩)⟩
      apply (safe_openPublished legacy attempted.1 published).mono
      · intro r d' h
        refine ⟨(steady h.1).1, (steady h.1).2, fun p done => ?_⟩
        exact ⟨(h.2 p done).1, h.1.published, h.1.holds _ holds⟩
      · intro d' h
        exact steady h
    · intro e d₁ h
      exact ⟨⟨h.1.1, h.1.2.1⟩, .error h.1.2.2⟩
  · intro e
    exact ⟨⟨rfl, staged.committed⟩, .error ⟨kept, .inr (.inl staged)⟩⟩

/-- What `open` looks at first changes nothing but the lock file. -/
theorem safe_open {Q : Except OosLiteError Path → MetadataDisk → Prop} {C : MetadataDisk → Prop}
    (named : input ≠ []) (untouched : Untouched init input d.fs)
    (stop : ∀ fs, Changes [] input d.fs fs → C { d with fs })
    (err : ∀ e fs, Changes [] input d.fs fs → Q (.error e) { d with fs })
    (nested : ∀ fs, Changes [] input d.fs fs → Safe b.machine Q C (openNested input) { d with fs }) :
    Safe b.machine Q C («open» input) d := by
  have locked {fs : Fs Path} (same : Fs.SameBut (· = sibling input ".open.lock") d.fs fs) :
      Changes [] input d.fs fs := by
    apply same.mono
    rintro q rfl
    exact .inl (.inl rfl)
  unfold «open»
  simp only
  rw [safe_bind]
  apply safe_onFiles
  apply (safe_created _).mono
  · intro r a h
    have same := locked h
    have untouched := untouched.frame named (same.more (by simp))
    cases r with
    | error e => exact err e _ same
    | ok u =>
      rw [thenSafe, safe_bind]
      apply safe_onFiles
      apply Proc.safe_exists _ fun fault => fault.elim
      rw [thenSafe, safe_bind]
      apply safe_onFiles
      apply Proc.safe_exists _ fun fault => fault.elim
      rw [thenSafe, untouched.directory, untouched.noState, if_neg (by simp), safe_bind]
      apply safe_onFiles
      apply safe_isThere.mono
      · rintro r a' ⟨rfl, there, rfl, absent⟩
        rw [absent untouched.noArchive, thenSafe, if_neg (by simp)]
        exact nested _ same
      · intro a' h
        exact h.elim
  · intro a h
    exact stop _ (locked h)

theorem Staged.frame (named : input ≠ []) (h : Staged b input trees fs)
    (same : Changes [] input fs fs') : Staged b input trees fs' := by
  refine ⟨h.committed.frame named same (by decide), ?_, h.staging.congr ?_⟩
  · rw [own_file named same (by decide) (by decide)]
    exact h.active
  · exact own_file named same (by decide) (by decide)

/-- The lock file of a published database. -/
theorem Published.steady (named : input ≠ []) (kept : Kept saved init input settings d.fs)
    (h : Published input d.fs) (same : Changes [] input d.fs fs') :
    Steady saved b init input settings d { d with fs := fs' } := by
  have active : fs'.file (input ++ ["metadata.redb"]) = d.fs.file (input ++ ["metadata.redb"]) :=
    own_file named same (by decide) (by decide)
  refine ⟨rfl, kept.same named same, ⟨h.committed.frame named same (by decide), ?_⟩, ?_, ?_⟩
  · rw [own_file named same (by decide) (by decide)]
    exact h.staging
  · intro t holds
    exact holds.congr active
  · rw [Backends.tablesAt, Backends.tablesAt, Fs.data, Fs.data, active]

theorem Steady.trans {d' d'' : MetadataDisk} (h : Steady saved b init input settings d d')
    (h' : Steady saved b init input settings d' d'') : Steady saved b init input settings d d'' :=
  { imports := h'.imports.trans h.imports
    kept := h'.kept
    published := h'.published
    holds := fun t holds => h'.holds t (h.holds t holds)
    tables := h'.tables.trans h.tables }

theorem safe_open_raw (legacy : IsLegacy b input init settings trees)
    (kept : Kept saved init input settings d.fs) (raw : Raw input d.fs) :
    Safe b.machine (Opened saved b init input settings trees)
      (fun d' => Attempted saved b init input settings trees d'.fs) («open» input) d := by
  have named := legacy.named
  have unbuilt {fs : Fs Path} (same : Changes [] input d.fs fs) :
      Attempted saved b init input settings trees fs :=
    ⟨kept.same named same, .inl (raw.same named same)⟩
  apply safe_open named kept.untouched
  · intro fs same
    exact unbuilt same
  · intro e fs same
    exact .error (unbuilt same)
  · intro fs same
    exact safe_openNested_raw legacy (kept.same named same) (raw.same named same)

theorem safe_open_staged (legacy : IsLegacy b input init settings trees)
    (kept : Kept saved init input settings d.fs) (staged : Staged b input trees d.fs) :
    Safe b.machine
      (fun r d' => (d'.imports = d.imports ∧ Committed input d'.fs) ∧
        Opened saved b init input settings trees r d')
      (fun d' => (d'.imports = d.imports ∧ Committed input d'.fs) ∧
        Attempted saved b init input settings trees d'.fs) («open» input) d := by
  have named := legacy.named
  have locked {fs : Fs Path} (same : Changes [] input d.fs fs) :
      Committed input fs ∧ Attempted saved b init input settings trees fs :=
    ⟨(staged.frame named same).committed, kept.same named same, .inr (.inl (staged.frame named same))⟩
  apply safe_open named kept.untouched
  · intro fs same
    exact ⟨⟨rfl, (locked same).1⟩, (locked same).2⟩
  · intro e fs same
    exact ⟨⟨rfl, (locked same).1⟩, .error (locked same).2⟩
  · intro fs same
    exact safe_openNested_staged legacy (kept.same named same) (staged.frame named same)

theorem safe_open_published (legacy : IsLegacy b input init settings trees)
    (kept : Kept saved init input settings d.fs) (published : Published input d.fs) :
    Safe b.machine
      (fun r d' => Steady saved b init input settings d d' ∧ ∀ p, r = .ok p →
        p = input ++ ["metadata.redb"] ∧ Usable b d.fs (input ++ ["metadata.redb"]))
      (Steady saved b init input settings d) («open» input) d := by
  have named := legacy.named
  apply safe_open named kept.untouched
  · intro fs same
    exact published.steady named kept same
  · intro e fs same
    exact ⟨published.steady named kept same, nofun⟩
  · intro fs same
    have first := published.steady (b := b) named kept same
    apply (safe_openNested_published legacy first.kept first.published).mono
    · intro r d' h
      refine ⟨first.trans h.1, fun p done => ⟨(h.2 p done).1, ?_⟩⟩
      obtain ⟨t, tables, valid⟩ := (h.2 p done).2
      exact ⟨t, first.tables.symm.trans tables, valid⟩
    · intro d' h
      exact first.trans h

end Stages

end OosLite.Migration
