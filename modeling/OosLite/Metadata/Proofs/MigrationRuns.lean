import OosLite.Metadata.Execution
import OosLite.Metadata.Proofs.MigrationSteps
import Mathlib.Logic.Relation

/-!
# The migration is crash-safe

However often opening a sled directory is stopped or fails, a store that opens has the trees of the
directory and all that was written since, and once the migration is committed the directory is
never read again.
-/

namespace OosLite.Migration

open Files Effect Backends Relation

section Runs

variable {saved : Prop} {b : Backends} {init fs fs' : Fs Path} {input : Path} {settings : Bytes}
  {trees : SledDb} {s s' : Life}

/-- What is true of a directory at any time. -/
structure Tracked (saved : Prop) (b : Backends) (init : Fs Path) (input : Path) (settings : Bytes)
    (trees : SledDb) (s : Life) : Prop where
  kept : Kept saved init input settings s.disk.fs
  stage : s.db = none ∧ s.writes = [] ∧ s.intact = true ∧
      (Raw input s.disk.fs ∨ Staged b input trees s.disk.fs) ∨
    Published input s.disk.fs ∧ (∀ p, s.db = some p → p = input ++ ["metadata.redb"]) ∧
      (s.intact = true → b.Holds s.disk.fs (input ++ ["metadata.redb"]) (s.expected trees))

/-! ### Power cuts -/

theorem synced_file (cut : fs.PowerCut fs') {p : Path} {bytes : Bytes}
    (there : fs.file p = some ⟨bytes, bytes⟩) : fs'.file p = some ⟨bytes, bytes⟩ :=
  cut.synced there rfl

theorem Untouched.powerCut (legacy : IsLegacy b input init settings trees)
    (h : Untouched init input fs) (cut : fs.PowerCut fs') : Untouched init input fs' := by
  constructor
  · intro rest isCopied
    have same := h.source rest isCopied
    cases there : init.file (input ++ rest) with
    | none => exact cut.absent (same.trans there)
    | some f => exact cut.synced (same.trans there) (legacy.settled _ f there)
  · exact cut.absent h.directory
  · intro p below
    exact cut.absent (h.noArchive p below)
  · exact cut.absent h.noState

theorem Kept.powerCut (legacy : IsLegacy b input init settings trees)
    (h : Kept saved init input settings fs) (cut : fs.PowerCut fs') :
    Kept saved init input settings fs' := by
  refine ⟨h.untouched.powerCut legacy cut, ?_, ?_⟩
  · have now := h.settings
    unfold Settings at now ⊢
    rcases now with ⟨conf, ⟨backup, unsaved⟩ | backup⟩ | ⟨conf, backup⟩
    · exact .inl ⟨synced_file cut conf, .inl ⟨cut.absent backup, unsaved⟩⟩
    · exact .inl ⟨synced_file cut conf, .inr (synced_file cut backup)⟩
    · exact .inr ⟨synced_file cut conf, synced_file cut backup⟩
  · cases h.migrating with
    | inl absent => exact .inl (cut.absent absent)
    | inr there => exact .inr (synced_file cut there)

theorem Raw.powerCut (h : Raw input fs) (cut : fs.PowerCut fs') : Raw input fs' := by
  refine ⟨cut.absent h.committed, cut.absent h.active, fun there => ?_⟩
  apply synced_file cut
  apply h.tracked
  intro absent
  exact there (cut.absent absent)

theorem holds_powerCut {p : Path} {t : Database} (h : b.Holds fs p t) (cut : fs.PowerCut fs') :
    b.Holds fs' p t := by
  obtain ⟨bytes, there, tables⟩ := h
  exact ⟨bytes, synced_file cut there, tables⟩

theorem Staged.powerCut (h : Staged b input trees fs) (cut : fs.PowerCut fs') :
    Staged b input trees fs' :=
  ⟨synced_file cut h.committed, cut.absent h.active, holds_powerCut h.staging cut⟩

theorem Published.powerCut (h : Published input fs) (cut : fs.PowerCut fs') :
    Published input fs' := ⟨synced_file cut h.committed, cut.absent h.staging⟩

theorem Tracked.powerCut {d : MetadataDisk} {db : Option Path} {w : List (Database → Database)}
    {i : Bool} (legacy : IsLegacy b input init settings trees)
    (h : Tracked saved b init input settings trees ⟨d, db, w, i⟩) (cut : d.fs.PowerCut fs') :
    Tracked saved b init input settings trees ⟨{ d with fs := fs' }, none, w, i⟩ := by
  refine ⟨h.kept.powerCut legacy cut, ?_⟩
  rcases h.stage with ⟨-, writes, intact, stage⟩ | ⟨published, -, holds⟩
  · exact .inl ⟨rfl, writes, intact, stage.imp (·.powerCut cut) (·.powerCut cut)⟩
  · exact .inr ⟨published.powerCut cut, nofun, fun intact => holds_powerCut (holds intact) cut⟩

/-! ### Steps -/

/-- What is committed stays committed and makes no more imports; what is published stays so. -/
structure Advances (input : Path) (d d' : MetadataDisk) : Prop where
  committed : Committed input d.fs → Committed input d'.fs ∧ d'.imports = d.imports
  published : Published input d.fs → Published input d'.fs

theorem Advances.refl {d : MetadataDisk} : Advances input d d := ⟨fun h => ⟨h, rfl⟩, id⟩

theorem Advances.trans {d d' d'' : MetadataDisk} (h : Advances input d d')
    (h' : Advances input d' d'') : Advances input d d'' := by
  refine ⟨fun committed => ?_, fun published => h'.published (h.published published)⟩
  obtain ⟨committed', imports⟩ := h.committed committed
  obtain ⟨committed'', imports'⟩ := h'.committed committed'
  exact ⟨committed'', imports'.trans imports⟩

theorem Advances.powerCut {d : MetadataDisk} (cut : d.fs.PowerCut fs') :
    Advances input d { d with fs := fs' } :=
  ⟨fun h => ⟨synced_file cut h, rfl⟩, fun h => h.powerCut cut⟩

theorem Raw.not_committed {fs : Fs Path} (h : Raw input fs) : ¬ Committed input fs := by
  intro committed
  unfold Committed at committed
  rw [h.committed] at committed
  cases committed

theorem Staged.not_published (h : Staged b input trees fs) : ¬ Published input fs := by
  intro published
  obtain ⟨bytes, there, -⟩ := h.staging
  rw [published.staging] at there
  cases there

/-- The database that an attempt to open leaves open. -/
def openedBy : Except OosLiteError Path → Option Path
  | .ok p => some p
  | .error _ => none

theorem safe_open_tracked {d : MetadataDisk} {w : List (Database → Database)} {i : Bool}
    (legacy : IsLegacy b input init settings trees)
    (h : Tracked saved b init input settings trees ⟨d, none, w, i⟩) :
    Safe b.machine
      (fun r d' => Tracked saved b init input settings trees ⟨d', openedBy r, w, i⟩ ∧
        Advances input d d')
      (fun d' => Tracked saved b init input settings trees ⟨d', none, w, i⟩ ∧ Advances input d d')
      («open» input) d := by
  -- what an attempt makes of a directory that nothing was written to
  have attempted {d' : MetadataDisk} (unwritten : w = []) (intact : i = true)
      (h : Attempted saved b init input settings trees d'.fs) :
      Tracked saved b init input settings trees ⟨d', none, w, i⟩ := by
    refine ⟨h.1, ?_⟩
    rcases h.2 with raw | staged | ⟨published, holds⟩
    · exact .inl ⟨rfl, unwritten, intact, .inl raw⟩
    · exact .inl ⟨rfl, unwritten, intact, .inr staged⟩
    · refine .inr ⟨published, nofun, fun _ => ?_⟩
      rw [Life.expected, unwritten]
      exact holds
  have opened {d' : MetadataDisk} {r : Except OosLiteError Path} (unwritten : w = [])
      (intact : i = true) (h : Opened saved b init input settings trees r d') :
      Tracked saved b init input settings trees ⟨d', openedBy r, w, i⟩ := by
    cases r with
    | error e => exact attempted unwritten intact h.1
    | ok p =>
      obtain ⟨here, published, holds⟩ := h.2 p rfl
      refine ⟨h.1.1, .inr ⟨published, ?_, fun _ => ?_⟩⟩
      · rintro _ ⟨⟩
        exact here
      · rw [Life.expected, unwritten]
        exact holds
  rcases h.stage with ⟨-, unwritten, intact, raw | staged⟩ | ⟨published, -, holds⟩
  · have advances (d' : MetadataDisk) : Advances input d d' :=
      ⟨fun committed => (raw.not_committed committed).elim,
        fun published => (raw.not_committed published.committed).elim⟩
    apply (safe_open_raw legacy h.kept raw).mono
    · intro r d' h
      exact ⟨opened unwritten intact h, advances d'⟩
    · intro d' h
      exact ⟨attempted unwritten intact h, advances d'⟩
  · have advances {d' : MetadataDisk} (h : d'.imports = d.imports ∧ Committed input d'.fs) :
        Advances input d d' :=
      ⟨fun _ => ⟨h.2, h.1⟩, fun published => (staged.not_published published).elim⟩
    apply (safe_open_staged legacy h.kept staged).mono
    · intro r d' h
      exact ⟨opened unwritten intact h.2, advances h.1⟩
    · intro d' h
      exact ⟨attempted unwritten intact h.2, advances h.1⟩
  · have steady {d' : MetadataDisk} {db : Option Path}
        (h : Steady saved b init input settings d d')
        (here : ∀ p, db = some p → p = input ++ ["metadata.redb"]) :
        Tracked saved b init input settings trees ⟨d', db, w, i⟩ ∧ Advances input d d' :=
      ⟨⟨h.kept, .inr ⟨h.published, here, fun intact => h.holds _ (holds intact)⟩⟩,
        fun _ => ⟨h.published.committed, h.imports⟩, fun _ => h.published⟩
    apply (safe_open_published legacy h.kept published).mono
    · intro r d' h
      apply steady h.1
      intro p hp
      cases r with
      | error e => cases hp
      | ok p' =>
        cases hp
        exact (h.2 p rfl).1
    · intro d' h
      exact steady h nofun

theorem Tracked.step (legacy : IsLegacy b input init settings trees)
    (h : Tracked saved b init input settings trees s) (step : LifeStep b input s s') :
    Tracked saved b init input settings trees s' ∧ Advances input s.disk s'.disk := by
  cases step with
  | opened run => exact (safe_open_tracked legacy h).returns run
  | refused run => exact (safe_open_tracked legacy h).returns run
  | stopped run cut =>
    obtain ⟨tracked, advances⟩ := (safe_open_tracked legacy h).crashes run
    exact ⟨tracked.powerCut legacy cut, advances.trans (.powerCut cut)⟩
  | closed =>
    refine ⟨⟨h.kept, ?_⟩, .refl⟩
    rcases h.stage with ⟨-, rest⟩ | ⟨published, -, holds⟩
    · exact .inl ⟨rfl, rest⟩
    · exact .inr ⟨published, nofun, holds⟩
  | powerCut cut => exact ⟨h.powerCut legacy cut, .powerCut cut⟩
  | @wrote d p w i t fs write before after =>
    rcases h.stage with ⟨closed, -⟩ | ⟨published, here, holds⟩
    · cases closed
    have path : p = input ++ ["metadata.redb"] := here p rfl
    subst path
    have change : Changes ["metadata.redb"] input d.fs fs := changes_one after.sameBut (by decide)
    have published' : Published input fs := by
      refine ⟨published.committed.frame legacy.named change (by decide), ?_⟩
      rw [own_file legacy.named change (by decide) (by decide)]
      exact published.staging
    refine ⟨⟨h.kept.frame legacy.named (change.more (by decide)), .inr ⟨published', ?_, ?_⟩⟩,
      fun _ => ⟨published'.committed, rfl⟩, fun _ => published'⟩
    · rintro _ ⟨⟩
      rfl
    · intro intact
      have old := (holds intact).tablesAt
      rw [before, Option.some.injEq] at old
      have now := after.holds
      rw [old] at now
      rw [Life.expected, List.foldl_append]
      exact now
  | @damaged d w i file there =>
    rcases h.stage with ⟨-, -, -, raw | staged⟩ | ⟨published, -, -⟩
    · exact absurd raw.active there
    · exact absurd staged.active there
    have same : Fs.SameBut (· = input ++ ["metadata.redb"]) d.fs
        (overwrite d.fs (input ++ ["metadata.redb"]) file) := by
      cases file with
      | none => exact Fs.sameBut_drop rfl
      | some f => exact Fs.sameBut_put f rfl
    have change : Changes ["metadata.redb"] input d.fs
        (overwrite d.fs (input ++ ["metadata.redb"]) file) := changes_one same (by decide)
    have published' : Published input (overwrite d.fs (input ++ ["metadata.redb"]) file) := by
      refine ⟨published.committed.frame legacy.named change (by decide), ?_⟩
      rw [own_file legacy.named change (by decide) (by decide)]
      exact published.staging
    exact ⟨⟨h.kept.frame legacy.named (change.more (by decide)), .inr ⟨published', nofun, nofun⟩⟩,
      fun _ => ⟨published'.committed, rfl⟩, fun _ => published'⟩

theorem Tracked.run (legacy : IsLegacy b input init settings trees)
    (h : Tracked saved b init input settings trees s)
    (run : ReflTransGen (LifeStep b input) s s') :
    Tracked saved b init input settings trees s' ∧ Advances input s.disk s'.disk := by
  induction run with
  | refl => exact ⟨h, .refl⟩
  | tail _ step ih =>
    obtain ⟨tracked, advances⟩ := ih
    obtain ⟨tracked', advances'⟩ := tracked.step legacy step
    exact ⟨tracked', advances.trans advances'⟩

/-- A sled directory as it is found. -/
theorem tracked_start (legacy : IsLegacy b input init settings trees) :
    Tracked False b init input settings trees (.start init) := by
  have new (name : String) (own : name ∈ ["conf.sled-backup", "metadata.redb",
      "metadata.redb.staging", ".redb-active", ".redb-migrating"]) := legacy.new name own
  obtain ⟨f, there, same⟩ : ∃ f, init.file (input ++ ["conf"]) = some f ∧ f.data = settings := by
    have conf := legacy.conf
    rwa [Fs.data, Option.map_eq_some_iff] at conf
  have conf : init.file (input ++ ["conf"]) = some ⟨settings, settings⟩ := by
    have synced := legacy.settled _ f there
    rw [there]
    cases f
    simp only [File.Synced] at synced same
    rw [synced, same]
  refine ⟨⟨⟨fun _ _ => rfl, legacy.directory, legacy.noArchive, legacy.noState⟩, ?_, ?_⟩, ?_⟩
  · exact .inl ⟨conf, .inl ⟨new _ (by decide), id⟩⟩
  · exact .inl (new _ (by decide))
  · refine .inl ⟨rfl, rfl, rfl, .inl ⟨new _ (by decide), new _ (by decide), ?_⟩⟩
    intro there
    exact absurd (new _ (by decide)) there

theorem Tracked.backup (legacy : IsLegacy b input init settings trees)
    (h : Tracked saved b init input settings trees s) {bytes : Bytes}
    (there : s.disk.fs.data (input ++ ["conf.sled-backup"]) = some bytes) :
    s.disk.fs.file (input ++ ["conf.sled-backup"]) = some ⟨settings, settings⟩ ∧
      bytes = settings ∧ bytes ≠ blocker := by
  have now := h.kept.settings
  have kept : s.disk.fs.file (input ++ ["conf.sled-backup"]) = some ⟨settings, settings⟩ := by
    unfold Settings at now
    rcases now with ⟨-, ⟨absent, -⟩ | backup⟩ | ⟨-, backup⟩
    · rw [Fs.data, absent] at there
      cases there
    · exact backup
    · exact backup
  rw [Fs.data, kept] at there
  cases there
  exact ⟨kept, rfl, legacy.accessible⟩

/-- From a state in which the copy of the settings is there, it stays there. -/
theorem Tracked.withCopy (h : Tracked saved b init input settings trees s)
    (there : s.disk.fs.file (input ++ ["conf.sled-backup"]) = some ⟨settings, settings⟩) :
    Tracked True b init input settings trees s := by
  refine ⟨⟨h.kept.untouched, ?_, h.kept.migrating⟩, h.stage⟩
  rcases h.kept.settings with ⟨conf, -⟩ | blocked
  · exact .inl ⟨conf, .inr there⟩
  · exact .inr blocked

/-- Whatever happens to a sled directory, a store that is open has its trees and all that was
written since. Once the migration is committed the trees are not read again; a published database
that is missing or damaged is refused; and the copy of the settings, once made, stays what it is. -/
theorem migration_crash_safe (legacy : IsLegacy b input init settings trees)
    (run : ReflTransGen (LifeStep b input) (.start init) s) :
    (∀ p, s.db = some p → s.intact = true →
      b.tablesAt s.disk.fs p = some (s.expected trees)) ∧
    (∀ s', ReflTransGen (LifeStep b input) s s' →
      s.disk.fs.file (input ++ [".redb-active"]) ≠ none → s'.disk.imports = s.disk.imports) ∧
    (∀ s', ReflTransGen (LifeStep b input) s s' →
      s.disk.fs.file (input ++ ["metadata.redb"]) ≠ none →
      ¬ Usable b s'.disk.fs (input ++ ["metadata.redb"]) →
      ∀ r d, Returns b.machine («open» input) s'.disk r d → ∃ e, r = .error e) ∧
    ∀ s', ReflTransGen (LifeStep b input) s s' → ∀ bytes,
      s.disk.fs.data (input ++ ["conf.sled-backup"]) = some bytes →
      s'.disk.fs.data (input ++ ["conf.sled-backup"]) = some bytes ∧ bytes = settings ∧
        bytes ≠ blocker := by
  obtain ⟨tracked, -⟩ := (tracked_start legacy).run legacy run
  refine ⟨?_, ?_, ?_, ?_⟩
  · intro p isOpen intact
    rcases tracked.stage with ⟨closed, -⟩ | ⟨-, here, holds⟩
    · rw [closed] at isOpen
      cases isOpen
    · rw [here p isOpen]
      exact (holds intact).tablesAt
  · intro s' later marked
    apply ((tracked.run legacy later).2.committed _).2
    rcases tracked.stage with ⟨-, -, -, raw | staged⟩ | ⟨published, -⟩
    · exact absurd raw.committed marked
    · exact staged.committed
    · exact published.committed
  · intro s' later there damaged r d attempt
    have published : Published input s.disk.fs := by
      rcases tracked.stage with ⟨-, -, -, raw | staged⟩ | ⟨published, -⟩
      · exact absurd raw.active there
      · exact absurd staged.active there
      · exact published
    obtain ⟨tracked', advances⟩ := tracked.run legacy later
    have refused := (safe_open_published legacy tracked'.kept
      (advances.published published)).returns attempt
    cases r with
    | error e => exact ⟨e, rfl⟩
    | ok p => exact absurd (refused.2 p rfl).2 damaged
  · intro s' later bytes there
    obtain ⟨backup, same, notBlocker⟩ := tracked.backup legacy there
    obtain ⟨tracked', -⟩ := (tracked.withCopy backup).run legacy later
    refine ⟨?_, same, notBlocker⟩
    rw [same, Fs.data]
    rcases tracked'.kept.settings with ⟨-, ⟨-, unsaved⟩ | backup⟩ | ⟨-, backup⟩
    · exact absurd trivial unsaved
    · rw [backup]
      rfl
    · rw [backup]
      rfl

end Runs

/-! ## A directory -/

namespace LegacySample

def trees : SledDb := fun name =>
  if name = .nameIndex then (∅ : Table).insert [1] [2] else ∅

/-- Sled finds the trees in its two files. -/
def readSled (files : Path → Option Bytes) : Option SledDb :=
  if files ["conf"] = some [7] ∧ files ["db"] = some [8] then some trees else none

def backends : Backends := .formatted readSled

/-- A directory with settings and a database. -/
def disk : Fs Path :=
  (Fs.put ⟨∅, fun _ => 0⟩ ["metadata.db", "conf"] ⟨[7], [7]⟩).put ["metadata.db", "db"] ⟨[8], [8]⟩

theorem file_disk (p : Path) : disk.file p =
    if ["metadata.db", "db"] = p then some ⟨[8], [8]⟩
    else if ["metadata.db", "conf"] = p then some ⟨[7], [7]⟩ else none := by
  unfold disk
  rw [Fs.file_put, Fs.file_put]
  have empty : (⟨∅, fun _ => 0⟩ : Fs Path).file p = none := by simp [Fs.file]
  rw [empty]

theorem isLegacy : IsLegacy backends ["metadata.db"] disk [7] trees where
  named := by decide
  settled p f there := by
    rw [file_disk] at there
    split at there
    · cases there
      rfl
    · split at there
      · cases there
        rfl
      · cases there
  directory := by rw [file_disk]; rfl
  noArchive p below := by
    have notHere (name : String) : ["metadata.db", name] ≠ p := by
      rintro rfl
      obtain ⟨t, ht⟩ := below
      rw [show sibling ["metadata.db"] ".sled" = ["metadata.db.sled"] from rfl,
        List.singleton_append, List.cons.injEq] at ht
      exact absurd ht.1 (by decide)
    rw [file_disk, if_neg (notHere _), if_neg (notHere _)]
  noState := by rw [file_disk]; rfl
  conf := by rw [Fs.data, file_disk]; rfl
  accessible := by decide
  db := by rw [file_disk]; decide
  contents := by
    have conf : sledFiles disk ["metadata.db"] ["conf"] = some [7] := by
      rw [sledFiles, Fs.data, file_disk]
      rfl
    have db : sledFiles disk ["metadata.db"] ["db"] = some [8] := by
      rw [sledFiles, Fs.data, file_disk]
      rfl
    have found : readSled (sledFiles disk ["metadata.db"]) = some trees := by
      simp only [readSled, conf, db, and_self, if_true]
    exact found
  new name own := by
    simp only [List.mem_cons, List.not_mem_nil, or_false] at own
    rw [file_disk]
    rcases own with rfl | rfl | rfl | rfl | rfl <;> rfl

/-- The database when it is published. -/
def active : Path := ["metadata.db", "metadata.redb"]

/-- What an attempt to open the directory leaves that stops in the first renaming to this name. -/
def stopping (name : String) (d : MetadataDisk) : Option MetadataDisk :=
  halt readSled (fun o => match o with
    | .rename _ target => target = ["metadata.db", name]
    | _ => false) («open» ["metadata.db"]) d

def stoppedAt (name : String) (d : MetadataDisk) : MetadataDisk :=
  ((stopping name d).map fun d => { d with fs := d.fs.visible }).getD d

/-- An attempt in which nothing fails. -/
def opening (d : MetadataDisk) : Except OosLiteError Path × MetadataDisk :=
  exec readSled («open» ["metadata.db"]) d

/-- What is written to the database. -/
def revise (tables : Database) : Database := fun name =>
  if name = .objectIndex then (tables name).map fun table => table.insert [3] [4] else tables name

/-- The migration is stopped before it is committed, and again before the database is published; then
the directory is opened. -/
def stoppedFirst : MetadataDisk := stoppedAt ".redb-active" ⟨disk, 0⟩

def stoppedAgain : MetadataDisk := stoppedAt "metadata.redb" stoppedFirst

def finished : MetadataDisk := (opening stoppedAgain).2

/-- The database is written to, and the directory is closed and opened again. -/
def revised : MetadataDisk := (rewrite readSled finished active revise).2

def readAgain : MetadataDisk := (opening revised).2

def reopened : Life := ⟨readAgain, some active, [revise], true⟩

/-- The published database is lost. -/
def losing (d : MetadataDisk) : MetadataDisk := { d with fs := overwrite d.fs active none }

def lost : Life := ⟨losing readAgain, none, [revise], false⟩

section Steps

variable {d : MetadataDisk} {w : List (Database → Database)} {i : Bool}

theorem stops {name : String} (there : (stopping name d).isSome) :
    LifeStep backends ["metadata.db"] ⟨d, none, w, i⟩ ⟨stoppedAt name d, none, w, i⟩ := by
  obtain ⟨d', found⟩ := Option.isSome_iff_exists.1 there
  unfold stoppedAt
  rw [found]
  exact .stopped (crashes_halt readSled found) d'.fs.powerCut_visible

theorem opens {p : Path} (done : (opening d).1 = .ok p) :
    LifeStep backends ["metadata.db"] ⟨d, none, w, i⟩ ⟨(opening d).2, some p, w, i⟩ := by
  apply LifeStep.opened
  rw [← done]
  exact returns_exec readSled _ d

theorem writes {p : Path} (there : (backends.tablesAt d.fs p).isSome) (write : Database → Database) :
    LifeStep backends ["metadata.db"] ⟨d, some p, w, i⟩
      ⟨(rewrite readSled d p write).2, some p, w ++ [write], i⟩ := by
  obtain ⟨t, found⟩ := Option.isSome_iff_exists.1 there
  have now : (rewrite readSled d p write).2 = store d p (write t) := by
    unfold rewrite
    rw [show (Backends.formatted readSled).tablesAt d.fs p = some t from found]
  rw [now]
  exact .wrote write found (rewritten readSled p (write t) d.fs)

theorem loses (there : d.fs.file active ≠ none) :
    LifeStep backends ["metadata.db"] ⟨d, none, w, i⟩ ⟨losing d, none, w, false⟩ :=
  .damaged none there

end Steps

theorem run_reopened : ReflTransGen (LifeStep backends ["metadata.db"]) (.start disk) reopened := by
  have computed : (stopping ".redb-active" ⟨disk, 0⟩).isSome = true ∧
      (stopping "metadata.redb" stoppedFirst).isSome = true ∧
      (opening stoppedAgain).1 = .ok active ∧
      (backends.tablesAt finished.fs active).isSome = true ∧
      (opening revised).1 = .ok active := by
    decide +kernel
  obtain ⟨first, again, opened, readable, openedAgain⟩ := computed
  have built : ReflTransGen (LifeStep backends ["metadata.db"]) (.start disk)
      ⟨stoppedAgain, none, [], true⟩ := (ReflTransGen.single (stops first)).tail (stops again)
  have written : ReflTransGen (LifeStep backends ["metadata.db"]) (.start disk)
      ⟨revised, some active, [revise], true⟩ :=
    (built.tail (opens opened)).tail (writes readable revise)
  have closed : LifeStep backends ["metadata.db"] ⟨revised, some active, [revise], true⟩
      ⟨revised, none, [revise], true⟩ := .closed
  exact (written.tail closed).tail (opens openedAgain)

theorem run_lost : ReflTransGen (LifeStep backends ["metadata.db"]) reopened lost := by
  have there : readAgain.fs.file active ≠ none := by decide +kernel
  have closed : LifeStep backends ["metadata.db"] ⟨readAgain, some active, [revise], true⟩
      ⟨readAgain, none, [revise], true⟩ := .closed
  exact (ReflTransGen.single closed).tail (loses there)

end LegacySample

open LegacySample in
/-- A directory whose migration was stopped twice, finished, written to and opened again: it has the
trees and what was written, no import is made any more, its settings are kept, and when the database
is lost no opening succeeds. -/
theorem migration_crash_safe_reopened :
    ReflTransGen (LifeStep backends ["metadata.db"]) (.start disk) reopened ∧
    backends.tablesAt reopened.disk.fs active = some (revise (migrated trees)) ∧
    reopened.disk.imports = 2 ∧ lost.disk.imports = 2 ∧
    lost.disk.fs.data ["metadata.db", "conf.sled-backup"] = some [7] ∧
    ∀ r d, Returns backends.machine («open» ["metadata.db"]) lost.disk r d → ∃ e, r = .error e := by
  obtain ⟨tables, imports, refuses, copy⟩ := migration_crash_safe isLegacy run_reopened
  have computed : reopened.disk.imports = 2 ∧
      reopened.disk.fs.file ["metadata.db", ".redb-active"] ≠ none ∧
      reopened.disk.fs.file active ≠ none ∧
      reopened.disk.fs.data ["metadata.db", "conf.sled-backup"] = some [7] ∧
      lost.disk.fs.data active = none := by
    decide +kernel
  obtain ⟨twice, committed, published, saved, gone⟩ := computed
  have unusable : ¬ Usable backends lost.disk.fs active := by
    rintro ⟨t, there, -⟩
    rw [Backends.tablesAt, gone] at there
    cases there
  exact ⟨run_reopened, tables active rfl rfl, twice, (imports lost run_lost committed).trans twice,
    (copy lost run_lost [7] saved).1, refuses lost run_lost published unusable⟩

end OosLite.Migration
