import OosLite.Engine.Proofs.Originals
import OosLite.Segment.Proofs.Reopen
import OosLite.Wal.Proofs.Records

/-!
# What a store keeps

While no operation on the files fails, every chunk that a manifest of the table names is on the
medium, and what the log holds are puts of files that were stored: in a running engine, and in what
a crash at any point leaves. Transactions may fail.
-/

namespace OosLite

open Files Effect Relation

/-- Nothing fails but transactions. -/
structure Faults.OnlyMetadata (f : Faults) : Prop where
  segment : ∀ o, ¬ f.segment o
  wal : ∀ o, ¬ f.wal o

/-! ## States -/

section States

variable (env : Env) (files : Set Bytes)

/-- A chunk of one of these files, under its identifier. -/
def piecesOf : Known := fun c d =>
  (∃ content ∈ files, d ∈ chunksOf env content) ∧ ChunkId.fromData env d = c

/-- A record of the log that stores one of these files. -/
def StoresFile (r : WalRecord) : Prop :=
  ∃ put, r.payload = .putObject put ∧ put.chunks = [] ∧ ManifestOf env files put.manifest

/-- An engine with the chunks `H`, of which `K` are on the medium, and with tables that come from
others by transactions where they belong. -/
structure Upheld (m : MetadataStore) (H K : Set ChunkId) (s : StorageEngine) : Prop where
  clean : Clean s.segmentStore.fs
  holds : Holds env (piecesOf env files) s.segmentStore H K
  needed : s.metadataStore.needed env ⊆ K
  log : Wal.Intact env (StoresFile env files) s.wal.fs
  changes : ReflTransGen (MetadataStore.Lawful env files) m s.metadataStore

/-- A running engine between two calls. -/
def Serving (m : MetadataStore) (s : StorageEngine) : Prop :=
  (∃ H K, Upheld env files m H K s) ∧ ∃ frames, Wal.Lists env (StoresFile env files) frames s.wal

/-- What a stopped process leaves: a directory of segments that will not open any more, or one that
recovers with all that the manifests need. -/
structure Remains (m : MetadataStore) (d : Disk) : Prop where
  segments : (∃ p f, Stuck p f d.segments) ∨ Forward d.segments ∧
    Recoverable d.segments (Keeps (piecesOf env files) (d.tables.needed env) : Layout env → Prop)
  log : Wal.Intact env (StoresFile env files) d.wal
  changes : ReflTransGen (MetadataStore.Lawful env files) m d.tables

/-- Whatever a power cut leaves now is fine. -/
def Spares (m : MetadataStore) (s : StorageEngine) : Prop :=
  ∀ d, s.disk.PowerCut d → Remains env files m d

variable {env files} {m m' : MetadataStore} {H K : Set ChunkId} {s : StorageEngine}

theorem piecesOf_mono {files' : Set Bytes} (sub : files ⊆ files') (c : ChunkId) (d : Bytes)
    (h : piecesOf env files c d) : piecesOf env files' c d := by
  obtain ⟨⟨content, stored, there⟩, same⟩ := h
  exact ⟨⟨content, sub stored, there⟩, same⟩

theorem fits_piecesOf {c : ChunkId} {d : Bytes} (h : piecesOf env files c d) : Fits env d := by
  obtain ⟨⟨content, -, there⟩, -⟩ := h
  exact fits_chunksOf there

theorem StoresFile.mono {r : WalRecord} {files' : Set Bytes} (sub : files ⊆ files')
    (h : StoresFile env files r) : StoresFile env files' r := by
  obtain ⟨put, payload, none, original⟩ := h
  exact ⟨put, payload, none, original.mono sub⟩

theorem Keeps.known {V W : Known} {K : Set ChunkId} {L : Layout env} (h : Keeps V K L)
    (le : ∀ c d, V c d → W c d) : Keeps W K L :=
  ⟨fun r hr => (h.sound r hr).mono (le _), h.has⟩

theorem lawful_mono {files' : Set Bytes} (sub : files ⊆ files')
    (h : ReflTransGen (MetadataStore.Lawful env files) m m') :
    ReflTransGen (MetadataStore.Lawful env files') m m' :=
  ReflTransGen.mono (fun _ _ step => step.mono sub) _ _ h

/-! ### What states give -/

namespace Upheld

theorem mono (h : Upheld env files m H K s) {files' : Set Bytes} (sub : files ⊆ files') :
    Upheld env files' m H K s where
  clean := h.clean
  holds := h.holds.known fun c _ d => piecesOf_mono sub c d
  needed := h.needed
  log := h.log.mono fun _ => StoresFile.mono sub
  changes := lawful_mono sub h.changes

/-- The segments, with what the manifests need. -/
theorem recoverable (h : Upheld env files m H K s) : Recoverable s.segmentStore.fs
    (Keeps (piecesOf env files) (s.metadataStore.needed env) : Layout env → Prop) :=
  (h.holds.mono h.needed).recoverable h.clean.quiet

/-- An engine that is closed. -/
theorem remains (h : Upheld env files m H K s) : Remains env files m s.disk where
  segments := .inr ⟨h.holds.forward, h.recoverable⟩
  log := h.log
  changes := h.changes

theorem spares (h : Upheld env files m H K s) : Spares env files m s := by
  intro d cut
  obtain ⟨segments, wal, tables⟩ := cut
  have tables : d.tables = s.metadataStore := tables
  constructor
  · right
    rw [tables]
    exact ⟨.powerCut segments, h.recoverable.powerCut segments⟩
  · exact h.log.powerCut wal
  · rw [tables]
    exact h.changes

/-- The segment store has done something. -/
theorem withSegments (h : Upheld env files m H K s) {g : SegState} {H' K' : Set ChunkId}
    (clean : Clean g.fs) (holds : Holds env (piecesOf env files) g H' K')
    (needed : s.metadataStore.needed env ⊆ K') : Upheld env files m H' K' (s.withSegments g) :=
  ⟨clean, holds, needed, h.log, h.changes⟩

/-- The log has done something. -/
theorem withWal (h : Upheld env files m H K s) {w : WalState}
    (log : Wal.Intact env (StoresFile env files) w.fs) : Upheld env files m H K (s.withWal w) :=
  ⟨h.clean, h.holds, h.needed, log, h.changes⟩

/-- One transaction. -/
theorem withTables (h : Upheld env files m H K s)
    (step : MetadataStore.Lawful env files s.metadataStore m') (needed : m'.needed env ⊆ K) :
    Upheld env files m H K (s.withTables m') :=
  ⟨h.clean, h.holds, needed, h.log, h.changes.tail step⟩

end Upheld

theorem Serving.mono (h : Serving env files m s) {files' : Set Bytes} (sub : files ⊆ files') :
    Serving env files' m s := by
  obtain ⟨⟨H, K, kept⟩, frames, lists⟩ := h
  exact ⟨⟨H, K, kept.mono sub⟩, frames, lists.mono fun _ => StoresFile.mono sub⟩

namespace Remains

variable {d d' : Disk}

theorem mono (h : Remains env files m d) {files' : Set Bytes} (sub : files ⊆ files') :
    Remains env files' m d where
  segments := h.segments.imp_right fun ⟨forward, recoverable⟩ =>
    ⟨forward, recoverable.mono fun _ keeps => keeps.known (piecesOf_mono sub)⟩
  log := h.log.mono fun _ => StoresFile.mono sub
  changes := lawful_mono sub h.changes

theorem powerCut (h : Remains env files m d) (cut : d.PowerCut d') : Remains env files m d' := by
  obtain ⟨segments, wal, tables⟩ := cut
  constructor
  · rw [tables]
    rcases h.segments with ⟨p, f, stuck⟩ | ⟨-, recoverable⟩
    · obtain ⟨g, stuck'⟩ := stuck.powerCut segments
      exact .inl ⟨p, g, stuck'⟩
    · exact .inr ⟨.powerCut segments, recoverable.powerCut segments⟩
  · exact h.log.powerCut wal
  · rw [tables]
    exact h.changes

end Remains

/-! ### The parts -/

section Rules

variable {f : Faults} {α : Type} {Q : Result α → StorageEngine → Prop}

/-- A program of the segment store. -/
theorem Upheld.safe_segments (h : Upheld env files m H K s) {p : SegProg α}
    {P : Result α → SegState → Prop} {K' : Set ChunkId}
    (sub : s.metadataStore.needed env ⊆ K')
    (safe : Safe (segMachine f.segment) P
      (CrashSafe (Keeps (piecesOf env files) K' : Layout env → Prop)) p s.segmentStore)
    (post : ∀ r g, P r g → Q r (s.withSegments g)) :
    Safe (engineMachine f) Q (Spares env files m) (StorageEngine.segments p) s := by
  apply StorageEngine.safe_segments
  apply safe.mono post
  intro g crash d cut
  obtain ⟨segments, wal, tables⟩ := cut
  have tables : d.tables = s.metadataStore := tables
  constructor
  · right
    rw [tables]
    refine ⟨.powerCut segments, (crash _ segments).mono fun _ keeps => keeps.mono sub⟩
  · exact h.log.powerCut wal
  · rw [tables]
    exact h.changes

/-- A program of the log. -/
theorem Upheld.safe_log (h : Upheld env files m H K s) {p : WalProg α}
    {P : Result α → WalState → Prop}
    (safe : Safe (walMachine f.wal) P (fun w => Wal.Intact env (StoresFile env files) w.fs) p s.wal)
    (post : ∀ r w, P r w → Q r (s.withWal w)) :
    Safe (engineMachine f) Q (Spares env files m) (StorageEngine.log p) s := by
  apply StorageEngine.safe_log
  apply safe.mono post
  intro w intact
  exact (h.withWal intact).spares

/-- One transaction: it is committed, or the engine is as it was. -/
theorem Upheld.safe_update (h : Upheld env files m H K s) {g : MetadataStore → MetadataStore}
    (step : MetadataStore.Lawful env files s.metadataStore (g s.metadataStore))
    (needed : (g s.metadataStore).needed env ⊆ K) :
    Safe (engineMachine f)
      (fun r t => Upheld env files m H K t ∧
        (r = .ok () ∧ t = s.withTables (g s.metadataStore) ∨ (∃ e, r = .error e) ∧ t = s))
      (Spares env files m) (StorageEngine.update g) s := by
  have next := h.withTables step needed
  exact StorageEngine.safe_update h.spares next.spares ⟨next, .inl ⟨rfl, rfl⟩⟩
    fun _ => ⟨h, .inr ⟨⟨_, rfl⟩, rfl⟩⟩

end Rules

end States

end OosLite
