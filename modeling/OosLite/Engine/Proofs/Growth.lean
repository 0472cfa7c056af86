import OosLite.Engine.Proofs.Lengths

/-!
# What calls add

Every call but a collection leaves an engine with at least the manifests and chunks it found.
-/

namespace OosLite

open Files Effect Relation StorageEngine

variable {env : Env} {files : Set Bytes} {f : Faults} {s t : StorageEngine} {V : Known}

/-- An engine of known chunks that has what another one has. -/
structure Enlarged (env : Env) (V : Known) (s t : StorageEngine) : Prop where
  made : Makes env V t.segmentStore
  indexed : ∀ c, Indexed s.segmentStore c → Indexed t.segmentStore c
  manifests : ∀ id : String,
    (s.metadataStore.manifests[id]?).isSome → (t.metadataStore.manifests[id]?).isSome

namespace Enlarged

theorem refl (made : Makes env V s.segmentStore) : Enlarged env V s s :=
  ⟨made, fun _ there => there, fun _ there => there⟩

theorem edited {call : EngineCall} (only : call.OnlyEdits) (made : Makes env V s.segmentStore)
    (h : s.Edited (call.Edits env) t) : Enlarged env V s t := by
  obtain ⟨m, rfl, edits⟩ := h
  refine ⟨made, fun _ there => there, fun id there => ?_⟩
  have same : m.manifests = s.metadataStore.manifests := by
    induction edits with
    | refl => rfl
    | tail _ edit ih => rw [edit.manifests only, ih]
  show (m.manifests[id]?).isSome
  rw [same]
  exact there

theorem update {g : MetadataStore → MetadataStore}
    (grows : ∀ m, ∀ id : String, (m.manifests[id]?).isSome → ((g m).manifests[id]?).isSome) :
    Upholds (engineMachine f) (Enlarged env V s) (fun _ => True) (StorageEngine.update g) :=
  fun _ ht => safe_update trivial trivial
    ⟨ht.made, ht.indexed, fun id there => grows _ id (ht.manifests id there)⟩ fun _ => ht

theorem segments {α : Type} {p : SegProg α} {C : SegState → Prop}
    (h : ∀ g, Makes env V g → Safe (segMachine f.segment)
      (fun _ g' => Makes env V g' ∧ ∀ c, Indexed g c → Indexed g' c) C p g) :
    Upholds (engineMachine f) (Enlarged env V s) (fun _ => True) (StorageEngine.segments p) := by
  intro t ht
  apply safe_segments
  apply (h t.segmentStore ht.made).mono ?_ fun _ _ => trivial
  rintro r g ⟨made, grown⟩
  exact ⟨made, fun c there => grown c (ht.indexed c there), ht.manifests⟩

theorem putSteps (only : f.OnlyMetadata) :
    PutSteps env f (Enlarged env V s) (fun _ => True) (KnownChunk env V) where
  query q _ ht := safe_query ht fun _ => ht
  now _ ht := safe_now fun _ => ht
  log p t ht := by
    apply safe_log
    exact (safe_trivial p t.wal).mono
      (fun _ _ _ => ⟨ht.made, ht.indexed, ht.manifests⟩) fun _ _ => trivial
  saveManifest manifest := update fun m id there => by
    simp only [MetadataStore.saveManifest, Std.ExtTreeMap.getElem?_insert]
    split
    · rfl
    · exact there
  putObject _ := update fun _ _ there => there
  bindName _ _ := update fun _ _ there => there
  putChunk _ known := segments fun _ hg => hg.putChunk only.tidy known.1 known.2
  sync := segments fun _ hg => hg.sync only.tidy

-- otherwise the elaborator runs the program as far as it can
attribute [local irreducible] StorageEngine.putFileNamed

/-- Whatever a call returns. -/
theorem run (only : f.OnlyMetadata) (made : Makes env (piecesOf env files) s.segmentStore)
    {call : EngineCall} (known : call.files ⊆ files) (stays : call ≠ .gc) :
    Safe (engineMachine f) (fun _ t => Enlarged env (piecesOf env files) s t) (fun _ => True)
      (call.run env) s := by
  rcases call.onlyEdits_or with edits | ⟨name, file, generated, rfl⟩ | rfl
  · exact (safe_call edits).mono (fun _ _ edited => .edited edits made edited) fun _ _ => trivial
  · have puts : Upholds (engineMachine f) (Enlarged env (piecesOf env files) s) (fun _ => True)
        (putFileNamed env name file generated) :=
      (putSteps only).putFileNamed name
        (fun i _ hd => knownChunk_of_mem (known ⟨i, rfl⟩) (Reading.mem_chunksOf hd)) generated
    show Safe _ _ _ (putFileNamed env name file generated >>= fun _ => pure ()) s
    exact (Upholds.bind puts fun _ => Upholds.pure _) s (.refl made)
  · exact absurd rfl stays

end Enlarged

end OosLite
