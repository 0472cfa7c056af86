import OosLite.Engine.Execution
import OosLite.Engine.Proofs.DurableRuns

/-!
# What reading gives

In every run in which nothing fails but transactions, every version that a record lists is extracted
to the content that its manifest was made of.
-/

namespace OosLite

open Files Effect Relation StorageEngine

/-- The files that were stored, and their chunks. -/
def dataOf (env : Env) (files : Set Bytes) : Set Bytes :=
  files ∪ {d | ∃ content ∈ files, d ∈ chunksOf env content}

/-- What is on the medium under an identifier: the content with this digest. -/
def ContentOf (env : Env) (files : Set Bytes) (manifestId : String) (content : Bytes) : Prop :=
  content ∈ files ∧ Text.hex (env.blake3 content).bytes = manifestId

section Reads

variable {env : Env} {files : Set Bytes} {f : Faults} {m : MetadataStore} {H K : Set ChunkId}
  {s : StorageEngine}

/-! ## Extraction -/

section Extraction

variable (distinct : NoCollision env (dataOf env files))

include distinct

/-- Of a file whose chunks are there, the content is written. -/
theorem Upheld.extract (only : f.OnlyMetadata) (h : Upheld env files m H K s) {content : Bytes}
    (stored : content ∈ files) {createdAt : UInt64}
    (there : ∀ c ∈ (manifestOf env content createdAt).chunks, c ∈ H) (C : StorageEngine → Prop) :
    Safe (engineMachine f) (fun r t => t = s ∧ r = .ok content) C
      (extractManifestToFile env (manifestOf env content createdAt)) s := by
  unfold extractManifestToFile
  rw [safe_bind]
  apply safe_forEach fun before _ written t => t = s ∧
    written = ((chunksOf env content).take before.length).flatten
  · exact ⟨rfl, rfl⟩
  · intro before c rest written t split ⟨same, sofar⟩
    subst same
    have listed : c ∈ (manifestOf env content createdAt).chunks := by
      rw [← split]
      exact List.mem_append_right _ List.mem_cons_self
    obtain ⟨d, ⟨⟨content', stored', piece⟩, own⟩, reads⟩ :=
      h.holds.getChunk only.tidy (there c listed)
    -- without collisions it is the chunk at this place
    have next : (chunksOf env content)[before.length]? = some d := by
      have at' : ((chunksOf env content).map (ChunkId.fromData env))[before.length]? = some c := by
        have chunks : (chunksOf env content).map (ChunkId.fromData env) = before ++ c :: rest :=
          split.symm
        rw [chunks, List.getElem?_append_right (Nat.le_refl _), Nat.sub_self]
        rfl
      rw [List.getElem?_map] at at'
      obtain ⟨d', there', own'⟩ := Option.map_eq_some_iff.1 at'
      have mine : d' ∈ dataOf env files := .inr ⟨content, stored, List.mem_of_getElem? there'⟩
      have theirs : d ∈ dataOf env files := .inr ⟨content', stored', piece⟩
      rw [there', distinct mine theirs (own'.trans own.symm)]
    rw [safe_bind]
    apply StorageEngine.safe_segments
    apply (reads _).mono ?_ fun _ crash => crash
    intro r g ⟨same, ok⟩
    subst same
    rw [ok, thenSafe_ok, safe_pure]
    refine ⟨rfl, ?_⟩
    rw [List.length_append, List.length_singleton, List.take_add_one, next, List.flatten_append, sofar]
    simp
  · intro written t ⟨same, whole⟩
    have all : written = content := by
      have length : (manifestOf env content createdAt).chunks.length =
          (chunksOf env content).length := by
        simp [manifestOf]
      rw [whole, length, List.take_length, flatten_chunksOf]
    have hash : env.blake3 written = (manifestOf env content createdAt).contentHash := by
      rw [all]
      rfl
    rw [thenSafe_ok, if_neg (not_not_intro hash)]
    exact ⟨same, by rw [all]⟩

end Extraction

/-! ## Tables -/

namespace MetadataStore

theorem original_of_lawful {m : MetadataStore}
    (changes : ReflTransGen (Lawful env files) .empty m) : m.Original env files := by
  induction changes with
  | refl =>
    intro id value there
    simp [MetadataStore.empty] at there
  | tail _ step ih => exact ih.lawful step

theorem rooted_of_lawful {m : MetadataStore}
    (changes : ReflTransGen (Lawful env files) .empty m) : m.Rooted := by
  induction changes with
  | refl =>
    intro id ⟨oid, record, found, _⟩
    simp [getObject, MetadataStore.empty] at found
  | tail _ step ih => exact ih.lawful step

theorem legible_of_lawful {m : MetadataStore}
    (changes : ReflTransGen (Lawful env files) .empty m) : m.Legible := by
  induction changes with
  | refl =>
    intro id value there
    simp [MetadataStore.empty] at there
  | tail _ step ih => exact ih.transaction step.transaction

end MetadataStore

/-- A manifest of the table is read, and extracted to its content. -/
theorem Upheld.extract_manifest (only : f.OnlyMetadata) (h : Upheld env files .empty H K s)
    (distinct : NoCollision env (dataOf env files)) {id : String}
    (there : (s.metadataStore.manifests[id]?).isSome) :
    ∃ manifest content, s.metadataStore.getManifest env id = .ok (some manifest) ∧
      ContentOf env files id content ∧ ∀ C, Safe (engineMachine f)
        (fun r t => t = s ∧ r = .ok content) C (extractManifestToFile env manifest) s := by
  obtain ⟨manifest, ⟨⟨content, stored, createdAt, same⟩, _⟩, own, found⟩ :=
    (MetadataStore.original_of_lawful h.changes).getManifest there
  subst same
  have held (c : ChunkId) (hc : c ∈ (manifestOf env content createdAt).chunks) : c ∈ H :=
    h.holds.le (h.needed ⟨id, _, found, hc⟩)
  exact ⟨_, content, found, ⟨stored, own⟩, h.extract distinct only stored held⟩

end Reads

/-! ## Runs in which only transactions may fail -/

/-- Nothing fails in a step but transactions. -/
def OnlyTransactionsFail (_ : EngineRun) (act : EngineAct) : Prop := act.faults.OnlyMetadata

namespace EngineSample

theorem onlyMetadata : (Faults.all false).OnlyMetadata := ⟨fun _ h => (nomatch h), fun _ h => (nomatch h)⟩

/-- A run to this state, in which no other contents were read. -/
def Reached (contents : List Bytes) (s : StorageEngine) : Prop :=
  ∃ g : EngineHistory, EngineReachable env OnlyTransactionsFail ⟨.running s, g⟩ ∧
    ∀ content ∈ g.files, content ∈ contents

theorem reached_opened (contents : List Bytes) : Reached contents opened := by
  have returned := returns_exec false answers (openInternal env) [] unopened
  have ok : (exec false answers (openInternal env) [] unopened).1 = .ok () := by decide +kernel
  rw [ok] at returned
  have step : EngineReachable env OnlyTransactionsFail _ :=
    EngineReachable.start.step (.mk (.opened ⟨rfl, rfl, rfl⟩ returned)) onlyMetadata
  exact ⟨_, step, by simp [EngineHistory.next, EngineAct.call?]⟩

theorem Reached.after {contents : List Bytes} {s : StorageEngine} (h : Reached contents s)
    (call : EngineCall) (known : ∀ content ∈ call.files, content ∈ contents) :
    Reached contents (after s call) := by
  obtain ⟨g, reachable, within⟩ := h
  have returned := returns_exec false answers (call.run env) [] s
  have step : EngineReachable env OnlyTransactionsFail _ :=
    reachable.step (.mk (.returned returned)) onlyMetadata
  exact ⟨_, step, fun content there => there.elim (within content) (known content)⟩

/-- Of a file that can be read one content is read. -/
theorem mem_files_put {content : Bytes} {name : String} {generated : ObjectId} {d : Bytes}
    (there : d ∈ (EngineCall.put name (file content) generated).files) : d = content := by
  obtain ⟨_, same⟩ := there
  exact same.symm

theorem reached_reported : Reached [[7, 8], [9]] reported := by
  apply ((reached_opened _).after reporting ?_).after revising
  · intro d there
    simp [mem_files_put there]
  · intro d there
    simp [mem_files_put there]

/-- The contents and their chunks have digests of their own. -/
theorem noCollision (contents : List Bytes) {files : Set Bytes}
    (within : ∀ content ∈ files, content ∈ contents)
    (apart : let data := contents ++ contents.flatMap (chunksOf env)
      ∀ d ∈ data, ∀ d' ∈ data, env.blake3 d = env.blake3 d' → d = d') :
    NoCollision env (dataOf env files) := by
  have known (d : Bytes) (there : d ∈ dataOf env files) :
      d ∈ contents ++ contents.flatMap (chunksOf env) := by
    rcases there with there | ⟨content, stored, piece⟩
    · exact List.mem_append_left _ (within d there)
    · exact List.mem_append_right _ (List.mem_flatMap.2 ⟨content, within content stored, piece⟩)
  exact fun d there d' there' => apart d (known d there) d' (known d' there')

end EngineSample

end OosLite
