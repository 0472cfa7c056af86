import OosLite.Engine.Proofs.Durable

/-!
# What each call keeps

Putting, garbage collection and recovery, with what they do to the tables.
-/

namespace OosLite

open Files Effect Relation StorageEngine

variable {env : Env} {files : Set Bytes} {f : Faults} {m m' : MetadataStore} {H K : Set ChunkId}
  {s : StorageEngine}

theorem Faults.OnlyMetadata.tidy (only : f.OnlyMetadata) (o : FsOp SegPath) (fails : f.segment o) :
    Cleanup o := absurd fails (only.segment o)

/-! ## Tables -/

namespace MetadataStore

/-- Once a version was added, its object has a record. -/
theorem getObject_putVersion {put : WalPutPayload} (added : m.putVersion put = .ok m') :
    ∃ record, m'.getObject put.objectId = .ok (some record) := by
  unfold putVersion at added
  obtain ⟨found, known, added⟩ := Result.bind_eq_ok.1 added
  cases found with
  | some record =>
    simp only [Option.getD_some] at added
    by_cases listed : (record.versions.any fun v => v.version = put.version) = true
    · rw [if_pos listed] at added
      cases added
      exact ⟨record, known⟩
    · rw [if_neg listed] at added
      cases added
      rw [getObject_putObject (fun v there => ?_)]
      · split
        · exact ⟨_, rfl⟩
        · exact ⟨record, known⟩
      · rcases List.mem_append.1 there with there | last
        · exact idsFit_of_getObject known v there
        · rw [List.mem_singleton.1 last]
          simp
  | none =>
    simp only [Option.getD_none, List.any_nil, Bool.false_eq_true, if_false] at added
    cases added
    rw [getObject_putObject (fun v last => ?_), if_pos rfl]
    · exact ⟨_, rfl⟩
    · rw [List.nil_append] at last
      rw [List.mem_singleton.1 last]
      simp

end MetadataStore

variable (env) in
/-- What a put that returned has done to the tables. -/
def PutDid (m : MetadataStore) (name : String) (content : Bytes) (generated : ObjectId)
    (summary : PutSummary) (m' : MetadataStore) : Prop :=
  ∃ createdAt, m.putTarget name generated = .ok (summary.objectId, summary.version) ∧
    summary.manifestId = (manifestOf env content createdAt).contentId ∧
    m.applyPut env
      { name, objectId := summary.objectId, version := summary.version
        manifest := manifestOf env content createdAt, chunks := [] } none = (.ok (), m')

/-! ## Putting -/

namespace Upheld

theorem putChunks (only : f.OnlyMetadata) (h : Upheld env files m H K s) {chunks : List Bytes}
    (known : ∀ d ∈ chunks, ∃ content ∈ files, d ∈ chunksOf env content) :
    Safe (engineMachine f)
      (fun r t => (∃ n, r = .ok n) ∧ ∃ g H', t = s.withSegments g ∧
        (∀ d ∈ chunks, ChunkId.fromData env d ∈ H') ∧ Upheld env files m H' K t)
      (Spares env files m) (putChunks env chunks) s := by
  apply safe_forEach fun before _ _ t => ∃ g H', t = s.withSegments g ∧
    (∀ d ∈ before, ChunkId.fromData env d ∈ H') ∧ Upheld env files m H' K t
  · exact ⟨s.segmentStore, H, rfl, fun _ none => absurd none List.not_mem_nil, h⟩
  · intro before d rest n t split ⟨g, H', same, stored, kept⟩
    obtain ⟨content, hcontent, there⟩ := known d (by rw [← split]; simp)
    have puts := kept.holds.putChunk only.tidy kept.clean.quiet (fits_chunksOf there)
      ⟨⟨content, hcontent, there⟩, rfl⟩
    rw [safe_bind]
    apply kept.safe_segments kept.needed puts
    intro r g' ⟨new, ok, _, holds, old⟩
    rw [ok, thenSafe_ok, safe_pure]
    refine ⟨g', _, by rw [same]; rfl, ?_, kept.withSegments (kept.clean.congr old) holds kept.needed⟩
    intro e he
    rcases List.mem_append.1 he with he | he
    · exact .inr (stored e he)
    · rw [List.mem_singleton.1 he]
      exact .inl rfl
  · exact fun n t done => ⟨⟨n, rfl⟩, done⟩

/-- Of a file that was read while it did not change, all chunks are there. -/
theorem stableRead (only : f.OnlyMetadata) (h : Upheld env files m H K s) {readings : List Reading}
    (known : ∀ r ∈ readings, r.content ∈ files) :
    Safe (engineMachine f)
      (fun r t => ∃ g H', t = s.withSegments g ∧ Upheld env files m H' K t ∧
        ∀ content n, r = .ok (content, n) →
          (∃ reading ∈ readings, reading.content = content ∧ reading.failure = none ∧
            reading.stable = true) ∧
          ∀ d ∈ chunksOf env content, ChunkId.fromData env d ∈ H')
      (Spares env files m) (stableRead env readings) s := by
  induction readings generalizing s H with
  | nil => exact ⟨s.segmentStore, H, rfl, h, fun _ _ failed => nomatch failed⟩
  | cons reading rest ih =>
    have pieces : ∀ d ∈ reading.chunks env, ∃ content ∈ files, d ∈ chunksOf env content := by
      intro d hd
      refine ⟨reading.content, known reading List.mem_cons_self, ?_⟩
      unfold Reading.chunks at hd
      split at hd
      · exact hd
      · exact List.mem_of_mem_take hd
    unfold StorageEngine.stableRead readOnce
    rw [safe_bind, safe_bind]
    apply (h.putChunks only pieces).mono ?_ fun _ crash => crash
    intro r t ⟨⟨n, ok⟩, g, H', same, stored, kept⟩
    rw [ok, thenSafe_ok]
    cases failure : reading.failure with
    | some failed =>
      exact ⟨g, H', same, kept, fun _ _ failed => nomatch failed⟩
    | none =>
      have whole : reading.chunks env = chunksOf env reading.content := by
        unfold Reading.chunks
        rw [failure]
      show Safe _ _ _ (if reading.stable then _ else _) t
      by_cases stable : reading.stable = true
      · rw [if_pos stable]
        refine ⟨g, H', same, kept, fun content n equal => ?_⟩
        cases equal
        rw [whole] at stored
        exact ⟨⟨reading, List.mem_cons_self, rfl, failure, stable⟩, stored⟩
      · rw [if_neg stable]
        apply (ih kept fun r hr => known r (List.mem_cons_of_mem reading hr)).mono ?_
          fun _ crash => crash
        intro r u ⟨g', H'', same', kept', found⟩
        refine ⟨g', H'', by rw [same', same]; rfl, kept', fun content n equal => ?_⟩
        obtain ⟨⟨other, there, rest⟩, stored⟩ := found content n equal
        exact ⟨⟨other, List.mem_cons_of_mem reading there, rest⟩, stored⟩

theorem addVersion (h : Upheld env files m H K s) {put : WalPutPayload}
    (saved : (s.metadataStore.manifests[put.manifest.contentId]?).isSome) :
    Safe (engineMachine f)
      (fun r t => Upheld env files m H K t ∧ ∃ n, t = s.withTables n ∧
        (r = .ok () → s.metadataStore.putVersion put = .ok n))
      (Spares env files m) (addVersion put) s := by
  unfold StorageEngine.addVersion
  rw [safe_bind]
  apply safe_query
  · cases known : s.metadataStore.getObject put.objectId with
    | error e => exact ⟨h, s.metadataStore, rfl, fun failed => by cases failed⟩
    | ok found =>
      rw [thenSafe_ok]
      simp only
      apply safe_when
      · intro new
        have added : s.metadataStore.putVersion put = .ok (s.metadataStore.putObject
            { found.getD { objectId := put.objectId, latestVersion := put.version, versions := [] } with
              latestVersion := put.version
              versions := (found.getD
                { objectId := put.objectId, latestVersion := put.version, versions := [] }).versions ++
                [{ version := put.version
                   manifestId := put.manifest.contentId
                   createdAt := put.manifest.createdAt
                   sizeBytes := put.manifest.totalSize }] }) := by
          unfold MetadataStore.putVersion
          rw [known]
          exact if_neg new
        apply (h.safe_update (.addVersion put saved added)
          (by rw [MetadataStore.needed_congr rfl]; exact h.needed)).mono ?_ fun _ crash => crash
        rintro r t ⟨kept, outcome⟩
        rcases outcome with ⟨ok, same⟩ | ⟨⟨e, failed⟩, same⟩
        · exact ⟨kept, _, same, fun _ => added⟩
        · refine ⟨kept, s.metadataStore, same, fun ok => ?_⟩
          rw [failed] at ok
          cases ok
      · intro old
        refine ⟨h, s.metadataStore, rfl, fun _ => ?_⟩
        unfold MetadataStore.putVersion
        rw [known]
        exact if_pos (not_not.1 old)
  · exact fun _ => ⟨h, s.metadataStore, rfl, fun failed => by cases failed⟩

/-- The transactions of a put whose chunks are on the medium. -/
theorem storePut (h : Upheld env files m H K s) {put : WalPutPayload}
    (original : ManifestOf env files put.manifest) (there : ∀ c ∈ put.manifest.chunks, c ∈ K) :
    Safe (engineMachine f)
      (fun r t => Upheld env files m H K t ∧ ∃ n, t = s.withTables n ∧
        (r = .ok () → s.metadataStore.applyPut env put none = (.ok (), n)))
      (Spares env files m) (storePut env put) s := by
  unfold StorageEngine.storePut
  rw [safe_bind]
  have needed : (s.metadataStore.saveManifest env put.manifest).2.needed env ⊆ K := by
    apply (MetadataStore.needed_saveManifest original.2).trans
    exact Set.union_subset h.needed there
  apply (h.safe_update (.saveManifest put.manifest original rfl) needed).mono ?_ fun _ crash => crash
  rintro r t ⟨kept, outcome⟩
  rcases outcome with ⟨rfl, rfl⟩ | ⟨⟨e, rfl⟩, rfl⟩
  · rw [thenSafe_ok, safe_bind]
    have saved : (((s.metadataStore.saveManifest env put.manifest).2).manifests[
        put.manifest.contentId]?).isSome := by simp [MetadataStore.saveManifest]
    apply (kept.addVersion saved).mono ?_ fun _ crash => crash
    rintro r u ⟨kept', n, same, did⟩
    cases r with
    | error e => exact ⟨kept', n, by rw [same]; rfl, fun failed => by cases failed⟩
    | ok _ =>
      have added := did rfl
      rw [thenSafe_ok]
      have tables : u.metadataStore = n := by rw [same]; rfl
      have bound := MetadataStore.getObject_putVersion added
      rw [← tables] at bound
      apply (kept'.safe_update (.bindName put bound rfl)
        (by rw [MetadataStore.needed_congr rfl]; exact kept'.needed)).mono ?_ fun _ crash => crash
      rintro r v ⟨kept'', outcome⟩
      rcases outcome with ⟨ok, last⟩ | ⟨⟨e, failed⟩, last⟩
      · refine ⟨kept'', n.bindName put.name put.objectId, by rw [last, same]; rfl, fun _ => ?_⟩
        have added' : (s.metadataStore.saveManifest env put.manifest).2.putVersion put = .ok n := added
        unfold MetadataStore.applyPut
        simp only [added', reduceCtorEq, if_false]
      · refine ⟨kept'', n, by rw [last, same]; rfl, fun ok => ?_⟩
        rw [failed] at ok
        cases ok
  · exact ⟨kept, t.metadataStore, rfl, fun failed => by cases failed⟩

end Upheld

namespace Serving

theorem storeFile (only : f.OnlyMetadata) (h : Upheld env files m H K s) {frames}
    (lists : Wal.Lists env (StoresFile env files) frames s.wal) {name : String} {content : Bytes}
    (stored : content ∈ files) (there : ∀ d ∈ chunksOf env content, ChunkId.fromData env d ∈ H)
    (newChunks : Nat) (generated : ObjectId) :
    Safe (engineMachine f)
      (fun r t => Serving env files m t ∧ ∀ summary, r = .ok summary →
        PutDid env s.metadataStore name content generated summary t.metadataStore)
      (Spares env files m) (storeFile env name content newChunks generated) s := by
  unfold StorageEngine.storeFile
  rw [safe_bind]
  apply h.safe_segments h.needed (h.holds.sync only.tidy h.clean.quiet)
  intro r g ⟨ok, holds, old⟩
  have synced : Upheld env files m H H (s.withSegments g) :=
    h.withSegments (h.clean.congr old) holds (h.needed.trans h.holds.le)
  obtain ⟨s₁, same₁⟩ : ∃ s₁, s₁ = s.withSegments g := ⟨_, rfl⟩
  have log₁ : s₁.wal = s.wal := by rw [same₁]; rfl
  have tables₁ : s₁.metadataStore = s.metadataStore := by rw [same₁]; rfl
  rw [← same₁] at synced ⊢
  rw [ok, thenSafe_ok, safe_bind]
  apply safe_now
  intro createdAt
  rw [thenSafe_ok, safe_bind]
  have running₁ : Serving env files m s₁ := ⟨⟨H, H, synced⟩, frames, log₁ ▸ lists⟩
  apply safe_query
  · cases target : s₁.metadataStore.putTarget name generated with
    | error e => exact ⟨running₁, fun _ failed => nomatch failed⟩
    | ok found =>
      rw [thenSafe_ok, safe_bind]
      obtain ⟨put, hput⟩ : ∃ put : WalPutPayload, put = ⟨name, found.1, found.2,
        manifestOf env content createdAt, []⟩ := ⟨_, rfl⟩
      have manifest : put.manifest = manifestOf env content createdAt := by rw [hput]
      show Safe _ (thenSafe _ _ _ _) _ (StorageEngine.log (Wal.appendPutAndSync env ⟨name, found.1, found.2,
        manifestOf env content createdAt, []⟩)) s₁
      rw [← hput]
      have appends := (log₁ ▸ lists : Wal.Lists env (StoresFile env files) frames s₁.wal).append
        only.wal fun lsn nonce bytes encoded =>
          ⟨put, rfl, by rw [hput], .of_encodePut stored manifest encoded⟩
      apply synced.safe_log (appends.mono (fun _ _ h => h) fun _ crash => crash)
      intro r w ⟨_, outcome⟩
      cases r with
      | error e =>
        exact ⟨⟨⟨H, H, synced.withWal outcome.intact⟩, frames, outcome⟩, fun _ failed => nomatch failed⟩
      | ok lsn =>
        obtain ⟨-, -, nonce, bytes, encoded, lists'⟩ := outcome
        have original := ManifestOf.of_encodePut stored manifest encoded
        have chunks : ∀ c ∈ put.manifest.chunks, c ∈ H := by
          intro c hc
          rw [manifest] at hc
          obtain ⟨d, hd, same⟩ := mem_chunks_manifestOf.1 hc
          exact same ▸ there d hd
        rw [thenSafe_ok, safe_bind]
        apply ((synced.withWal lists'.intact).storePut original chunks).mono ?_ fun _ crash => crash
        intro r t ⟨kept, n, same, did⟩
        have log : t.wal = w := by rw [same]; rfl
        have running : Serving env files m t := ⟨⟨H, H, kept⟩, _, log ▸ lists'⟩
        cases r with
        | error e => exact ⟨running, fun _ failed => nomatch failed⟩
        | ok _ =>
          rw [thenSafe_ok, safe_bind]
          apply kept.safe_log ((log ▸ lists').checkpoint only.wal lsn)
          intro r w' ⟨ok, _, _, lists''⟩
          rw [ok, thenSafe_ok, safe_pure]
          refine ⟨⟨⟨H, H, kept.withWal lists''.intact⟩, _, lists''⟩, fun summary equal => ?_⟩
          cases equal
          refine ⟨createdAt, by rw [← tables₁]; exact target, rfl, ?_⟩
          have tables : t.metadataStore = n := by rw [same]; rfl
          show _ = (Except.ok (), t.metadataStore)
          rw [tables, ← did rfl, ← tables₁, hput]
          rfl
  · intro _
    exact ⟨running₁, fun _ failed => nomatch failed⟩

/-- `put_file_named` of a file whose readings are known. -/
theorem putFileNamed (only : f.OnlyMetadata) (h : Serving env files m s) {name : String}
    {file : SourceFile} (known : ∀ i, (file.readings i).content ∈ files) (generated : ObjectId) :
    Safe (engineMachine f)
      (fun r t => Serving env files m t ∧ ∀ summary, r = .ok summary →
        validateLogicalName (Text.trim name) = .ok () ∧ file.exists = true ∧
        ∃ i, (file.readings i).failure = none ∧ (file.readings i).stable = true ∧
          PutDid env s.metadataStore (Text.trim name) (file.readings i).content generated summary
            t.metadataStore)
      (Spares env files m) (putFileNamed env name file generated) s := by
  unfold StorageEngine.putFileNamed
  extract_lets name
  generalize valid : validateLogicalName name = verdict
  rw [safe_bind, safe_ofExcept]
  cases verdict with
  | error e => exact ⟨h, fun _ failed => nomatch failed⟩
  | ok _ =>
    rw [thenSafe_ok]
    by_cases present : file.exists = true
    · rw [if_neg (not_not_intro present), safe_bind]
      obtain ⟨⟨H, K, kept⟩, frames, lists⟩ := h
      have readings : ∀ r ∈ (List.range maxStableReadAttempts).map file.readings, r.content ∈ files := by
        intro r hr
        obtain ⟨i, -, rfl⟩ := List.mem_map.1 hr
        exact known i
      apply (kept.stableRead only readings).mono ?_ fun _ crash => crash
      intro r t ⟨g, H', same, kept', found⟩
      have log : t.wal = s.wal := by rw [same]; rfl
      have tables : t.metadataStore = s.metadataStore := by rw [same]; rfl
      cases r with
      | error e => exact ⟨⟨⟨H', K, kept'⟩, frames, log ▸ lists⟩, fun _ failed => nomatch failed⟩
      | ok read =>
        obtain ⟨⟨reading, there, content, whole, stable⟩, stored⟩ := found read.1 read.2 rfl
        obtain ⟨i, -, rfl⟩ := List.mem_map.1 there
        rw [thenSafe_ok]
        apply (storeFile only kept' (log ▸ lists) (content ▸ known i) stored read.2 generated).mono
          ?_ fun _ crash => crash
        intro r u ⟨running, did⟩
        refine ⟨running, fun summary equal => ⟨rfl, present, i, whole, stable, ?_⟩⟩
        rw [content, ← tables]
        exact did summary equal
    · rw [if_pos present]
      exact ⟨h, fun _ failed => nomatch failed⟩

/-! ## Calls that only edit -/

theorem call {call : EngineCall} (only : call.OnlyEdits) (h : Serving env files m s) :
    Safe (engineMachine f) (fun _ t => Serving env files m t) (Spares env files m) (call.run env) s := by
  obtain ⟨⟨H, K, kept⟩, frames, lists⟩ := h
  have each {t : StorageEngine} (edited : s.Edited (call.Edits env) t) :
      Upheld env files m H K t ∧ t.wal = s.wal := by
    obtain ⟨n, rfl, edits⟩ := edited
    refine ⟨?_, rfl⟩
    induction edits with
    | refl => exact kept
    | tail _ edit before =>
      apply before.withTables (.edit call only edit)
      rw [MetadataStore.needed_congr (edit.manifests only)]
      exact before.needed
  apply (safe_call only).mono
  · intro r t edited
    obtain ⟨kept', log⟩ := each edited
    exact ⟨⟨H, K, kept'⟩, frames, log ▸ lists⟩
  · exact fun t edited => (each edited).1.spares

end Serving

end OosLite
