import OosLite.Engine.Output
import OosLite.Engine.Proofs.Edits

/-!
# What an extraction leaves

An extraction that succeeds leaves one file more, and possibly directories on the way to it. One that
fails leaves every other file as it was, also one that was to be replaced.
-/

namespace OosLite

open Effect FileTree

namespace Output

/-! ## The name of the temporary file -/

theorem toString_nat_no_dot (n : Nat) : ∀ c ∈ (toString n).toList, c ≠ '.' := by
  intro c member dot
  have digits : (toString n).toList = Nat.toDigits 10 n := Nat.toList_repr
  rw [digits] at member
  have digit := Nat.isDigit_of_mem_toDigits (by decide) (by decide) member
  rw [dot] at digit
  cases digit

/-- The stem of a name ends before its last dot. -/
theorem fileStem_append {front back : List Char} (nonempty : front ≠ [])
    (last : ∀ c ∈ back, c ≠ '.') :
    fileStem (String.ofList (front ++ '.' :: back)) = String.ofList front := by
  have cut : (String.ofList (front ++ '.' :: back)).toList.reverse.dropWhile (· ≠ '.') =
      '.' :: front.reverse := by
    rw [String.toList_ofList, List.reverse_append, List.reverse_cons, List.append_assoc,
      List.dropWhile_append_of_pos]
    · rfl
    · intro c member
      simpa using last c (List.mem_reverse.1 member)
  unfold fileStem
  rw [cut]
  cases reversed : front.reverse with
  | nil => exact absurd (List.reverse_eq_nil_iff.1 reversed) nonempty
  | cons c before =>
    have same : front = (c :: before).reverse := by rw [← reversed, List.reverse_reverse]
    rw [same]

/-- A temporary file is not called like the file it is for. -/
theorem withExtension_ne (name : String) (stamp : Stamp) :
    withExtension name stamp.extension ≠ name := by
  intro same
  obtain ⟨front, parts⟩ : ∃ front, front = (fileStem name).toList ++ ".tmp.".toList ++
      (toString stamp.pid).toList ++ ".ThreadId(".toList ++ (toString stamp.threadId).toList ++
        [')'] := ⟨_, rfl⟩
  have chars : name.toList = front ++ '.' :: (toString stamp.nanos).toList := by
    conv => lhs; rw [← same]
    simp [withExtension, Stamp.extension, String.toList_append, parts]
  have stem : fileStem name = String.ofList front := by
    have ends : fileStem (String.ofList (front ++ '.' :: (toString stamp.nanos).toList)) =
        String.ofList front :=
      fileStem_append (by simp [parts]) (toString_nat_no_dot stamp.nanos)
    rw [← chars, String.ofList_toList] at ends
    exact ends
  have size := congrArg (fun s : String => s.toList.length) stem
  simp [parts] at size

theorem tmpPath_append (front : List String) (name : String) (stamp : Stamp) :
    tmpPath (front ++ [name]) stamp = front ++ [withExtension name stamp.extension] := by
  simp [tmpPath]

theorem tmpPath_ne {out : List String} (nonempty : out ≠ []) (stamp : Stamp) :
    tmpPath out stamp ≠ out := by
  intro same
  rw [← List.dropLast_concat_getLast nonempty, tmpPath_append] at same
  have last := List.append_cancel_left same
  exact withExtension_ne _ stamp (List.cons.inj last).1

/-! ## The extraction -/

/-- The paths at which a failed extraction may leave something else than it found. -/
def scratch (out : List String) (stamp : Stamp) (q : List String) : Prop :=
  q = tmpPath out stamp ∧ q ≠ []

/-- What a successful extraction leaves. -/
structure Extracted (out : List String) (stamp : Stamp) (c : Bytes) (t t' : OutputTree UInt8) : Prop where
  named : out ≠ []
  tree : t' = ((t.makeDirs out.dropLast).put (tmpPath out stamp) none).put out (some (.file c))

/-- How an extraction ends: the engine is as it was. -/
def ExtractPost (env : Env) (manifest : Manifest) (out : List String) (stamp : Stamp) (s : Output) :
    Except OosLiteError Nat → Output → Prop
  | .ok count, s' => s'.engine = s.engine ∧ ∃ c : Bytes, count = c.length ∧
      env.blake3 c = manifest.contentHash ∧ Extracted out stamp c s.tree s'.tree
  | .error _, s' => s'.engine = s.engine ∧
      OutputTree.Prepared (scratch out stamp) out.dropLast s.tree s'.tree

section Extraction

variable {f : Faults} {env : Env}

/-- A program of the engine that only reads. -/
theorem safe_reading {α : Type} {p : EngineProg α} {s : Output}
    (reads : Maintains (engineMachine f) (fun g => g = s.engine) p) :
    Safe (outputMachine f) (fun _ s' => s' = s) (fun _ => True) (engineProg p) s := by
  apply safe_engineProg
  apply (reads s.engine rfl).mono
  · intro r g same
    rw [same]
    rfl
  · exact fun _ _ => trivial

/-- The loop over the chunks: the temporary file has what was read so far. -/
theorem safe_chunks (tmp p : List String) (nonempty : tmp ≠ []) (chunks : List ChunkId)
    {t : OutputTree UInt8} {s : Output} (start : s.tree = t.put tmp (some (.file []))) :
    Safe (outputMachine f) (fun r s' => s'.engine = s.engine ∧ match r with
        | .ok written => s'.tree = t.put tmp (some (.file written))
        | .error _ => OutputTree.Prepared (fun q => q = tmp ∧ q ≠ []) p t s'.tree) (fun _ => True)
      (Prog.forEach (fun written id => do
        let data ← engineProg (StorageEngine.segments (SegmentStore.getChunk env id))
        treeOp (.write tmp data)
        return written ++ data) [] chunks) s := by
  have kept (node : Option (Node Bytes)) :
      OutputTree.Prepared (fun q => q = tmp ∧ q ≠ []) p t (t.put tmp node) :=
    OutputTree.Prepared.refl.put ⟨rfl, nonempty⟩
  apply safe_forEach (fun _ _ written u => u.engine = s.engine ∧
    u.tree = t.put tmp (some (.file written))) ⟨rfl, start⟩
  · intro done id rest written u _ inv
    obtain ⟨engine, tree⟩ := inv
    rw [safe_bind]
    have reads : Maintains (engineMachine f) (fun g => g = u.engine)
        (StorageEngine.segments (SegmentStore.getChunk env id)) :=
      StorageEngine.maintains_segments fun g => StorageEngine.maintains_getChunk env _ id g
    refine (safe_reading reads).mono (fun r u' same => ?_) fun _ _ => trivial
    subst same
    cases r with
    | error e => exact ⟨engine, tree ▸ kept _⟩
    | ok data =>
      rw [thenSafe_ok, safe_bind]
      apply safe_treeOp
      · intro t' ran
        rw [tree] at ran
        obtain ⟨c, there, rfl⟩ := OutputTree.run_write ran
        rw [OutputTree.put_self] at there
        cases there
        exact ⟨engine, OutputTree.put_put _ _⟩
      · intro e t' left
        refine ⟨engine, (kept (some (.file written))).trans ?_⟩
        rw [← tree]
        apply left.prepared
        · nofun
        · intro q data' same
          cases same
          exact ⟨rfl, nonempty⟩
  · exact fun written u inv => inv

theorem safe_extractManifestToFile (manifest : Manifest) (out : List String) (stamp : Stamp)
    (s : Output) :
    Safe (outputMachine f) (ExtractPost env manifest out stamp s) (fun _ => True)
      (extractManifestToFile env manifest out stamp) s := by
  unfold extractManifestToFile
  rw [safe_bind]
  apply safe_treeOp
  · intro t ran
    have prepared : OutputTree.Prepared (scratch out stamp) out.dropLast s.tree t := by
      rw [OutputTree.run_createDirAll ran]
      exact .makeDirs (List.prefix_refl _)
    rw [thenSafe_ok]
    simp only
    rw [safe_handle]
    -- whatever goes wrong from here on, the temporary file is removed
    have cleanup (e : OosLiteError) (u : Output) (failed : u.engine = s.engine ∧
        OutputTree.Prepared (scratch out stamp) out.dropLast s.tree u.tree) :
        Safe (outputMachine f) (ExtractPost env manifest out stamp s) (fun _ => True) (do
          ignore (treeOp (.remove (tmpPath out stamp)))
          throw e) u := by
      obtain ⟨engine, kept⟩ := failed
      rw [safe_bind]
      apply safe_ignore
      apply safe_treeOp
      · intro t' removed
        obtain ⟨nonempty, rfl⟩ := OutputTree.run_remove removed
        exact ⟨engine, kept.put ⟨rfl, nonempty⟩⟩
      · intro e' t' left
        exact ⟨engine, kept.trans (left.prepared nofun nofun)⟩
    refine Safe.mono (Q := ExtractPost env manifest out stamp s) (C := fun _ => True) ?_ ?_
      fun _ _ => trivial
    · rw [safe_bind]
      apply safe_treeOp
      · intro t₁ opened
        obtain ⟨nonempty, rfl⟩ := OutputTree.run_openTruncate opened
        rw [thenSafe_ok, safe_bind]
        refine (safe_chunks (tmpPath out stamp) out.dropLast nonempty manifest.chunks (t := t)
          rfl).mono (fun r u done => ?_) fun _ _ => trivial
        obtain ⟨engine, tree⟩ := done
        cases r with
        | error e => exact ⟨engine, prepared.trans tree⟩
        | ok written =>
          have kept : OutputTree.Prepared (scratch out stamp) out.dropLast s.tree u.tree := by
            simp only at tree
            rw [tree]
            exact prepared.put ⟨rfl, nonempty⟩
          rw [thenSafe_ok, safe_bind]
          apply safe_treeOp
          · intro t₂ synced
            cases synced
            rw [thenSafe_ok]
            by_cases differs : env.blake3 written ≠ manifest.contentHash
            · rw [if_pos differs]
              exact ⟨engine, kept⟩
            · rw [if_neg differs, safe_bind]
              apply safe_treeOp
              · intro t₃ renamed
                obtain ⟨named, c, there, rfl⟩ := OutputTree.run_rename renamed
                change u.tree = t.put _ _ at tree
                change u.tree _ = _ at there
                rw [tree, OutputTree.put_self] at there
                cases there
                refine ⟨engine, written, rfl, not_not.1 differs, named, ?_⟩
                show (u.tree.put _ none).put out _ = _
                rw [tree, OutputTree.put_put, OutputTree.run_createDirAll ran]
              · intro e t₃ left
                exact ⟨engine, kept.trans (left.prepared nofun nofun)⟩
          · intro e t₂ left
            exact ⟨engine, kept.trans (left.prepared nofun nofun)⟩
      · intro e t₁ left
        exact ⟨rfl, prepared.trans (left.prepared nofun nofun)⟩
    · intro r u done
      cases r with
      | ok count => exact done
      | error e => exact cleanup e u done
  · intro e t left
    refine ⟨rfl, left.prepared ?_ nofun⟩
    intro q same
    cases same
    exact List.prefix_refl _

end Extraction

end Output

end OosLite
