import OosLite.Vault.Open
import OosLite.Vault.Proofs.Blank

/-!
# Which key a store is opened with

The key of `vault.key` where it is there, none where it is not; and a new one only where there is
nothing yet.
-/

namespace OosLite

open Files Effect StoreFiles VaultKey

variable {crates : VaultCrates} {root : String} {key : Option VaultKey} {fs fs' : Fs RootPath}

/-- The key file is there as a whole, and on the medium. -/
def HasKeyFile (crates : VaultCrates) (passphrase : String) (key : VaultKey) (fs : Fs RootPath) : Prop :=
  ∃ f, fs.file .vaultKey = some f ∧ f.Synced ∧ Creates crates passphrase key f.data

/-- The root directory has no key file, or that of a key. -/
def HoldsKey (crates : VaultCrates) (key : Option VaultKey) (fs : Fs RootPath) : Prop :=
  match key with
  | none => fs.file .vaultKey = none
  | some key => ∃ passphrase, HasKeyFile crates passphrase key fs

namespace HoldsKey

/-- A power cut leaves the key file as it was. -/
theorem file_powerCut (h : HoldsKey crates key fs) (cut : fs.PowerCut fs') :
    fs'.file .vaultKey = fs.file .vaultKey := by
  cases key with
  | none =>
    have absent : fs.file .vaultKey = none := h
    rw [absent, cut.absent absent]
  | some key =>
    obtain ⟨passphrase, f, there, synced, -⟩ := h
    rw [there, cut.synced there synced]

theorem congr (h : HoldsKey crates key fs) (same : fs'.file .vaultKey = fs.file .vaultKey) :
    HoldsKey crates key fs' := by
  cases key with
  | none => exact same.trans h
  | some key =>
    obtain ⟨passphrase, f, there, rest⟩ := h
    exact ⟨passphrase, f, same.trans there, rest⟩

theorem isSome (h : HoldsKey crates key fs) : (fs.file .vaultKey).isSome = key.isSome := by
  cases key with
  | none =>
    rw [show fs.file .vaultKey = none from h]
    rfl
  | some key =>
    obtain ⟨passphrase, f, there, -⟩ := h
    rw [there]
    rfl

/-- What a key file unlocks to. -/
theorem unlock_eq {master : VaultKey} (authentic : Authentic crates)
    (h : HoldsKey crates (some master) fs) {f : File} (there : fs.file .vaultKey = some f)
    {password : String} {unlocked : VaultKey} (ok : unlock crates password f.data = .ok unlocked) :
    unlocked = master := by
  obtain ⟨passphrase, g, found, -, created⟩ := h
  obtain rfl : g = f := Option.some.inj (found.symm.trans there)
  exact created.unlock_eq authentic ok

end HoldsKey

/-- The looks that may not fail: at the key file, and at the files of a store. -/
structure OpeningFaults.Sound (f : OpeningFaults) : Prop where
  vault : ¬ f.root (.exists .vaultKey)
  look : ¬ f.look

/-- Nothing that `is_store_empty` looks for is there. -/
structure StoreFiles.Unwritten (s : StoreFiles) : Prop where
  segments : ∀ p, p.isActive = true → s.disk.segments.file p = none
  database : s.database = false

section Machine

variable {f : OpeningFaults} {s : StoreFiles} {C : StoreFiles → Prop} {α : Type}

theorem part_onRoot (f : OpeningFaults) : Part (rootMachine f.root) (openingMachine f) OpeningOp.root
    (fun _ a => a) StoreFiles.root withRoot where
  get_set _ _ := rfl
  set_set _ _ _ := rfl
  step o s r s' step := by
    obtain ⟨g, inner, rfl⟩ := step
    refine ⟨g, ?_, rfl⟩
    cases r <;> exact inner
  cut _ _ _ cut := cut

theorem safe_onRoot {p : RootProg α} {Q : Except OpenError α → StoreFiles → Prop}
    (h : Safe (rootMachine f.root) (fun r g => Q r (s.withRoot g)) (fun g => C (s.withRoot g)) p s.root) :
    Safe (openingMachine f) Q C (onRoot p) s :=
  (part_onRoot f).safe_lift p s rfl h

theorem safe_vaultThere (sound : f.Sound) {Q : Except OpenError Bool → StoreFiles → Prop}
    (h : Q (.ok (s.root.fs.file .vaultKey).isSome) s) : Safe (openingMachine f) Q C vaultThere s := by
  unfold vaultThere
  rw [safe_handle]
  apply safe_onRoot
  exact Proc.safe_exists h fun failed => absurd failed sound.vault

/-- A look that finds what is there. -/
theorem safe_look {o : OpeningOp} {v : o.Res} {other : OpenError → OpeningProg o.Res}
    (cut : ∀ t, ¬ (openingMachine f).cut o s t)
    (step : ∀ r t, (openingMachine f).step o s r t → t = s ∧ (r = .ok v ∨ f.look ∧ ∃ e, r = .error e))
    (sound : f.Sound) :
    Safe (openingMachine f) (fun r t => t = s ∧ r = .ok v) C
      (Prog.handle (@Prog.perform OpeningOp OpeningOp.Res OpenError o) other) s := by
  rw [safe_handle]
  apply (safe_perform _ _).2
  refine ⟨fun t stops => absurd stops (cut t), fun r t moved => ?_⟩
  obtain ⟨same, ok | ⟨failed, -⟩⟩ := step r t moved
  · rw [ok]
    exact ⟨same, rfl⟩
  · exact absurd failed sound.look

/-- `is_store_empty` finds a store empty only where nothing was written. -/
theorem safe_isStoreEmpty (sound : f.Sound) :
    Safe (openingMachine f) (fun r t => t = s ∧ ∃ empty, r = .ok empty ∧ (empty = true → s.Unwritten)) C
      isStoreEmpty s := by
  have names : Safe (openingMachine f)
      (fun r t => t = s ∧ r = .ok (s.disk.segments.listing SegPath.isActive)) C
      (Prog.handle (segmentFiles SegPath.isActive) fun _ => pure []) s :=
    safe_look (fun _ => id) (fun _ _ => id) sound
  have database : Safe (openingMachine f) (fun r t => t = s ∧ r = .ok s.database) C
      (Prog.handle somethingAtDatabase fun _ => pure false) s :=
    safe_look (fun _ => id) (fun _ _ => id) sound
  have length : Safe (openingMachine f)
      (fun r t => t = s ∧ r = .ok ((s.disk.wal.data .log).map List.length)) C
      (Prog.handle logLength fun _ => pure none) s :=
    safe_look (fun _ => id) (fun _ _ => id) sound
  unfold isStoreEmpty
  rw [safe_bind]
  apply names.mono ?_ fun _ h => h
  rintro r t ⟨same, rfl⟩
  rw [same, thenSafe_ok]
  split
  · exact ⟨rfl, false, rfl, fun h => by cases h⟩
  · rename_i listed
    rw [safe_bind]
    apply database.mono ?_ fun _ h => h
    rintro r t ⟨same, rfl⟩
    rw [same, thenSafe_ok]
    split
    · exact ⟨rfl, false, rfl, fun h => by cases h⟩
    · rename_i absent
      rw [safe_bind]
      apply length.mono ?_ fun _ h => h
      rintro r t ⟨same, rfl⟩
      rw [same]
      refine ⟨rfl, _, rfl, fun _ => ⟨fun p active => ?_, by simpa using absent⟩⟩
      by_contra there
      have mem := (s.disk.segments.mem_listing SegPath.isActive p).2 ⟨Option.isSome_iff_ne_none.2 there, active⟩
      have nothing : s.disk.segments.listing SegPath.isActive = [] := by simpa using listed
      rw [nothing] at mem
      cases mem

end Machine

/-! ## The key file -/

section Root

variable {faulty : FsOp RootPath → Prop} {s : Proc RootPath Unit}

/-- Nothing yet, or the file of a new key. -/
def MayHold (crates : VaultCrates) (fs : Fs RootPath) : Prop :=
  HoldsKey crates none fs ∨ ∃ key, HoldsKey crates (some key) fs

theorem safe_writeVaultFileAtomic (absent : s.fs.file .vaultKey = none) {passphrase : String}
    {master : VaultKey} {bytes : Bytes} (created : Creates crates passphrase master bytes) :
    Safe (rootMachine faulty)
      (fun r t => match r with
        | .ok () => HasKeyFile crates passphrase master t.fs
        | .error _ => HoldsKey crates none t.fs)
      (fun t => MayHold crates t.fs) (writeVaultFileAtomic bytes) s := by
  unfold writeVaultFileAtomic
  rw [safe_bind, Proc.safe_ask]
  intro stamp _
  have other : RootPath.tmp stamp ≠ .vaultKey := fun h => by cases h
  rw [thenSafe_ok, safe_bind]
  apply Proc.safe_exists
  · rw [thenSafe_ok]
    split
    · exact absent
    · rename_i free
      have new : s.fs.file (.tmp stamp) = none := by simpa using free
      rw [safe_bind]
      obtain ⟨fs, opened⟩ : ∃ fs, fs = s.fs.opened (.tmp stamp) := ⟨_, rfl⟩
      have absent' : fs.file .vaultKey = none := by
        rw [opened, Fs.file_opened, if_neg other, absent]
      have there : fs.file (.tmp stamp) = some ⟨[], []⟩ := by
        rw [opened, Fs.file_opened, if_pos rfl, new]
        rfl
      have cursor : fs.cursor (.tmp stamp) = 0 := by
        rw [opened, Fs.cursor_opened, if_pos rfl]
      have wrote (part : Bytes) : (fs.wrote (.tmp stamp) ⟨[], []⟩ part).file .vaultKey = none := by
        rw [Fs.file_wrote, if_neg other, absent']
      apply Proc.safe_create opened (.inl absent) (.inl absent')
      · change Safe _ _ _ _ _
        rw [safe_bind]
        apply Proc.safe_write there (fun n _ => .inl (wrote _))
        · have whole : (fs.wrote (.tmp stamp) ⟨[], []⟩ bytes).file (.tmp stamp) = some ⟨[], bytes⟩ := by
            rw [Fs.file_wrote, if_pos rfl, cursor]
            exact congrArg some (congrArg (File.mk []) (Bytes.writeAt_end [] bytes))
          have synced : ((fs.wrote (.tmp stamp) ⟨[], []⟩ bytes).put (.tmp stamp) ⟨bytes, bytes⟩).file
              .vaultKey = none := by
            rw [Fs.file_put, if_neg other, wrote]
          rw [thenSafe_ok, safe_bind]
          apply Proc.safe_sync whole (.inl (wrote _)) (.inl synced)
          · change Safe _ _ _ _ _
            have renamed (gs : Fs RootPath) :
                HasKeyFile crates passphrase master (gs.put .vaultKey ⟨bytes, bytes⟩) :=
              ⟨⟨bytes, bytes⟩, by rw [Fs.file_put, if_pos rfl], rfl, created⟩
            apply Proc.safe_rename (f := ⟨bytes, bytes⟩) (by simp) (.inl synced)
              (.inr ⟨master, passphrase, renamed _⟩)
            · exact renamed _
            · exact fun _ => synced
          · exact fun _ => wrote _
        · exact fun _ _ _ => wrote _
      · exact fun _ => absent
  · exact fun _ => absent

theorem safe_createVault (absent : s.fs.file .vaultKey = none) (password : String) :
    Safe (rootMachine faulty)
      (fun r t => match r with
        | .ok master => HasKeyFile crates password master t.fs
        | .error _ => HoldsKey crates none t.fs)
      (fun t => MayHold crates t.fs) (createVault crates password) s := by
  unfold createVault
  rw [safe_bind, Proc.safe_ask]
  intro master _
  rw [thenSafe_ok, safe_bind, Proc.safe_ask]
  intro salt _
  rw [thenSafe_ok, safe_bind, Proc.safe_ask]
  intro nonce _
  rw [thenSafe_ok, safe_bind, safe_ofExcept]
  cases made : VaultKey.create crates password master salt nonce with
  | error e => exact absent
  | ok bytes =>
    rw [thenSafe_ok, safe_bind]
    apply (safe_writeVaultFileAtomic absent (create_eq_ok made)).mono ?_ fun _ h => h
    intro r t h
    cases r with
    | error e => exact h
    | ok _ => exact h

end Root

/-! ## The key -/

/-- What an attempt to open leaves of the root directory: its key file, or the file of a new key where
nothing had been written. -/
structure KeyBecomes (crates : VaultCrates) (key : Option VaultKey) (s t : StoreFiles)
    (key' : Option VaultKey) : Prop where
  holds : HoldsKey crates key' t.root.fs
  new : key' = key ∧ t.root.fs.file .vaultKey = s.root.fs.file .vaultKey ∨ key = none ∧ s.Unwritten

section Machine

variable {f : OpeningFaults} {s : StoreFiles}

/-- The password unlocks the key file, to this key. -/
def UnlocksTo (crates : VaultCrates) (password : String) (key : VaultKey) (fs : Fs RootPath) : Prop :=
  ∃ f, fs.file .vaultKey = some f ∧ unlock crates password f.data = .ok key

theorem HasKeyFile.unlocksTo {passphrase : String} {master : VaultKey}
    (h : HasKeyFile crates passphrase master fs) : UnlocksTo crates passphrase master fs := by
  obtain ⟨f, there, -, created⟩ := h
  exact ⟨f, there, created.unlock⟩

/-- What becomes of the key file, and the key that the store is opened with: that of the file, which the
password unlocks. -/
def OpensWith (crates : VaultCrates) (key : Option VaultKey) (opening : Opening) (s : StoreFiles)
    (r : Except OpenError (Option VaultKey)) (t : StoreFiles) : Prop :=
  ∃ key', KeyBecomes crates key s t key' ∧ ∀ opened, r = .ok opened → opened = key' ∧
    ∀ password, opening.password? = some password →
      ∃ master, opened = some master ∧ UnlocksTo crates password master t.root.fs

theorem HoldsKey.refused (h : HoldsKey crates key s.root.fs) {opening : Opening} (e : OpenError) :
    OpensWith crates key opening s (.error e) s :=
  ⟨key, ⟨h, .inl ⟨rfl, rfl⟩⟩, fun _ ok => by cases ok⟩

theorem safe_newKey (absent : HoldsKey crates none s.root.fs) (unwritten : s.Unwritten) {opening : Opening}
    {password : String} (own : opening.password? = some password) :
    Safe (openingMachine f) (OpensWith crates none opening s) (fun t => ∃ key', KeyBecomes crates none s t key')
      (onRoot (createVault crates password) >>= fun vk => pure (some vk)) s := by
  rw [safe_bind]
  apply safe_onRoot
  apply (safe_createVault absent password).mono
  · intro r g made
    cases r with
    | error e => exact ⟨none, ⟨made, .inl ⟨rfl, made.trans absent.symm⟩⟩, fun _ ok => by cases ok⟩
    | ok master =>
      refine ⟨some master, ⟨⟨password, made⟩, .inr ⟨rfl, unwritten⟩⟩, fun opened ok => ?_⟩
      refine ⟨(Except.ok.inj ok).symm, fun password' same => ⟨master, (Except.ok.inj ok).symm, ?_⟩⟩
      rw [own] at same
      rw [← Option.some.inj same]
      exact made.unlocksTo
  · rintro g (absent' | ⟨master, made⟩)
    · exact ⟨none, absent', .inl ⟨rfl, absent'.trans absent.symm⟩⟩
    · exact ⟨some master, made, .inr ⟨rfl, unwritten⟩⟩

theorem safe_openingKey (authentic : Authentic crates) (h : HoldsKey crates key s.root.fs)
    (sound : f.Sound) (opening : Opening) :
    Safe (openingMachine f) (OpensWith crates key opening s) (fun t => ∃ key', KeyBecomes crates key s t key')
      (openingKey crates root opening) s := by
  have there := h.isSome
  cases opening with
  | «open» =>
    unfold openingKey
    rw [safe_bind]
    apply safe_vaultThere sound
    rw [thenSafe_ok, there]
    cases key with
    | some key => exact h.refused _
    | none =>
      refine ⟨none, ⟨h, .inl ⟨rfl, rfl⟩⟩, fun opened ok => ⟨(Except.ok.inj ok).symm, fun _ none => ?_⟩⟩
      cases none
  | withPassword password =>
    unfold openingKey
    rw [safe_bind]
    apply safe_vaultThere sound
    rw [thenSafe_ok, there]
    cases key with
    | some key =>
      rw [if_pos Option.isSome_some, safe_bind]
      apply safe_onRoot
      apply Proc.safe_read
      · intro file found
        rw [thenSafe_ok, safe_bind, safe_ofExcept]
        cases ok : unlock crates password file.data with
        | error e => exact h.refused _
        | ok vk =>
          obtain rfl := h.unlock_eq authentic found ok
          refine ⟨some vk, ⟨h, .inl ⟨rfl, rfl⟩⟩, fun opened same => ?_⟩
          refine ⟨(Except.ok.inj same).symm, fun password' own => ⟨vk, (Except.ok.inj same).symm, ?_⟩⟩
          rw [← Option.some.inj own]
          exact ⟨file, found, ok⟩
      · exact fun _ => h.refused _
      · exact fun _ => h.refused _
    | none =>
      rw [if_neg (by simp), safe_bind]
      apply (safe_isStoreEmpty sound).mono ?_ fun _ never => never
      rintro r t ⟨same, empty, rfl, unwritten⟩
      rw [same, thenSafe_ok]
      cases empty with
      | false => exact h.refused _
      | true => exact safe_newKey h (unwritten rfl) rfl
  | initEncrypted password =>
    unfold openingKey
    rw [safe_bind]
    apply safe_vaultThere sound
    rw [thenSafe_ok, there]
    cases key with
    | some key => exact h.refused _
    | none =>
      rw [if_neg (by simp), safe_bind]
      apply (safe_isStoreEmpty sound).mono ?_ fun _ never => never
      rintro r t ⟨same, empty, rfl, unwritten⟩
      rw [same, thenSafe_ok]
      cases empty with
      | false => exact h.refused _
      | true => exact safe_newKey h (unwritten rfl) rfl

end Machine

end OosLite
