import OosLite.Metadata.Proofs.MigrationFiles

/-!
# What no step of a migration changes

The files of the sled directory that are still needed, its settings or their copy, and the markers of
the migration.
-/

namespace OosLite.Migration

open Files Effect Backends

section Kept

variable {saved : Prop} {init fs fs' : Fs Path} {input : Path} {settings : Bytes}

/-- The files whose contents do not matter between two attempts. -/
def Scratch (input q : Path) : Prop :=
  q = sibling input ".open.lock" ∨
  (∃ name ∈ ["conf.tmp", "conf.sled-backup.tmp", ".redb-active.tmp", ".redb-migrating.tmp"],
    q = input ++ [name]) ∨
  input ++ [".redb-sled-import"] <+: q

/-- A file of the migration with one of these names. -/
def Named (names : List String) (input q : Path) : Prop := ∃ name ∈ names, q = input ++ [name]

/-- The names of the files that a migration makes or changes, scratch files apart. -/
def ownNames : List String :=
  ["conf", "conf.sled-backup", "metadata.redb", "metadata.redb.staging", ".redb-active",
    ".redb-migrating"]

/-- The names of the scratch files. -/
def scratchNames : List String :=
  ["conf.tmp", "conf.sled-backup.tmp", ".redb-active.tmp", ".redb-migrating.tmp",
    ".redb-sled-import"]

theorem not_scratch_inside (named : input ≠ []) {name : String} {rest : Path}
    (other : name ∉ scratchNames) : ¬ Scratch input (input ++ name :: rest) := by
  intro scratch
  unfold Scratch at scratch
  rcases scratch with lock | ⟨n, hn, same⟩ | ⟨t, same⟩
  · exact sibling_ne_below named _ _ _ lock.symm
  · have := List.append_cancel_left same
    rw [List.cons.injEq] at this
    rw [this.1] at other
    simp only [scratchNames, List.mem_cons, List.not_mem_nil, or_false] at hn other
    tauto
  · rw [List.append_assoc] at same
    have := List.append_cancel_left same
    rw [List.singleton_append, List.cons.injEq] at this
    rw [← this.1] at other
    simp [scratchNames] at other

theorem not_named {names : List String} {name : String} {rest : Path} (other : name ∉ names) :
    ¬ Named names input (input ++ name :: rest) := by
  intro there
  unfold Named at there
  obtain ⟨n, hn, same⟩ := there
  have := List.append_cancel_left same
  rw [List.cons.injEq] at this
  rw [this.1] at other
  exact other hn

theorem not_scratch_outside {q : Path} (outside : ¬ input <+: q)
    (other : q ≠ sibling input ".open.lock") : ¬ Scratch input q := by
  intro scratch
  unfold Scratch at scratch
  rcases scratch with lock | ⟨n, -, rfl⟩ | below
  · exact other lock
  · exact outside (List.prefix_append _ _)
  · exact outside ((List.prefix_append _ _).trans below)

/-- The settings of sled: the original ones, perhaps with a copy that is surely there if it was
`saved`, or the blocker and the copy. -/
def Settings (saved : Prop) (input : Path) (settings : Bytes) (fs : Fs Path) : Prop :=
  (fs.file (input ++ ["conf"]) = some ⟨settings, settings⟩ ∧
      (fs.file (input ++ ["conf.sled-backup"]) = none ∧ ¬ saved ∨
        fs.file (input ++ ["conf.sled-backup"]) = some ⟨settings, settings⟩)) ∨
    fs.file (input ++ ["conf"]) = some ⟨blocker, blocker⟩ ∧
      fs.file (input ++ ["conf.sled-backup"]) = some ⟨settings, settings⟩

/-- Sled cannot open the directory, and its settings are kept. -/
def Blocked (input : Path) (settings : Bytes) (fs : Fs Path) : Prop :=
  fs.file (input ++ ["conf"]) = some ⟨blocker, blocker⟩ ∧
    fs.file (input ++ ["conf.sled-backup"]) = some ⟨settings, settings⟩

/-- Nothing has changed but scratch files and the files of the migration with these names. -/
abbrev Changes (names : List String) (input : Path) (fs fs' : Fs Path) : Prop :=
  Fs.SameBut (fun q => Scratch input q ∨ Named names input q) fs fs'

theorem Changes.more {names more : List String} (h : Changes names input fs fs')
    (le : names ⊆ more) : Changes more input fs fs' := by
  apply h.mono
  intro q changed
  cases changed with
  | inl scratch => exact .inl scratch
  | inr there =>
    obtain ⟨n, hn, rfl⟩ := there
    exact .inr ⟨n, le hn, rfl⟩

/-- What a migration leaves alone. -/
structure Untouched (init : Fs Path) (input : Path) (fs : Fs Path) : Prop where
  source : ∀ rest, copied rest = true → fs.file (input ++ rest) = init.file (input ++ rest)
  directory : fs.file input = none
  noArchive : ∀ p, sibling input ".sled" <+: p → fs.file p = none
  noState : fs.file (sibling input ".redb-active") = none

theorem copied_name {name : String} {rest : Path} (h : copied (name :: rest) = true) :
    name ∉ scratchNames ∧ name ∉ ownNames := by
  have no (other : String) (out : copied (other :: rest) = false) : name ≠ other := by
    intro same
    rw [same, out] at h
    cases h
  constructor
  · simp only [scratchNames, List.mem_cons, List.not_mem_nil, or_false, not_or]
    refine ⟨no _ rfl, no _ rfl, no _ rfl, no _ rfl, no _ rfl⟩
  · simp only [ownNames, List.mem_cons, List.not_mem_nil, or_false, not_or]
    refine ⟨no _ rfl, no _ rfl, no _ rfl, no _ rfl, no _ rfl, no _ rfl⟩

theorem Untouched.frame (named : input ≠ []) (h : Untouched init input fs)
    (same : Changes ownNames input fs fs') :
    Untouched init input fs' := by
  have outside {q : Path} (out : ¬ input <+: q) (other : q ≠ sibling input ".open.lock") :
      fs'.file q = fs.file q := by
    apply same
    intro changed
    cases changed with
    | inl scratch => exact not_scratch_outside out other scratch
    | inr own =>
      obtain ⟨n, -, rfl⟩ := own
      exact out (List.prefix_append _ _)
  constructor
  · intro rest hrest
    rw [← h.source rest hrest]
    apply same
    cases rest with
    | nil => cases hrest
    | cons name rest =>
      obtain ⟨notScratch, notOwn⟩ := copied_name hrest
      intro changed
      cases changed with
      | inl scratch => exact not_scratch_inside named notScratch scratch
      | inr own => exact not_named notOwn own
  · rw [← h.directory]
    apply same
    intro changed
    rcases changed with (lock | ⟨n, -, own⟩ | below) | ⟨n, -, own⟩
    · exact sibling_ne named (by decide) lock.symm
    · have := congrArg List.length own
      simp at this
    · have := below.length_le
      rw [List.length_append, List.length_singleton] at this
      omega
    · have := congrArg List.length own
      simp at this
  · intro p hp
    rw [← h.noArchive p hp]
    apply outside (not_inside_sibling named (by decide) hp)
    intro lock
    rw [lock] at hp
    have short : (sibling input ".open.lock").length = (sibling input ".sled").length := by
      rw [length_sibling named, length_sibling named]
    have := sibling_inj (hp.eq_of_length short.symm)
    revert this
    decide
  · rw [← h.noState]
    apply outside (not_inside_sibling named (by decide) (List.prefix_refl _))
    intro lock
    have := sibling_inj lock
    revert this
    decide

/-- The two markers and the settings between two attempts. -/
structure Kept (saved : Prop) (init : Fs Path) (input : Path) (settings : Bytes) (fs : Fs Path) : Prop where
  untouched : Untouched init input fs
  settings : Settings saved input settings fs
  migrating : fs.file (input ++ [".redb-migrating"]) = none ∨
    fs.file (input ++ [".redb-migrating"]) = some ⟨migrationVersion, migrationVersion⟩

/-- A file of the migration that is not among those that changed. -/
theorem own_file {names : List String} (named : input ≠ [])
    (same : Changes names input fs fs') {name : String}
    (own : name ∉ scratchNames) (other : name ∉ names) :
    fs'.file (input ++ [name]) = fs.file (input ++ [name]) := by
  apply same
  intro changed
  cases changed with
  | inl scratch => exact not_scratch_inside named own scratch
  | inr there => exact not_named other there

theorem Kept.frame (named : input ≠ []) (h : Kept saved init input settings fs)
    (same : Changes ["metadata.redb", "metadata.redb.staging", ".redb-active"] input fs fs') :
    Kept saved init input settings fs' := by
  constructor
  · exact h.untouched.frame named (same.more (by decide))
  · have old := h.settings
    unfold Settings at old ⊢
    rw [own_file named same (by decide) (by decide), own_file named same (by decide) (by decide)]
    exact old
  · rw [own_file named same (by decide) (by decide)]
    exact h.migrating

/-- Another state of the settings. -/
theorem Kept.blocking (named : input ≠ []) (h : Kept saved init input settings fs)
    (same : Changes ["conf", "conf.sled-backup"] input fs fs') (now : Settings saved input settings fs') :
    Kept saved init input settings fs' := by
  constructor
  · exact h.untouched.frame named (same.more (by decide))
  · exact now
  · rw [own_file named same (by decide) (by decide)]
    exact h.migrating

/-- What a marker changes. -/
theorem Marked.changes {names : List String} {name : String} {bytes : Bytes}
    (h : Marked (input ++ [name]) bytes fs fs') (there : name ∈ names)
    (beside : name ++ ".tmp" ∈ scratchNames.dropLast) : Changes names input fs fs' := by
  apply h.2.mono
  intro q changed
  cases changed with
  | inl temporary =>
    rw [sibling_append] at temporary
    exact .inl (.inr (.inl ⟨_, beside, temporary⟩))
  | inr path => exact .inr ⟨name, there, path⟩

theorem changes_temporary {names : List String} {name : String}
    (h : Fs.SameBut (· = sibling (input ++ [name]) ".tmp") fs fs')
    (beside : name ++ ".tmp" ∈ scratchNames.dropLast) : Changes names input fs fs' := by
  apply h.mono
  intro q temporary
  rw [sibling_append] at temporary
  exact .inl (.inr (.inl ⟨_, beside, temporary⟩))

/-- The settings are kept beside themselves. -/
theorem safe_keepSettings (named : input ≠ []) {a : Proc Path Unit}
    (there : a.fs.file (input ++ ["conf"]) = some ⟨settings, settings⟩)
    (backup : a.fs.file (input ++ ["conf.sled-backup"]) = none ∧ ¬ saved ∨
      a.fs.file (input ++ ["conf.sled-backup"]) = some ⟨settings, settings⟩) :
    Safe fileMachine
      (fun r a' => Changes ["conf.sled-backup"] input a.fs a'.fs ∧
        Settings saved input settings a'.fs ∧
        (r = .ok () → a'.fs.file (input ++ ["conf.sled-backup"]) = some ⟨settings, settings⟩))
      (fun a' => Changes ["conf.sled-backup"] input a.fs a'.fs ∧ Settings saved input settings a'.fs)
      (writeMarker (input ++ ["conf.sled-backup"]) settings) a := by
  have wrote {fs : Fs Path} (h : Marked (input ++ ["conf.sled-backup"]) settings a.fs fs) :
      Changes ["conf.sled-backup"] input a.fs fs ∧ Settings saved input settings fs := by
    have change : Changes ["conf.sled-backup"] input a.fs fs := h.changes (by decide) (by decide)
    refine ⟨change, .inl ⟨?_, .inr h.1⟩⟩
    rw [own_file named change (by decide) (by decide)]
    exact there
  have half {fs : Fs Path}
      (h : Fs.SameBut (· = sibling (input ++ ["conf.sled-backup"]) ".tmp") a.fs fs) :
      Changes ["conf.sled-backup"] input a.fs fs ∧ Settings saved input settings fs := by
    have change : Changes [] input a.fs fs := changes_temporary h (by decide)
    refine ⟨change.more (by decide), .inl ?_⟩
    rw [own_file named change (by decide) (by decide), own_file named change (by decide) (by decide)]
    exact ⟨there, backup⟩
  apply safe_writeMarker.mono
  · intro r a' h
    rcases h with h | ⟨⟨e, rfl⟩, h⟩
    · exact ⟨(wrote h).1, (wrote h).2, fun _ => h.1⟩
    · exact ⟨(half h).1, (half h).2, fun ok => by cases ok⟩
  · intro a' h
    cases h with
    | inl h => exact wrote h
    | inr h => exact half h

/-- The blocker is installed over settings that are kept. -/
theorem safe_installBlocker (named : input ≠ []) {a : Proc Path Unit}
    (now : Settings saved input settings a.fs)
    (kept : a.fs.file (input ++ ["conf.sled-backup"]) = some ⟨settings, settings⟩) :
    Safe fileMachine
      (fun r a' => Changes ["conf"] input a.fs a'.fs ∧ Settings saved input settings a'.fs ∧
        (r = .ok () → Blocked input settings a'.fs))
      (fun a' => Changes ["conf"] input a.fs a'.fs ∧ Settings saved input settings a'.fs)
      (writeMarker (input ++ ["conf"]) blocker) a := by
  have wrote {fs : Fs Path} (h : Marked (input ++ ["conf"]) blocker a.fs fs) :
      Changes ["conf"] input a.fs fs ∧ Blocked input settings fs := by
    have change : Changes ["conf"] input a.fs fs := h.changes (by decide) (by decide)
    refine ⟨change, h.1, ?_⟩
    rw [own_file named change (by decide) (by decide)]
    exact kept
  have half {fs : Fs Path} (h : Fs.SameBut (· = sibling (input ++ ["conf"]) ".tmp") a.fs fs) :
      Changes ["conf"] input a.fs fs ∧ Settings saved input settings fs := by
    have change : Changes [] input a.fs fs := changes_temporary h (by decide)
    refine ⟨change.more (by decide), ?_⟩
    unfold Settings at now ⊢
    rw [own_file named change (by decide) (by decide), own_file named change (by decide) (by decide)]
    exact now
  apply safe_writeMarker.mono
  · intro r a' h
    rcases h with h | ⟨⟨e, rfl⟩, h⟩
    · exact ⟨(wrote h).1, .inr (wrote h).2, fun _ => (wrote h).2⟩
    · exact ⟨(half h).1, (half h).2, fun ok => by cases ok⟩
  · intro a' h
    cases h with
    | inl h => exact ⟨(wrote h).1, .inr (wrote h).2⟩
    | inr h => exact half h

/-- Sled is blocked, its settings are kept; on the way they are the original ones or blocked. -/
theorem safe_blockSled (named : input ≠ []) (accessible : settings ≠ blocker) {a : Proc Path Unit}
    (h : Settings saved input settings a.fs) :
    Safe fileMachine
      (fun r a' => Changes ["conf", "conf.sled-backup"] input a.fs a'.fs ∧
        Settings saved input settings a'.fs ∧ (r = .ok () → Blocked input settings a'.fs))
      (fun a' => Changes ["conf", "conf.sled-backup"] input a.fs a'.fs ∧
        Settings saved input settings a'.fs)
      (blockSled input) a := by
  unfold blockSled
  simp only
  rw [safe_bind]
  apply Proc.safe_exists _ fun fault => fault.elim
  rw [thenSafe]
  have there : ∃ f, a.fs.file (input ++ ["conf"]) = some f := by
    unfold Settings at h
    rcases h with h | h <;> exact ⟨_, h.1⟩
  obtain ⟨f, hf⟩ := there
  rw [hf, Option.isSome_some, if_pos rfl, safe_bind]
  apply Proc.safe_read _ (fun absent => absurd absent (by simp [hf])) fun _ =>
    ⟨Fs.SameBut.refl, h, fun ok => by cases ok⟩
  intro g hg
  rw [hf, Option.some.injEq] at hg
  subst hg
  rw [thenSafe]
  by_cases blocked : f.data = blocker
  · rw [if_pos blocked]
    refine ⟨Fs.SameBut.refl, h, fun _ => ?_⟩
    unfold Settings at h
    rcases h with ⟨original, -⟩ | h
    · rw [hf, Option.some.injEq] at original
      rw [original] at blocked
      exact absurd blocked accessible
    · exact h
  · rw [if_neg blocked, safe_bind]
    have original : f = ⟨settings, settings⟩ ∧
        (a.fs.file (input ++ ["conf.sled-backup"]) = none ∧ ¬ saved ∨
          a.fs.file (input ++ ["conf.sled-backup"]) = some ⟨settings, settings⟩) := by
      unfold Settings at h
      rcases h with ⟨original, backup⟩ | ⟨now, -⟩
      · rw [hf, Option.some.injEq] at original
        exact ⟨original, backup⟩
      · rw [hf, Option.some.injEq] at now
        rw [now] at blocked
        exact absurd rfl blocked
    obtain ⟨rfl, backup⟩ := original
    apply (safe_keepSettings named hf backup).mono
    · intro r a' h
      cases r with
      | ok u =>
        -- the last step, over settings that are kept
        apply (safe_installBlocker named h.2.1 (h.2.2 rfl)).mono
        · exact fun _ _ now => ⟨(h.1.more (by decide)).trans (now.1.more (by decide)), now.2⟩
        · exact fun _ now => ⟨(h.1.more (by decide)).trans (now.1.more (by decide)), now.2⟩
      | error e => exact ⟨h.1.more (by decide), h.2.1, fun ok => by cases ok⟩
    · exact fun a' h => ⟨h.1.more (by decide), h.2⟩

/-- A file that is copied is no scratch file. -/
theorem copied_file (named : input ≠ []) (same : Changes [] input fs fs') {rest : Path}
    (h : copied rest = true) : fs'.file (input ++ rest) = fs.file (input ++ rest) := by
  apply same
  intro changed
  cases rest with
  | nil => cases h
  | cons name rest =>
    cases changed with
    | inl scratch => exact not_scratch_inside named (copied_name h).1 scratch
    | inr there => exact not_named (by simp) there

theorem changes_copy {p : Path} (h : Fs.SameBut (· = p) fs fs')
    (inside : input ++ [".redb-sled-import"] <+: p) : Changes [] input fs fs' := by
  apply h.mono
  rintro q rfl
  exact .inl (.inr (.inr inside))

/-- The copy has the files that sled reads, and no others. -/
theorem safe_makeCopy (named : input ≠ []) {a : Proc Path Unit}
    (backup : a.fs.data (input ++ ["conf.sled-backup"]) = some settings) :
    Safe fileMachine
      (fun r a' => Changes [] input a.fs a'.fs ∧
        (r = .ok () → ∀ rest, a'.fs.data (input ++ [".redb-sled-import"] ++ rest) =
          if rest = ["conf"] then some settings
          else if copied rest = true then a.fs.data (input ++ rest) else none))
      (fun a' => Changes [] input a.fs a'.fs) (makeCopy input) a := by
  unfold makeCopy
  simp only
  generalize hcopy : input ++ [".redb-sled-import"] = copy
  have inside (rest : Path) : input ++ [".redb-sled-import"] <+: copy ++ rest := by
    rw [hcopy]
    exact List.prefix_append _ _
  -- first the old copy is removed
  have emptied (gone : Path → Bool) (le : ∀ p, gone p = true → copy.isPrefixOf p = true) :
      Changes [] input a.fs (a.fs.dropAll gone) := by
    intro q hq
    rw [Fs.file_dropAll]
    by_cases there : gone q = true
    · refine absurd (.inl (.inr (.inr ?_))) hq
      rw [hcopy]
      exact List.isPrefixOf_iff_prefix.1 (le q there)
    · rw [if_neg there]
  rw [safe_bind]
  apply Proc.safe_removeAll
  · exact emptied
  · have start := emptied (copy.isPrefixOf ·) fun _ h => h
    have empty (rest : Path) : (a.fs.dropAll (copy.isPrefixOf ·)).data (copy ++ rest) = none := by
      rw [Fs.data, Fs.file_dropAll, if_pos (List.isPrefixOf_iff_prefix.2 (List.prefix_append _ _))]
      rfl
    generalize a.fs.dropAll (copy.isPrefixOf ·) = fs₁ at start empty
    rw [thenSafe]
    apply Safe.bind ((safe_copyFile _ _).mono (fun _ _ h => h)
      fun _ h => start.trans (changes_copy h (inside _)))
    · intro _ a₂ h
      obtain ⟨change, conf⟩ := h
      have conf := conf rfl
      have same₂ := start.trans (changes_copy change (inside _))
      have only : ∀ rest ≠ ["conf"], a₂.fs.data (copy ++ rest) = none := by
        intro rest other
        rw [Fs.data, change _ fun same => other (List.append_cancel_left same), ← Fs.data]
        exact empty rest
      have conf₂ : a₂.fs.data (copy ++ ["conf"]) = some settings := by
        rw [conf, ← backup, Fs.data, Proc.withFs_fs, Fs.data, own_file named start (by decide) (by simp)]
      rw [safe_bind]
      apply Proc.safe_list _ fun fault => fault.elim
      intro entries perm
      rw [thenSafe]
      have mem (p : Path) : p ∈ entries ↔ (a₂.fs.file p).isSome = true ∧
          ∃ rest, p = input ++ rest ∧ copied rest = true := by
        rw [perm.mem_iff, Fs.mem_listing, Bool.and_eq_true, List.isPrefixOf_iff_prefix]
        apply and_congr_right
        intro _
        constructor
        · rintro ⟨⟨rest, rfl⟩, h⟩
          exact ⟨rest, rfl, by simpa using h⟩
        · rintro ⟨rest, rfl, h⟩
          exact ⟨List.prefix_append _ _, by simpa using h⟩
      apply safe_forEach fun done _ _ (s : Proc Path Unit) => Changes [] input a.fs s.fs ∧
        s.fs.data (copy ++ ["conf"]) = some settings ∧ ∀ rest ≠ ["conf"],
          s.fs.data (copy ++ rest) = if input ++ rest ∈ done then a.fs.data (input ++ rest) else none
      · refine ⟨same₂, conf₂, fun rest other => ?_⟩
        rw [only rest other, if_neg (by simp)]
      · intro done p todo _ s split inv
        obtain ⟨same, conf, files⟩ := inv
        obtain ⟨there, rest, rfl, isCopied⟩ := (mem p).1 (by rw [← split]; simp)
        rw [List.drop_left]
        apply (safe_copyFile _ _).mono
        · intro r s' h
          obtain ⟨change, data⟩ := h
          have same' := same.trans (changes_copy change (inside _))
          cases r with
          | error e => exact ⟨same', fun h => by cases h⟩
          | ok u =>
            have other : rest ≠ ["conf"] := by
              rintro rfl
              cases isCopied
            refine ⟨same', ?_, fun rest' other' => ?_⟩
            · rw [Fs.data, change _ fun same => other (List.append_cancel_left same).symm, ← Fs.data]
              exact conf
            · by_cases this : rest' = rest
              · subst this
                rw [data rfl, if_pos (by simp), Fs.data, Fs.data, copied_file named same isCopied]
              · rw [Fs.data, change _ fun same => this (List.append_cancel_left same), ← Fs.data,
                  files rest' other']
                have : input ++ rest' ∈ done ++ [input ++ rest] ↔ input ++ rest' ∈ done := by
                  rw [List.mem_append, List.mem_singleton, List.append_cancel_left_eq]
                  simp [this]
                simp only [this]
        · intro s' h
          exact same.trans (changes_copy h (inside _))
      · intro _ s inv
        obtain ⟨same, conf, files⟩ := inv
        refine ⟨same, fun _ rest => ?_⟩
        by_cases isConf : rest = ["conf"]
        · rw [if_pos isConf, isConf, conf]
        rw [if_neg isConf, files rest isConf]
        by_cases isCopied : copied rest = true
        · rw [if_pos isCopied]
          by_cases there : (a₂.fs.file (input ++ rest)).isSome = true
          · rw [if_pos ((mem _).2 ⟨there, rest, rfl, isCopied⟩)]
          · rw [if_neg fun h => there ((mem _).1 h).1, Fs.data, ← copied_file named same₂ isCopied]
            rw [Bool.not_eq_true, Option.isSome_eq_false_iff, Option.isNone_iff_eq_none] at there
            rw [there]
            rfl
        · rw [if_neg isCopied, if_neg]
          intro there
          obtain ⟨-, rest', same, h⟩ := (mem _).1 there
          rw [List.append_cancel_left same] at isCopied
          exact isCopied h
    · intro e a₂ h
      exact ⟨start.trans (changes_copy h.1 (inside _)), fun h => by cases h⟩
  · intro _
    exact ⟨Fs.SameBut.refl, fun h => by cases h⟩

end Kept

end OosLite.Migration
