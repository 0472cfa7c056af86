import OosLite.Metadata.Migration

/-!
# What the operations of a migration do

The programs on files and the operations of the two databases, with what they leave behind when they
return and when they are stopped.
-/

namespace OosLite.Migration

open Files Effect Backends

/-! ## Paths -/

theorem sibling_append (path : Path) (name suffix : String) :
    sibling (path ++ [name]) suffix = path ++ [name ++ suffix] := by
  simp [sibling]

theorem length_sibling {path : Path} (named : path ≠ []) (suffix : String) :
    (sibling path suffix).length = path.length := by
  have long := List.length_pos_iff.2 named
  rw [sibling, List.length_append, List.length_dropLast, List.length_singleton]
  omega

theorem sibling_ne_below {path : Path} (named : path ≠ []) (suffix : String) (name : String)
    (rest : Path) : sibling path suffix ≠ path ++ name :: rest := by
  intro same
  have := congrArg List.length same
  rw [length_sibling named, List.length_append, List.length_cons] at this
  omega

theorem sibling_ne {path : Path} (named : path ≠ []) {suffix : String} (longer : suffix ≠ "") :
    sibling path suffix ≠ path := by
  intro same
  rw [sibling] at same
  nth_rewrite 3 [← List.dropLast_append_getLast named] at same
  have last := List.append_cancel_left same
  rw [List.cons.injEq, List.getLastD_eq_getLast?, List.getLast?_eq_some_getLast named] at last
  exact longer (by simpa using last.1)

/-- A path is not both below a directory and at or below what stands beside it. -/
theorem not_inside_sibling {path : Path} (named : path ≠ []) {suffix : String} (longer : suffix ≠ "")
    {p : Path} (beside : sibling path suffix <+: p) : ¬ path <+: p := by
  intro inside
  have size := length_sibling named suffix
  have le : sibling path suffix <+: path :=
    List.prefix_of_prefix_length_le beside inside (Nat.le_of_eq size)
  exact sibling_ne named longer (le.eq_of_length size)

theorem sibling_inj {path : Path} {s t : String} (same : sibling path s = sibling path t) :
    s = t := by
  have := List.append_cancel_left same
  rw [List.cons.injEq, String.append_right_inj] at this
  exact this.1

/-! ## The programs on files -/

section Files

variable {C : Proc Path Unit → Prop} {path : Path} {bytes : Bytes} {a : Proc Path Unit}

/-- The machine of the programs that only work on files. -/
abbrev fileMachine : Machine (ProcOp Path Unit Empty) (ProcOp.Res NoAnswer) OosLiteError
    (Proc Path Unit) :=
  Proc.machine NoAnswer OosLiteError.ofIo mayFail fun _ _ => True

theorem safe_onFiles {b : Backends} {α : Type} {p : FileProg α} {d : MetadataDisk}
    {Q : Except OosLiteError α → MetadataDisk → Prop} {C : MetadataDisk → Prop}
    (h : Safe fileMachine (fun r a => Q r { d with fs := a.fs }) (fun a => C { d with fs := a.fs })
      p ⟨d.fs, ()⟩) : Safe b.machine Q C (onFiles p) d := by
  have part : Part fileMachine b.machine MigrationOp.files (fun _ r => r) MetadataDisk.files
      MetadataDisk.setFiles :=
    { get_set := fun _ _ => rfl
      set_set := fun _ _ _ => rfl
      step := fun o s r s' h => by
        obtain ⟨a, step, rfl⟩ := h
        refine ⟨a, ?_, rfl⟩
        cases r <;> exact step
      cut := fun o s s' h => h }
  exact part.safe_lift p d rfl h

theorem safe_created (p : Path) :
    Safe fileMachine (fun _ a' => Fs.SameBut (· = p) a.fs a'.fs)
      (fun a' => Fs.SameBut (· = p) a.fs a'.fs) (Proc.create p) a := by
  have created : ∃ fs, fs = a.fs.opened p ∧ Fs.SameBut (· = p) a.fs fs := by
    refine ⟨_, rfl, ?_⟩
    unfold Fs.opened
    cases a.fs.file p with
    | none => exact Fs.sameBut_put _ rfl
    | some f => exact Fs.SameBut.refl
  obtain ⟨fs, made, same⟩ := created
  apply Proc.safe_create made
  · exact Fs.SameBut.refl
  · exact same
  · exact same
  · intro _
    exact Fs.SameBut.refl

/-- A file that was opened empty. -/
theorem safe_truncated (p : Path) :
    Safe fileMachine
      (fun r a' => Fs.SameBut (· = p) a.fs a'.fs ∧
        (r = .ok () → ∃ durable, a'.fs.file p = some ⟨durable, []⟩ ∧ a'.fs.cursor p = 0))
      (fun a' => Fs.SameBut (· = p) a.fs a'.fs) (Proc.truncate p) a := by
  obtain ⟨durable, same⟩ : ∃ durable, a.fs.emptied p = (a.fs.put p ⟨durable, []⟩).moveTo p 0 := by
    unfold Fs.emptied
    cases a.fs.file p with
    | none => exact ⟨[], rfl⟩
    | some f => exact ⟨f.durable, rfl⟩
  have changed : Fs.SameBut (· = p) a.fs ((a.fs.put p ⟨durable, []⟩).moveTo p 0) :=
    Fs.sameBut_put _ rfl
  apply Proc.safe_truncate same.symm
  · exact Fs.SameBut.refl
  · exact changed
  · refine ⟨changed, fun _ => ⟨durable, ?_, ?_⟩⟩
    · simp
    · simp
  · intro _
    exact ⟨Fs.SameBut.refl, fun h => by cases h⟩

/-- Bytes written to a file that was just opened. -/
theorem safe_written {p : Path} {durable : Bytes} (opened : a.fs.file p = some ⟨durable, []⟩)
    (start : a.fs.cursor p = 0) :
    Safe fileMachine
      (fun r a' => Fs.SameBut (· = p) a.fs a'.fs ∧
        (r = .ok () → a'.fs.file p = some ⟨durable, bytes⟩))
      (fun a' => Fs.SameBut (· = p) a.fs a'.fs) (Proc.write p bytes) a := by
  have changed (new : Bytes) : Fs.SameBut (· = p) a.fs (a.fs.wrote p ⟨durable, []⟩ new) := by
    intro q hq
    rw [Fs.file_wrote, if_neg (Ne.symm hq)]
  apply Proc.safe_write opened
  · intro n _
    exact changed _
  · refine ⟨changed _, fun _ => ?_⟩
    simp [start, Bytes.writeAt]
  · intro _ n _
    exact ⟨changed _, fun h => by cases h⟩

/-- What `write_marker` leaves: the marker, or a change in the file beside it. -/
def Marked (path : Path) (bytes : Bytes) (fs fs' : Fs Path) : Prop :=
  fs'.file path = some ⟨bytes, bytes⟩ ∧
    Fs.SameBut (fun q => q = sibling path ".tmp" ∨ q = path) fs fs'

theorem safe_writeMarker :
    Safe fileMachine
      (fun r a' => Marked path bytes a.fs a'.fs ∨
        (∃ e, r = .error e) ∧ Fs.SameBut (· = sibling path ".tmp") a.fs a'.fs)
      (fun a' => Marked path bytes a.fs a'.fs ∨ Fs.SameBut (· = sibling path ".tmp") a.fs a'.fs)
      (writeMarker path bytes) a := by
  unfold writeMarker publish
  apply Safe.bind ((safe_truncated _).mono (fun _ _ h => h) fun _ h => .inr h)
  · intro _ a₁ h
    obtain ⟨changed₁, opened⟩ := h
    obtain ⟨durable, opened, start⟩ := opened rfl
    apply Safe.bind ((safe_written opened start).mono (fun _ _ h => h)
      fun _ h => .inr (changed₁.trans h))
    · intro _ a₂ h
      obtain ⟨changed₂, written⟩ := h
      have written := written rfl
      have changed₃ := changed₁.trans changed₂
      have synced : Fs.SameBut (· = sibling path ".tmp") a.fs
          (a₂.fs.put (sibling path ".tmp") ⟨bytes, bytes⟩) := changed₃.trans (Fs.sameBut_put _ rfl)
      rw [safe_bind]
      apply Proc.safe_sync written
      · exact .inr changed₃
      · exact .inr synced
      · rw [thenSafe]
        have marked : Marked path bytes a.fs (((a₂.fs.put (sibling path ".tmp") ⟨bytes, bytes⟩).drop
            (sibling path ".tmp")).put path ⟨bytes, bytes⟩) := by
          refine ⟨by simp, ?_⟩
          intro q hq
          have notTemporary : sibling path ".tmp" ≠ q := fun same => hq (.inl same.symm)
          have notPath : path ≠ q := fun same => hq (.inr same.symm)
          rw [Fs.file_put, if_neg notPath, Fs.file_drop, if_neg notTemporary]
          exact synced q fun same => notTemporary same.symm
        apply Proc.safe_rename (f := ⟨bytes, bytes⟩)
        · simp
        · exact .inr synced
        · exact .inl marked
        · exact .inl marked
        · intro _
          exact .inr ⟨⟨_, rfl⟩, synced⟩
      · intro _
        exact .inr ⟨⟨_, rfl⟩, changed₃⟩
    · intro e a₂ h
      exact .inr ⟨⟨e, rfl⟩, changed₁.trans h.1⟩
  · intro e a₁ h
    exact .inr ⟨⟨e, rfl⟩, h.1⟩

/-- Whether there is a file at or below a path. -/
theorem safe_isThere :
    Safe fileMachine
      (fun r a' => a' = a ∧ ∃ there, r = .ok there ∧
        ((∀ p, path <+: p → a.fs.file p = none) → there = false))
      (fun _ => False) (isThere path) a := by
  unfold isThere
  rw [safe_bind]
  apply Proc.safe_list _ fun fault => fault.elim
  intro below perm
  refine ⟨rfl, _, rfl, fun absent => ?_⟩
  have empty : below = [] := by
    apply List.eq_nil_iff_forall_not_mem.2
    intro p hp
    rw [perm.mem_iff, Fs.mem_listing, List.isPrefixOf_iff_prefix] at hp
    rw [absent p hp.2] at hp
    exact absurd hp.1 (by simp)
  rw [empty]
  rfl

/-- A copy has the contents of the source. -/
theorem safe_copyFile (source destination : Path) :
    Safe fileMachine
      (fun r a' => Fs.SameBut (· = destination) a.fs a'.fs ∧
        (r = .ok () → a'.fs.data destination = a.fs.data source))
      (fun a' => Fs.SameBut (· = destination) a.fs a'.fs) (copyFile source destination) a := by
  unfold copyFile
  rw [safe_bind]
  apply Proc.safe_read
  · intro f hf
    rw [thenSafe]
    apply Safe.bind (safe_truncated destination)
    · intro _ a₁ h
      obtain ⟨changed, opened⟩ := h
      obtain ⟨durable, opened, start⟩ := opened rfl
      apply (safe_written opened start).mono
      · intro r a₂ h
        refine ⟨changed.trans h.1, fun done => ?_⟩
        rw [Fs.data, Fs.data, h.2 done, hf]
        rfl
      · intro a₂ h
        exact changed.trans h
    · intro e a₁ h
      exact ⟨h.1, fun h => by cases h⟩
  · intro _
    exact ⟨Fs.SameBut.refl, fun h => by cases h⟩
  · intro _
    exact ⟨Fs.SameBut.refl, fun h => by cases h⟩

/-- A marker that is read: it is there, it is not there, or that is an error. -/
theorem safe_checkMarker :
    Safe fileMachine
      (fun r a' => a' = a ∧ (r = .ok true → a.fs.data path = some migrationVersion) ∧
        (r = .ok false → a.fs.file path = none))
      (fun _ => False) (checkMarker path) a := by
  unfold checkMarker
  rw [safe_bind, safe_attempt]
  constructor
  · rintro a' ⟨-, stop⟩
    exact stop
  · rintro r a' ⟨mem, r₀, step, rfl⟩
    obtain ⟨same, rfl⟩ | ⟨-, rfl, same⟩ := step
    all_goals
      rw [Proc.eq_withFs mem, same]
      rw [thenSafe]
    · cases there : a.fs.file path with
      | none => exact ⟨rfl, fun h => (by cases h), fun _ => rfl⟩
      | some f =>
        show Safe fileMachine _ _ (if f.data = migrationVersion then _ else _) _
        by_cases version : f.data = migrationVersion
        · rw [if_pos version]
          refine ⟨rfl, fun _ => ?_, fun h => by cases h⟩
          rw [Fs.data, there, ← version]
          rfl
        · rw [if_neg version]
          exact ⟨rfl, fun h => (by cases h), fun h => by cases h⟩
    · exact ⟨rfl, fun h => (by cases h), fun h => by cases h⟩

end Files

/-! ## The databases -/

section Databases

variable {b : Backends} {d : MetadataDisk} {p : Path}

/-- A file that redb may have opened. -/
def Reopened (b : Backends) (p : Path) (fs fs' : Fs Path) : Prop :=
  fs' = fs ∨ ∃ t, b.tablesAt fs p = some t ∧ b.Rewrites p t fs fs'

namespace Reopened

variable {fs fs' : Fs Path}

theorem sameBut (h : Reopened b p fs fs') : Fs.SameBut (· = p) fs fs' := by
  rcases h with rfl | ⟨t, -, rewrites⟩
  · exact Fs.SameBut.refl
  · exact rewrites.sameBut

theorem tablesAt (h : Reopened b p fs fs') : b.tablesAt fs' p = b.tablesAt fs p := by
  rcases h with rfl | ⟨t, tables, rewrites⟩
  · rfl
  · rw [tables, rewrites.holds.tablesAt]

theorem holds (h : Reopened b p fs fs') {t : Database} (old : b.Holds fs p t) :
    b.Holds fs' p t := by
  rcases h with rfl | ⟨t', tables, rewrites⟩
  · exact old
  · rw [old.tablesAt, Option.some.injEq] at tables
    rw [tables]
    exact rewrites.holds

end Reopened

theorem safe_createDatabase (absent : d.fs.file p = none) :
    Safe b.machine
      (fun r d' => Fs.SameBut (· = p) d.fs d'.fs ∧
        (r = .ok () → b.tablesAt d'.fs p = some fun _ => none))
      (fun d' => Fs.SameBut (· = p) d.fs d'.fs) (createDatabase p) d := by
  have new : d.fs.data p = none ∨ d.fs.data p = some [] := by
    rw [Fs.data, absent]
    exact .inl rfl
  have cutShort {d' : MetadataDisk} (h : b.Cut d (.createDatabase p) d') :
      Fs.SameBut (· = p) d.fs d'.fs := by
    simp only [Backends.Cut, if_pos new] at h
    rcases h with rfl | ⟨file, rfl⟩
    · exact Fs.SameBut.refl
    · exact Fs.sameBut_put _ rfl
  apply (safe_perform _ _).2
  constructor
  · intro d' h
    exact cutShort h
  · intro r d' h
    rcases h with h | ⟨⟨e, rfl⟩, h⟩
    · simp only [Backends.Done, if_pos new] at h
      obtain ⟨rfl, file, rfl, tables⟩ := h
      refine ⟨Fs.sameBut_put _ rfl, fun _ => ?_⟩
      rw [Backends.tablesAt, Fs.data, Fs.file_put, if_pos rfl]
      exact tables
    · exact ⟨cutShort h, fun h => by cases h⟩

theorem safe_openDatabase :
    Safe b.machine
      (fun r d' => d'.imports = d.imports ∧ Reopened b p d.fs d'.fs ∧
        (r = .ok () → ∃ t, b.tablesAt d.fs p = some t))
      (fun d' => d'.imports = d.imports ∧ Reopened b p d.fs d'.fs) (openDatabase p) d := by
  have cutShort {d' : MetadataDisk} (h : b.Cut d (.openDatabase p) d') :
      d'.imports = d.imports ∧ Reopened b p d.fs d'.fs := by
    rcases h with rfl | ⟨t, fs, tables, rewrites, rfl⟩
    · exact ⟨rfl, .inl rfl⟩
    · exact ⟨rfl, .inr ⟨t, tables, rewrites⟩⟩
  apply (safe_perform _ _).2
  constructor
  · intro d' h
    exact cutShort h
  · intro r d' h
    rcases h with h | ⟨⟨e, rfl⟩, h⟩
    · cases tables : b.tablesAt d.fs p with
      | none =>
        simp only [Backends.Done, tables] at h
        obtain ⟨rfl, rfl⟩ := h
        exact ⟨rfl, .inl rfl, nofun⟩
      | some t =>
        simp only [Backends.Done, tables] at h
        obtain ⟨rfl, fs, rewrites, rfl⟩ := h
        exact ⟨rfl, .inr ⟨t, tables, rewrites⟩, fun _ => ⟨t, rfl⟩⟩
    · exact ⟨(cutShort h).1, (cutShort h).2, nofun⟩

theorem safe_commit {t : Database} (write : Database → Database)
    (before : b.tablesAt d.fs p = some t) :
    Safe b.machine
      (fun r d' => Fs.SameBut (· = p) d.fs d'.fs ∧ (r = .ok () → b.Holds d'.fs p (write t)))
      (fun d' => Fs.SameBut (· = p) d.fs d'.fs) (commit p write) d := by
  have cutShort {d' : MetadataDisk} (h : b.Cut d (.commit p write) d') :
      Fs.SameBut (· = p) d.fs d'.fs := by
    rcases h with rfl | ⟨t, fs, -, rewrites | rewrites, rfl⟩
    · exact Fs.SameBut.refl
    · exact rewrites.sameBut
    · exact rewrites.sameBut
  apply (safe_perform _ _).2
  constructor
  · intro d' h
    exact cutShort h
  · intro r d' h
    rcases h with h | ⟨⟨e, rfl⟩, h⟩
    · simp only [Backends.Done, before] at h
      obtain ⟨rfl, fs, rewrites, rfl⟩ := h
      exact ⟨rewrites.sameBut, fun _ => rewrites.holds⟩
    · exact ⟨cutShort h, nofun⟩

theorem safe_openSled :
    Safe b.machine
      (fun r d' => Fs.SameBut (p <+: ·) d.fs d'.fs ∧
        ∀ trees, r = .ok trees → b.sled (view d.fs p) = some trees)
      (fun d' => Fs.SameBut (p <+: ·) d.fs d'.fs) (openSled p) d := by
  apply (safe_perform _ _).2
  constructor
  · intro d' h
    exact h.2
  · intro r d' h
    rcases h with ⟨-, same, rfl⟩ | ⟨⟨e, rfl⟩, h⟩
    · refine ⟨same, fun trees ok => ?_⟩
      revert ok
      cases b.sled (view d.fs p) with
      | none => nofun
      | some found =>
        rintro ⟨⟩
        rfl
    · exact ⟨h.2, nofun⟩

/-- A database that `open` accepts. -/
def Usable (b : Backends) (fs : Fs Path) (p : Path) : Prop :=
  ∃ t, b.tablesAt fs p = some t ∧ validate t = .ok ()

theorem safe_validateDatabase :
    Safe b.machine (fun r d' => d' = d ∧ (r = .ok () → Usable b d.fs p)) (fun d' => d' = d)
      (validateDatabase p) d := by
  unfold validateDatabase
  rw [safe_bind]
  apply (safe_perform _ _).2
  constructor
  · intro d' h
    exact h
  · intro r d' h
    rcases h with ⟨rfl, rfl⟩ | ⟨⟨e, rfl⟩, rfl⟩
    · cases tables : b.tablesAt d'.fs p with
      | none => exact ⟨rfl, nofun⟩
      | some t =>
        rw [thenSafe, safe_ofExcept]
        exact ⟨rfl, fun accepted => ⟨t, tables, accepted⟩⟩
    · exact ⟨rfl, nofun⟩

theorem copyLegacyTree_empty (legacy : Table) : copyLegacyTree legacy ∅ = legacy := by
  apply Std.ExtTreeMap.ext_getElem?
  intro key
  rw [copyLegacyTree, ← Std.ExtTreeMap.insertMany_list_eq_foldl]
  cases there : legacy[key]? with
  | some value =>
    apply Std.ExtTreeMap.getElem?_insertMany_list_of_mem Std.ReflCmp.compare_self
      Std.ExtTreeMap.distinct_keys_toList
    exact Std.ExtTreeMap.mem_toList_iff_getElem?_eq_some.2 there
  | none =>
    rw [Std.ExtTreeMap.getElem?_insertMany_list_of_contains_eq_false]
    · rfl
    · rw [Std.ExtTreeMap.map_fst_toList_eq_keys, ← Bool.not_eq_true, List.contains_iff_mem,
        Std.ExtTreeMap.mem_keys, Std.ExtTreeMap.mem_iff_isSome_getElem?, there]
      nofun

/-- What the first transaction makes of an empty database. -/
theorem initializeDatabase_empty (trees : SledDb) :
    initializeDatabase (some trees) (fun _ => none) = migrated trees := by
  funext name
  simp only [initializeDatabase, migrated, Option.getD_none, copyLegacyTree_empty]

end Databases

end OosLite.Migration
