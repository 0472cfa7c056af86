import OosLite.Engine.Proofs.Names
import OosLite.Share.Zip
import OosLite.Watcher.Proofs.PathNames

/-!
# The entries of a shared folder

Names are checked by the components of the host, where a backslash is a character like any other,
but listed after backslashes have become separators.  The two notions of a component part where two
dots stand next to a backslash.
-/

namespace OosLite

open Text (split_append)

/-! ## Normalised names -/

theorem split_withSlashes (s : String) :
    Text.split '/' (withSlashes s) = (Text.split '/' s).flatMap (Text.split '\\') :=
  Text.split_replace '\\' '/' s

theorem isAbsolute_withSlashes (s : String) : IsAbsolute (withSlashes s) ↔
    s.toList.head? = some '\\' ∨ s.toList.head? = some '/' := by
  unfold IsAbsolute withSlashes
  rw [String.toList_ofList]
  cases s.toList with
  | nil => simp
  | cons c cs => by_cases backslash : c = '\\' <;> simp [backslash]

/-- For a name that is accepted, only backslashes can make it unsafe. -/
theorem safeNormalised_iff {name : String} (accepted : validateLogicalName name = .ok ()) :
    SafeNormalised name ↔ NoHiddenClimb name := by
  have absolute : ¬ IsAbsolute (withSlashes name) ↔ name.toList.head? ≠ some '\\' := by
    rw [isAbsolute_withSlashes, not_or]
    exact and_iff_left (head_ne_slash accepted)
  have climb : ".." ∉ Text.split '/' (withSlashes name) ↔
      ∀ part ∈ Text.split '/' name, '\\' ∈ part.toList → ".." ∉ Text.split '\\' part := by
    rw [split_withSlashes, List.mem_flatMap]
    constructor
    · intro none part there _ dots
      exact none ⟨part, there, dots⟩
    · intro none found
      obtain ⟨part, there, dots⟩ := found
      by_cases backslash : '\\' ∈ part.toList
      · exact none part there backslash dots
      · rw [Text.split, List.splitOn_eq_singleton backslash, List.map_singleton,
          String.ofList_toList, List.mem_singleton] at dots
        exact dots_not_mem_split accepted (dots ▸ there)
  unfold SafeNormalised NoHiddenClimb
  rw [absolute, climb, and_comm]

/-! ## Where entries come to lie -/

theorem foldlM_descend {parts : List String} (climb : ".." ∉ parts) (place : List String) :
    parts.foldlM descend place = some (place ++ FilePath.components parts) := by
  induction parts generalizing place with
  | nil => simp [FilePath.components]
  | cons part parts ih =>
    have later := ih fun there => climb (List.mem_cons_of_mem _ there)
    have other : part ≠ ".." := fun same => climb (same ▸ List.mem_cons_self)
    rw [List.foldlM_cons]
    by_cases noise : FilePath.isNoise part = true
    · have stay : descend place part = some place := if_pos noise
      rw [stay, Option.bind_eq_bind, Option.bind_some, later]
      simp [FilePath.components, noise]
    · have down : descend place part = some (place ++ [part]) := by
        rw [descend, if_neg noise, if_neg other]
      rw [down, Option.bind_eq_bind, Option.bind_some, later]
      simp [FilePath.components, noise]

/-- Where a name without two dots comes to lie. -/
theorem extractedTo_eq {name : String} (climb : ".." ∉ Text.split '/' name)
    (relative : ¬ IsAbsolute name) :
    extractedTo name = some (FilePath.components (Text.split '/' name)) := by
  unfold extractedTo
  rw [if_neg relative, foldlM_descend climb, List.nil_append]

/-- The folder's name is a part of the share's path, or stands in for an empty one. -/
theorem folderName_eq (path : String) : folderName path = "folder" ∨
    folderName path ∈ Text.split '/' (cleanPath path) ∧ folderName path ≠ "" := by
  have parts : Text.split '/' (cleanPath path) ≠ [] := by
    unfold Text.split
    rw [Ne, List.map_eq_nil_iff]
    exact List.splitOn_ne_nil _ _
  have last := List.getLast?_eq_some_getLast parts
  unfold folderName
  rw [last, Option.getD_some]
  by_cases empty : (Text.split '/' (cleanPath path)).getLast parts = ""
  · exact .inl (if_pos empty)
  · right
    rw [if_neg empty]
    exact ⟨List.getLast_mem parts, empty⟩

/-- It is one part. -/
theorem split_folderName (path : String) : Text.split '/' (folderName path) = [folderName path] := by
  have single : '/' ∉ (folderName path).toList := by
    rcases folderName_eq path with same | ⟨there, -⟩
    · rw [same]
      decide
    · obtain ⟨part, there, same⟩ := List.mem_map.1 there
      rw [← same, String.toList_ofList]
      intro slash
      have other := (Text.of_mem_splitOnP _ there _ slash).2
      exact absurd other (by decide)
  rw [Text.split, List.splitOn_eq_singleton single, List.map_singleton, String.ofList_toList]

theorem not_isAbsolute_folderName (path rest : String) :
    ¬ IsAbsolute (folderName path ++ rest) := by
  intro absolute
  obtain ⟨tail, same⟩ := List.head?_eq_some_iff.1 absolute
  rw [String.toList_append] at same
  have nonempty : folderName path ≠ "" := by
    rcases folderName_eq path with name | ⟨-, nonempty⟩
    · rw [name]
      decide
    · exact nonempty
  cases name : (folderName path).toList with
  | nil => exact nonempty (String.toList_inj.1 name)
  | cons c cs =>
    rw [name] at same
    have parts := split_folderName path
    rw [Text.split, name, (List.cons.inj same).1, List.splitOn_cons_eq_if_modifyHead,
      if_pos (beq_self_eq_true '/')] at parts
    have tail := (List.cons.inj parts).2
    rw [List.map_eq_nil_iff] at tail
    exact List.splitOn_ne_nil _ _ tail

/-- A file of a shared folder stays below the folder if nothing in its normalised name climbs. -/
theorem staysBelow_of_safe {path name : String} (safe : SafeNormalised name)
    (listed : inFolder path name = true) :
    StaysBelow (folderName path) (zipEntryName path name) := by
  obtain ⟨rest, stripped⟩ := Option.isSome_iff_exists.1 listed
  have whole := Text.stripPrefix_eq_some.1 stripped
  have parts : Text.split '/' (withSlashes name) =
      Text.split '/' (cleanPath path) ++ Text.split '/' rest := by
    rw [whole, folderPrefix, String.append_assoc, split_append]
  have climb := safe.1
  rw [parts, List.mem_append, not_or] at climb
  have folder : ".." ∉ Text.split '/' (folderName path) := by
    rw [split_folderName, List.mem_singleton]
    intro dots
    rcases folderName_eq path with same | ⟨there, -⟩
    · rw [same] at dots
      exact absurd dots (by decide)
    · exact climb.1 (dots ▸ there)
  have entry : zipEntryName path name = folderName path ++ ("/" ++ rest) := by
    simp [zipEntryName, relPath, stripped, String.append_assoc]
  have below : ".." ∉ Text.split '/' (zipEntryName path name) := by
    rw [entry, split_append, List.mem_append, not_or]
    exact ⟨folder, climb.2⟩
  have relative := not_isAbsolute_folderName path ""
  rw [String.append_empty] at relative
  refine ⟨_, FilePath.components (Text.split '/' rest), extractedTo_eq folder relative, ?_⟩
  rw [extractedTo_eq below (by rw [entry]; exact not_isAbsolute_folderName path _), entry,
    split_append]
  simp [FilePath.components]

/-- Accepted names stay safe once their separators are normalised, and the archives of shared
folders with them, exactly if no backslash hides two dots or an absolute path. -/
theorem accepted_names_stay_safe_iff (names : List String)
    (accepted : ∀ name ∈ names, validateLogicalName name = .ok ()) :
    ((∀ name ∈ names, SafeNormalised name) ∧
      ∀ path, ∀ entry ∈ zipEntryNames path names, StaysBelow (folderName path) entry) ↔
      ∀ name ∈ names, NoHiddenClimb name := by
  constructor
  · intro h name there
    exact (safeNormalised_iff (accepted name there)).1 (h.1 name there)
  · intro h
    have safe name (there : name ∈ names) :=
      (safeNormalised_iff (accepted name there)).2 (h name there)
    refine ⟨safe, fun path entry there => ?_⟩
    obtain ⟨name, found, same⟩ := List.mem_map.1 there
    obtain ⟨there, listed⟩ := List.mem_filter.1 found
    rw [← same]
    exact staysBelow_of_safe (safe name there) listed

theorem accepted_names_stay_safe_report :
    (∀ name ∈ ["docs/a\\b.txt"], SafeNormalised name) ∧
      ∀ path, ∀ entry ∈ zipEntryNames path ["docs/a\\b.txt"],
        StaysBelow (folderName path) entry :=
  (accepted_names_stay_safe_iff ["docs/a\\b.txt"] (by decide)).2 (by decide)

/-- Below a shared folder `a`, the accepted name `a\..\..\x` climbs out of it. -/
theorem accepted_name_climbs :
    ¬ ∀ name, validateLogicalName name = .ok () → SafeNormalised name ∧
      ∀ path, ∀ entry ∈ zipEntryNames path [name], StaysBelow (folderName path) entry := by
  intro all
  obtain ⟨-, below⟩ := all "a\\..\\..\\x" (by decide)
  obtain ⟨place, rest, -, there⟩ := below "a" "a/../../x" (by decide)
  have outside : extractedTo "a/../../x" = none := by decide
  rw [outside] at there
  cases there

end OosLite
