import Mathlib.Data.List.Basic
import Mathlib.Data.List.Infix
import Mathlib.Data.List.Nodup

/-!
# Directory trees

A tree of directories and files, by what is at each path, and what renaming a path does to it: the
path and everything below it is found elsewhere afterwards.
-/

namespace FileTree

/-- What is at a path. -/
inductive Node (φ : Type) where
  | dir
  | file (f : φ)
  deriving DecidableEq

/-- A name in a directory. -/
def IsFileName (name : String) : Prop := name ≠ "" ∧ name ≠ "." ∧ name ≠ ".." ∧ '/' ∉ name.toList

instance (name : String) : Decidable (IsFileName name) := inferInstanceAs (Decidable (_ ∧ _))

/-- A directory tree: everything is in a directory, under a name. -/
structure DirTree (φ : Type) where
  entry : List String → Option (Node φ)
  root : entry [] = some .dir
  parent : ∀ p name, entry (p ++ [name]) ≠ none → entry p = some .dir
  named : ∀ p name, entry (p ++ [name]) ≠ none → IsFileName name

variable {φ : Type}

namespace DirTree

theorem above (t : DirTree φ) {p q : List String} (there : t.entry (p ++ q) ≠ none) (below : q ≠ []) :
    t.entry p = some .dir := by
  induction q using List.reverseRecOn with
  | nil => exact absurd rfl below
  | append_singleton q name ih =>
    rw [← List.append_assoc] at there
    have dir := t.parent _ _ there
    cases q with
    | nil => simpa using dir
    | cons part rest => exact ih (by simp [dir]) (List.cons_ne_nil _ _)

/-- Nothing is below a file. -/
theorem below_file (t : DirTree φ) {p : List String} {f : φ} (h : t.entry p = some (.file f))
    {q : List String} (below : q ≠ []) : t.entry (p ++ q) = none := by
  apply Classical.byContradiction
  intro there
  have dir := t.above there below
  rw [h] at dir
  cases dir

theorem isFileName (t : DirTree φ) {p : List String} (there : t.entry p ≠ none) :
    ∀ name ∈ p, IsFileName name := by
  induction p using List.reverseRecOn with
  | nil => simp
  | append_singleton p name ih =>
    intro name' h
    rcases List.mem_append.1 h with h | h
    · exact ih (by simp [t.parent _ _ there]) name' h
    · rw [List.mem_singleton.1 h]
      exact t.named _ _ there

theorem ne_nil_of_file (t : DirTree φ) {p : List String} {f : φ} (h : t.entry p = some (.file f)) :
    p ≠ [] := by
  intro same
  rw [same, t.root] at h
  cases h

end DirTree

/-- What a rename may replace: nothing, a file by a file, or an empty directory by a directory. -/
def Replaceable (t : DirTree φ) (source target : List String) : Prop :=
  t.entry target = none ∨
    (∃ f g, t.entry source = some (.file f) ∧ t.entry target = some (.file g)) ∨
    (t.entry source = some .dir ∧ t.entry target = some .dir ∧
      ∀ q, q ≠ [] → t.entry (target ++ q) = none)

/-- A rename that succeeds, of a path that is not the root, to another place that is not below it or
to where it is. -/
structure Renames (t : DirTree φ) (source target : List String) (t' : DirTree φ) : Prop where
  there : t.entry source ≠ none
  notRoot : source ≠ []
  free : source = target ∨ ¬ source <+: target ∧ Replaceable t source target
  moved : ∀ q, t'.entry (target ++ q) = t.entry (source ++ q)
  left : ∀ p, ¬ target <+: p → source <+: p → t'.entry p = none
  kept : ∀ p, ¬ target <+: p → ¬ source <+: p → t'.entry p = t.entry p

namespace Renames

variable {t t' : DirTree φ} {source target : List String}

/-- The target does not lie above the source. -/
theorem target_not_above (h : Renames t source target t') (moves : source ≠ target) :
    ¬ target <+: source := by
  intro above
  obtain ⟨q, same⟩ := above
  have below : q ≠ [] := by
    intro none
    rw [none, List.append_nil] at same
    exact moves same.symm
  have there : t.entry (target ++ q) ≠ none := same ▸ h.there
  have dir := t.above there below
  rcases h.free with stays | ⟨_, free⟩
  · exact moves stays
  · rcases free with none | ⟨f, g, _, file⟩ | ⟨_, _, empty⟩
    · rw [dir] at none
      cases none
    · rw [dir] at file
      cases file
    · exact there (empty q below)

/-- Nothing is left below the source. -/
theorem source_empty (h : Renames t source target t') (moves : source ≠ target) (q : List String) :
    t'.entry (source ++ q) = none := by
  apply h.left _ _ (List.prefix_append _ _)
  intro above
  rcases List.prefix_or_prefix_of_prefix above (List.prefix_append source q) with above | below
  · exact h.target_not_above moves above
  · rcases h.free with stays | ⟨notBelow, _⟩
    · exact moves stays
    · exact notBelow below

/-- A file at or below the target is replaced by a file from the source. -/
theorem replaced (h : Renames t source target t') {q : List String} {g : φ}
    (file : t.entry (target ++ q) = some (.file g)) :
    ∃ f, t'.entry (target ++ q) = some (.file f) := by
  rw [h.moved]
  rcases h.free with stays | ⟨_, none | ⟨f, g', source, target⟩ | ⟨_, dir, empty⟩⟩
  · rw [stays]
    exact ⟨g, file⟩
  · cases q with
    | nil =>
      rw [List.append_nil, none] at file
      cases file
    | cons part rest =>
      have dir := t.above (p := target) (by rw [file]; simp) (List.cons_ne_nil part rest)
      rw [none] at dir
      cases dir
  · cases q with
    | nil => exact ⟨f, by simpa using source⟩
    | cons part rest =>
      rw [t.below_file target (List.cons_ne_nil _ _)] at file
      cases file
  · cases q with
    | nil =>
      rw [List.append_nil, dir] at file
      cases file
    | cons part rest =>
      rw [empty _ (List.cons_ne_nil _ _)] at file
      cases file

/-- Every file was somewhere before. -/
theorem file_from (h : Renames t source target t') {p : List String} {f : φ}
    (file : t'.entry p = some (.file f)) : ∃ q, t.entry q = some (.file f) := by
  by_cases below : target <+: p
  · obtain ⟨q, rfl⟩ := below
    rw [h.moved] at file
    exact ⟨source ++ q, file⟩
  · by_cases gone : source <+: p
    · rw [h.left p below gone] at file
      cases file
    · rw [h.kept p below gone] at file
      exact ⟨p, file⟩

end Renames

/-! ## A tree that has been renamed -/

/-- A rename that can be made: to a free place in a directory that is not the source or below it. -/
structure CanRename (t : DirTree φ) (source target : List String) : Prop where
  there : t.entry source ≠ none
  notRoot : source ≠ []
  free : ¬ source <+: target ∧ Replaceable t source target
  place : ∃ p name, target = p ++ [name] ∧ t.entry p = some .dir ∧ IsFileName name

section Renamed

variable {t : DirTree φ} {source target : List String}

/-- What is at a path after the rename. -/
def renamedEntry (t : DirTree φ) (source target p : List String) : Option (Node φ) :=
  if target.isPrefixOf p then t.entry (source ++ p.drop target.length)
  else if source.isPrefixOf p then none
  else t.entry p

theorem renamedEntry_below (q : List String) :
    renamedEntry t source target (target ++ q) = t.entry (source ++ q) := by
  simp [renamedEntry]

theorem renamedEntry_gone {p : List String} (away : ¬ target <+: p) (below : source <+: p) :
    renamedEntry t source target p = none := by
  rw [renamedEntry, if_neg (mt List.isPrefixOf_iff_prefix.1 away),
    if_pos (List.isPrefixOf_iff_prefix.2 below)]

theorem renamedEntry_other {p : List String} (away : ¬ target <+: p) (other : ¬ source <+: p) :
    renamedEntry t source target p = t.entry p := by
  rw [renamedEntry, if_neg (mt List.isPrefixOf_iff_prefix.1 away),
    if_neg (mt List.isPrefixOf_iff_prefix.1 other)]

/-- A path in a directory of the renamed tree: the new place, a path below it, or one that has been
there before. -/
theorem renamedEntry_cases {p : List String} {name : String}
    (there : renamedEntry t source target (p ++ [name]) ≠ none) :
    target = p ++ [name] ∨
      (∃ q, p = target ++ q ∧ t.entry (source ++ q ++ [name]) ≠ none) ∨
      ¬ target <+: p ∧ ¬ source <+: p ∧ t.entry (p ++ [name]) ≠ none := by
  by_cases below : target <+: p ++ [name]
  · rcases List.prefix_concat_iff.1 below with same | ⟨q, rfl⟩
    · exact .inl same
    · rw [List.append_assoc, renamedEntry_below] at there
      exact .inr (.inl ⟨q, rfl, by rwa [List.append_assoc]⟩)
  · by_cases gone : source <+: p ++ [name]
    · exact absurd (renamedEntry_gone below gone) there
    · rw [renamedEntry_other below gone] at there
      have longer : p <+: p ++ [name] := List.prefix_append _ _
      exact .inr (.inr ⟨fun h => below (h.trans longer), fun h => gone (h.trans longer), there⟩)

/-- The tree after the rename. -/
def DirTree.renamed (t : DirTree φ) (can : CanRename t source target) : DirTree φ where
  entry := renamedEntry t source target
  root := by
    obtain ⟨p, name, rfl, -⟩ := can.place
    rw [renamedEntry_other (by simp) (by simp [can.notRoot]), t.root]
  parent := by
    intro p name there
    rcases renamedEntry_cases there with same | ⟨q, rfl, below⟩ | ⟨away, other, before⟩
    · obtain ⟨p', name', rfl, dir, -⟩ := can.place
      obtain ⟨rfl, -⟩ := List.append_inj' same rfl
      have away : ¬ p' ++ [name'] <+: p' := fun h => absurd h.length_le (by simp)
      rw [renamedEntry_other away fun h => can.free.1 (h.trans (List.prefix_append _ _)), dir]
    · rw [renamedEntry_below]
      exact t.parent _ _ below
    · rw [renamedEntry_other away other]
      exact t.parent _ _ before
  named := by
    intro p name there
    rcases renamedEntry_cases there with same | ⟨q, rfl, below⟩ | ⟨-, -, before⟩
    · obtain ⟨p', name', rfl, -, proper⟩ := can.place
      obtain ⟨-, last⟩ := List.append_inj' same rfl
      rw [← List.cons.inj last |>.1]
      exact proper
    · exact t.named _ _ below
    · exact t.named _ _ before

/-- A rename that can be made leads to it. -/
theorem renames_renamed (can : CanRename t source target) : Renames t source target (t.renamed can) where
  there := can.there
  notRoot := can.notRoot
  free := .inr can.free
  moved q := renamedEntry_below q
  left _ away below := renamedEntry_gone away below
  kept _ away other := renamedEntry_other away other

end Renamed

/-! ## A tree from a list -/

/-- Every entry of a list is in a directory of the list, under a name. -/
def WellPlaced (entries : List (List String × Node φ)) : Prop :=
  ∀ e ∈ entries, e.1 ≠ [] ∧ IsFileName (e.1.getLast?.getD "") ∧
    (e.1.dropLast = [] ∨ (entries.find? fun e' => e'.1 = e.1.dropLast).map Prod.snd = some .dir)

instance [DecidableEq φ] (entries : List (List String × Node φ)) : Decidable (WellPlaced entries) :=
  inferInstanceAs (Decidable (∀ e ∈ entries, _ ∧ _ ∧ _))

/-- The tree with these entries. -/
def DirTree.ofList (entries : List (List String × Node φ)) (placed : WellPlaced entries) : DirTree φ where
  entry p := if p = [] then some .dir else (entries.find? fun e => e.1 = p).map Prod.snd
  root := rfl
  parent := by
    intro p name there
    rw [if_neg (by simp)] at there
    obtain ⟨n, there⟩ := Option.ne_none_iff_exists'.1 there
    obtain ⟨e, found, -⟩ := Option.map_eq_some_iff.1 there
    have same : e.1 = p ++ [name] := by simpa using List.find?_some found
    obtain ⟨-, -, above⟩ := placed e (List.mem_of_find?_eq_some found)
    rw [same, List.dropLast_concat] at above
    rcases above with root | dir
    · rw [if_pos root]
    · by_cases root : p = []
      · rw [if_pos root]
      · rw [if_neg root, dir]
  named := by
    intro p name there
    rw [if_neg (by simp)] at there
    obtain ⟨n, there⟩ := Option.ne_none_iff_exists'.1 there
    obtain ⟨e, found, -⟩ := Option.map_eq_some_iff.1 there
    have same : e.1 = p ++ [name] := by simpa using List.find?_some found
    obtain ⟨-, proper, -⟩ := placed e (List.mem_of_find?_eq_some found)
    rw [same] at proper
    simpa using proper

theorem DirTree.entry_ofList {entries : List (List String × Node φ)} {placed : WellPlaced entries}
    (distinct : (entries.map Prod.fst).Nodup) {p : List String} {f : φ} :
    (ofList entries placed).entry p = some (.file f) ↔ (p, .file f) ∈ entries := by
  unfold ofList
  simp only
  constructor
  · intro there
    split at there
    · cases there
    · obtain ⟨e, found, file⟩ := Option.map_eq_some_iff.1 there
      have same : e.1 = p := by simpa using List.find?_some found
      rw [← same, ← file]
      exact List.mem_of_find?_eq_some found
  · intro there
    rw [if_neg (placed _ there).1]
    cases found : entries.find? fun e => e.1 = p with
    | none => simpa using List.find?_eq_none.1 found _ there
    | some e =>
      have same : e.1 = p := by simpa using List.find?_some found
      have one := List.inj_on_of_nodup_map distinct (List.mem_of_find?_eq_some found) there same
      rw [one]
      rfl

end FileTree
