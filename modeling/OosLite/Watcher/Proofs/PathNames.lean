import OosLite.Watcher.Worker
import OosLite.Lib.FileTree

/-!
# The names of paths

Paths made of file names, which their logical names determine: moving a name below another one is
moving the path.
-/

namespace OosLite

open FileTree (IsFileName)

namespace FilePath

/-- A path made of file names. -/
def Normal (p : FilePath) : Prop := ∀ name ∈ p, IsFileName name

/-- A path without backslashes. -/
def Plain (p : FilePath) : Prop := ∀ name ∈ p, '\\' ∉ name.toList

instance (p : FilePath) : Decidable (Normal p) := inferInstanceAs (Decidable (∀ name ∈ p, _))

instance (p : FilePath) : Decidable (Plain p) := inferInstanceAs (Decidable (∀ name ∈ p, _))

theorem Normal.append {p q : FilePath} : Normal (p ++ q) ↔ Normal p ∧ Normal q :=
  List.forall_mem_append

theorem Plain.append {p q : FilePath} : Plain (p ++ q) ↔ Plain p ∧ Plain q :=
  List.forall_mem_append

theorem isNoise_of_isFileName {name : String} (h : IsFileName name) : isNoise name = false := by
  simp [isNoise, h.1, h.2.1]

theorem Normal.components {p : FilePath} (h : Normal p) : p.components = p := by
  unfold FilePath.components
  rw [List.filter_eq_self]
  intro name there
  rw [isNoise_of_isFileName (h name there)]
  rfl

theorem dropWhile_isNoise {p : FilePath} (h : Normal p) : p.dropWhile isNoise = p := by
  cases p with
  | nil => rfl
  | cons name rest => simp [isNoise_of_isFileName (h name List.mem_cons_self)]

theorem Normal.trimNoise {p : FilePath} (h : Normal p) : p.trimNoise = p := by
  have back : Normal p.reverse := by
    intro name there
    exact h name (List.mem_reverse.1 there)
  unfold FilePath.trimNoise
  rw [dropWhile_isNoise h, dropWhile_isNoise back, List.reverse_reverse]

theorem Normal.dropComponents {root p : FilePath} (h : Normal root) :
    (root ++ p).dropComponents root.length = p := by
  induction root with
  | nil => cases p <;> rfl
  | cons name rest ih =>
    have noise := isNoise_of_isFileName (h name List.mem_cons_self)
    rw [List.cons_append, List.length_cons, FilePath.dropComponents, noise, if_neg (by simp)]
    exact ih fun name' there => h name' (List.mem_cons_of_mem _ there)

theorem Normal.startsWith {p root : FilePath} (hp : Normal p) (hroot : Normal root) :
    p.startsWith root = true ↔ root <+: p := by
  unfold FilePath.startsWith
  rw [hp.components, hroot.components, List.isPrefixOf_iff_prefix]

theorem Normal.stripPrefix {root p : FilePath} (hroot : Normal root) (hp : Normal p) :
    (root ++ p).stripPrefix root = some p := by
  have front := (Normal.startsWith (Normal.append.2 ⟨hroot, hp⟩) hroot).2 (List.prefix_append root p)
  unfold FilePath.stripPrefix
  rw [if_pos front, hroot.components, hroot.dropComponents, hp.trimNoise]

/-! ## Texts -/

@[simp] theorem text_nil : text [] = "" := rfl

theorem text_split (s : String) : text (Text.split '/' s) = s := by
  unfold text Text.split
  rw [List.map_map]
  have same : (String.toList ∘ String.ofList) = id := by
    funext cs
    simp
  rw [same, List.map_id, List.intercalate_splitOn, String.ofList_toList]

theorem split_text {p : FilePath} (h : Normal p) (nonempty : p ≠ []) :
    Text.split '/' (text p) = p := by
  unfold text Text.split
  rw [String.toList_ofList, List.splitOn_intercalate, List.map_map]
  · have same : (String.ofList ∘ String.toList) = id := by
      funext s
      simp
    rw [same, List.map_id]
  · intro cs there
    obtain ⟨name, there', rfl⟩ := List.mem_map.1 there
    exact (h name there').2.2.2
  · simpa using nonempty

theorem text_ne_empty {p : FilePath} (h : Normal p) (nonempty : p ≠ []) : text p ≠ "" := by
  intro same
  have parts := split_text h nonempty
  rw [same] at parts
  have only : p = [""] := by
    rw [← parts]
    rfl
  exact (h "" (by rw [only]; exact List.mem_singleton_self _)).1 rfl

theorem text_injective {p q : FilePath} (hp : Normal p) (hq : Normal q) (h : text p = text q) :
    p = q := by
  by_cases nonempty : p = []
  · subst nonempty
    by_cases nonempty' : q = []
    · exact nonempty'.symm
    · exact absurd h.symm (text_ne_empty hq nonempty')
  · by_cases nonempty' : q = []
    · subst nonempty'
      exact absurd h (text_ne_empty hp nonempty)
    · rw [← split_text hp nonempty, h, split_text hq nonempty']

theorem text_append {p q : FilePath} (hp : p ≠ []) (hq : q ≠ []) :
    text (p ++ q) = text p ++ "/" ++ text q := by
  unfold text
  rw [← String.toList_inj]
  simp only [String.toList_ofList, String.toList_append, List.map_append]
  induction p with
  | nil => exact absurd rfl hp
  | cons name rest ih =>
    cases rest with
    | nil =>
      cases q with
      | nil => exact absurd rfl hq
      | cons part parts => simp [List.intercalate_cons_cons]
    | cons next rest =>
      have ih := ih (List.cons_ne_nil _ _)
      simp only [List.map_cons, List.cons_append] at ih ⊢
      rw [List.intercalate_cons_cons, ih, List.intercalate_cons_cons]
      simp

/-- A name is a prefix or is below it exactly if its path is. -/
theorem suffixOf_text {a p : FilePath} (ha : Normal a) (hp : Normal p) (nonempty : a ≠ [])
    (nonempty' : p ≠ []) (suffix : String) :
    suffixOf (text a) (text p) = some suffix ↔ ∃ q, p = a ++ q ∧ suffix = text q := by
  unfold suffixOf
  rw [if_neg (text_ne_empty ha nonempty)]
  by_cases same : text p = text a
  · rw [if_pos same]
    have same := text_injective hp ha same
    subst same
    constructor
    · intro h
      cases h
      exact ⟨[], by simp, rfl⟩
    · intro h
      obtain ⟨q, same, rfl⟩ := h
      rw [List.self_eq_append_right.1 same]
      rfl
  · rw [if_neg same, Option.bind_eq_some_iff]
    constructor
    · intro h
      obtain ⟨rest, front, back⟩ := h
      rw [Text.stripPrefix_eq_some] at front back
      refine ⟨Text.split '/' suffix, ?_, (text_split suffix).symm⟩
      rw [← split_text hp nonempty', front, back, Text.split_append, split_text ha nonempty]
    · intro h
      obtain ⟨q, rfl, rfl⟩ := h
      have below : q ≠ [] := by
        intro none
        subst none
        exact same (by rw [List.append_nil])
      refine ⟨"/" ++ text q, ?_, ?_⟩
      · rw [Text.stripPrefix_eq_some, text_append nonempty below, String.append_assoc]
      · rw [Text.stripPrefix_eq_some]

theorem underPrefix_text {b q : FilePath} (hb : Normal b) (hq : Normal q) (nonempty : b ≠ []) :
    underPrefix (text b) (text q) = text (b ++ q) := by
  unfold underPrefix
  by_cases below : q = []
  · subst below
    simp
  · rw [if_neg (text_ne_empty hq below), if_neg (text_ne_empty hb nonempty),
      text_append nonempty below]

/-! ## Logical names -/

theorem mem_text {p : FilePath} {c : Char} (h : c ∈ (text p).toList) :
    c = '/' ∨ ∃ name ∈ p, c ∈ name.toList := by
  unfold text at h
  rw [String.toList_ofList] at h
  induction p with
  | nil => simp at h
  | cons name rest ih =>
    cases rest with
    | nil => exact .inr ⟨name, List.mem_cons_self, by simpa using h⟩
    | cons next rest =>
      simp only [List.map_cons] at h ih
      rw [List.intercalate_cons_cons, List.append_assoc, List.mem_append, List.mem_append] at h
      rcases h with h | h | h
      · exact .inr ⟨name, List.mem_cons_self, h⟩
      · exact .inl (List.mem_singleton.1 h)
      · rcases ih h with slash | ⟨name', there, h⟩
        · exact .inl slash
        · exact .inr ⟨name', List.mem_cons_of_mem _ there, h⟩

theorem withSlashes_text {p : FilePath} (h : Plain p) : withSlashes (text p) = text p := by
  have same : ∀ c ∈ (text p).toList, (if c = '\\' then '/' else c) = c := by
    intro c there
    rw [if_neg]
    intro backslash
    subst backslash
    rcases mem_text there with slash | ⟨name, there, h'⟩
    · cases slash
    · exact h name there h'
  unfold withSlashes
  rw [List.map_congr_left same, List.map_id', String.ofList_toList]

end FilePath

open FilePath

/-- The logical name of a path below the watched directory. -/
theorem Worker.logicalName_append {w : Worker} {p : FilePath} (root : Normal w.config.watchDir)
    (normal : Normal p) (plain : Plain p) :
    w.logicalName (w.config.watchDir ++ p) = some (text p) := by
  unfold Worker.logicalName
  rw [Normal.stripPrefix root normal, Option.map_some, withSlashes_text plain]

end OosLite
