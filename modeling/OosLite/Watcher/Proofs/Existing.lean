import OosLite.Watcher.Proofs.PathNames

/-!
# Names of existing paths

Whether the path of a name is above the path of another one when the names say so. They do unless
the upper name has a backslash or ends in a separator.
-/

namespace OosLite

open Files (IoError)

namespace FilePath

/-- A path that ends in a component. -/
def EndsInName (p : FilePath) : Prop := ∃ part, p.getLast? = some part ∧ isNoise part = false

/-- A name whose path the watcher calls by this name. -/
structure Exact (name : String) : Prop where
  plain : '\\' ∉ name.toList
  ends : EndsInName (Text.split '/' name)

/-! ## The parts of a text -/

theorem mem_text_of_mem {p : FilePath} {part : String} (there : part ∈ p) {c : Char}
    (h : c ∈ part.toList) : c ∈ (text p).toList := by
  unfold text
  rw [String.toList_ofList]
  induction p with
  | nil => cases there
  | cons first rest ih =>
    cases rest with
    | nil =>
      rw [List.mem_singleton.1 there] at h
      simpa using h
    | cons next rest =>
      simp only [List.map_cons] at ih ⊢
      rw [List.intercalate_cons_cons, List.append_assoc, List.mem_append, List.mem_append]
      rcases List.mem_cons.1 there with rfl | there
      · exact .inl h
      · exact .inr (.inr (ih there))

theorem plain_split {name : String} (plain : '\\' ∉ name.toList) : Plain (Text.split '/' name) := by
  intro part there backslash
  apply plain
  rw [← text_split name]
  exact mem_text_of_mem there backslash

/-- Parts without separators are the parts of their text. -/
theorem split_text_of_not_mem {p : FilePath} (parts : ∀ part ∈ p, '/' ∉ part.toList)
    (nonempty : p ≠ []) : Text.split '/' (text p) = p := by
  unfold text Text.split
  rw [String.toList_ofList, List.splitOn_intercalate, List.map_map]
  · have same : (String.ofList ∘ String.toList) = id := by
      funext s
      simp
    rw [same, List.map_id]
  · intro cs there
    obtain ⟨part, there', rfl⟩ := List.mem_map.1 there
    exact parts part there'
  · simpa using nonempty

/-! ## What is left of a path below another one -/

theorem components_append (p q : FilePath) : (p ++ q).components = p.components ++ q.components := by
  unfold components
  rw [List.filter_append]

theorem components_of_noise {p : FilePath} (h : ∀ part ∈ p, isNoise part = true) :
    p.components = [] := by
  unfold components
  rw [List.filter_eq_nil_iff]
  intro part there
  simp [h part there]

theorem components_dropWhile (p : FilePath) :
    components (p.dropWhile isNoise) = p.components := by
  have front : components (p.takeWhile isNoise) = [] := by
    apply components_of_noise
    intro part there
    exact List.all_eq_true.1 List.all_takeWhile part there
  have whole := components_append (p.takeWhile isNoise) (p.dropWhile isNoise)
  rw [List.takeWhile_append_dropWhile, front, List.nil_append] at whole
  exact whole.symm

theorem components_reverse (p : FilePath) : components p.reverse = p.components.reverse := by
  unfold components
  rw [List.filter_reverse]

@[simp] theorem components_trimNoise (p : FilePath) : p.trimNoise.components = p.components := by
  unfold trimNoise
  rw [components_reverse, components_dropWhile, components_reverse, components_dropWhile,
    List.reverse_reverse]

theorem components_dropComponents (n : Nat) (p : FilePath) :
    (p.dropComponents n).components = p.components.drop n := by
  induction p generalizing n with
  | nil => cases n <;> rfl
  | cons part rest ih =>
    cases n with
    | zero => rfl
    | succ n =>
      unfold dropComponents
      by_cases noise : isNoise part
      · rw [if_pos noise, ih]
        unfold components
        simp [noise]
      · rw [if_neg noise, ih]
        unfold components
        simp [noise]

theorem mem_of_mem_trimNoise {p : FilePath} {part : String} (h : part ∈ p.trimNoise) : part ∈ p := by
  unfold trimNoise at h
  have h := (List.dropWhile_sublist _).subset (List.mem_reverse.1 h)
  exact (List.dropWhile_sublist _).subset (List.mem_reverse.1 h)

theorem dropComponents_suffix (n : Nat) (p : FilePath) : p.dropComponents n <:+ p := by
  induction p generalizing n with
  | nil => cases n <;> exact List.suffix_rfl
  | cons part rest ih =>
    cases n with
    | zero => exact List.suffix_rfl
    | succ n =>
      unfold dropComponents
      split
      · exact (ih (n + 1)).trans (List.suffix_cons part rest)
      · exact (ih n).trans (List.suffix_cons part rest)

/-- What is left below a directory comes from what was put below it, and from noise. -/
theorem mem_dropComponents (root p : FilePath) {part : String}
    (h : part ∈ (root ++ p).dropComponents root.components.length) :
    part ∈ p ∨ isNoise part = true := by
  induction root with
  | nil =>
    have same : dropComponents 0 p = p := by cases p <;> rfl
    exact .inl (same ▸ h)
  | cons first rest ih =>
    by_cases noise : isNoise first
    · have same : components (first :: rest) = components rest := by
        unfold components
        simp [noise]
      rw [same] at h
      cases length : (components rest).length with
      | zero =>
        rw [length] at h
        have rest_noise : ∀ part ∈ rest, isNoise part = true := by
          have empty := List.eq_nil_of_length_eq_zero length
          unfold components at empty
          rw [List.filter_eq_nil_iff] at empty
          intro part there
          simpa using empty part there
        have h : part ∈ first :: (rest ++ p) := h
        rw [List.mem_cons, List.mem_append] at h
        rcases h with rfl | there | there
        · exact .inr noise
        · exact .inr (rest_noise part there)
        · exact .inl there
      | succ n =>
        apply ih
        rw [length] at h ⊢
        rw [List.cons_append, dropComponents, if_pos noise] at h
        exact h
    · have same : components (first :: rest) = first :: components rest := by
        unfold components
        simp [noise]
      rw [same, List.length_cons, List.cons_append, dropComponents, if_neg noise] at h
      exact ih h

theorem trimNoise_head {p : FilePath} {part : String} {rest : FilePath}
    (h : p.trimNoise = part :: rest) : isNoise part = false := by
  unfold trimNoise at h
  generalize front : p.dropWhile isNoise = q at h
  have whole : ∃ noise, q = part :: rest ++ noise := by
    refine ⟨(q.reverse.takeWhile isNoise).reverse, ?_⟩
    rw [← h, ← List.reverse_append, List.takeWhile_append_dropWhile, List.reverse_reverse]
  obtain ⟨noise, rfl⟩ := whole
  have head := List.head?_dropWhile_not isNoise p
  rw [front] at head
  simpa using head

end FilePath

open FilePath

/-- What is on disk, and what the file system tells of it: a path that is not found is not there,
and nothing is there without what is above it. Every call may fail for other reasons. -/
structure Host.ShowsDisk (host : Host) (onDisk : FilePath → Prop) : Prop where
  found : ∀ p metadata, host.metadata p = .ok metadata → onDisk p
  gone : ∀ p, host.symlinkMetadata p = .error .notFound →
    host.metadata p = .error .notFound ∧ ¬ onDisk p
  above : ∀ p q, onDisk p → q.components <+: p.components → EndsInName q → onDisk q

namespace FilePath

theorem getLast?_join (root : FilePath) {name : String} (ends : EndsInName (Text.split '/' name)) :
    EndsInName (root.join name) := by
  obtain ⟨part, last, noise⟩ := ends
  refine ⟨part, ?_, noise⟩
  unfold join
  split
  · rename_i first rest parts
    rw [parts] at last
    simpa using last
  · rw [List.getLast?_append, last]
    rfl

/-- Only a text that begins with a separator replaces the path that it is joined to. -/
theorem join_of_split {root : FilePath} {name part : String} {rest : FilePath}
    (parts : Text.split '/' name = part :: rest) (noise : isNoise part = false) :
    root.join name = root ++ part :: rest := by
  have named : part ≠ "" := by
    intro same
    rw [same] at noise
    cases noise
  unfold join
  rw [parts]
  split
  · rename_i same
    cases same
    exact absurd rfl named
  · rfl

/-- What is below a name is below its path. -/
theorem prefix_join_of_suffixOf {root p : FilePath} {name : String}
    (parts : ∀ part ∈ p, '/' ∉ part.toList) {part : String} {rest : FilePath}
    (front : p = part :: rest) (noise : isNoise part = false)
    (below : (suffixOf (text p) name).isSome) :
    root.components ++ p.components <+: (root.join name).components := by
  have split := split_text_of_not_mem parts (by rw [front]; exact List.cons_ne_nil _ _)
  have named : text p ≠ "" := by
    intro empty
    have only : p = [""] := by
      rw [← split, empty]
      rfl
    rw [front] at only
    cases only
    cases noise
  have tail : ∃ tail, Text.split '/' name = p ++ tail := by
    unfold suffixOf at below
    rw [if_neg named] at below
    split at below
    · rename_i same
      exact ⟨[], by rw [same, split, List.append_nil]⟩
    · obtain ⟨suffix, below⟩ := Option.isSome_iff_exists.1 below
      obtain ⟨rest, first, second⟩ := Option.bind_eq_some_iff.1 below
      rw [Text.stripPrefix_eq_some] at first second
      exact ⟨Text.split '/' suffix, by rw [first, second, Text.split_append, split]⟩
  obtain ⟨tail, whole⟩ := tail
  rw [@join_of_split _ _ part (rest ++ tail) (by rw [whole, front]; rfl) noise]
  refine ⟨components tail, ?_⟩
  rw [← components_append, ← components_append, front]
  simp

end FilePath

/-- A name that is exact has its path above the paths of the names below its logical name, unless
its path is that of the watched directory. -/
theorem Worker.above_of_exact {w : Worker} {name name' f : String} (exact : Exact name)
    (named : w.logicalName (w.config.watchDir.join name) = some f)
    (below : (suffixOf f name').isSome) :
    (w.config.watchDir.join name).components <+: (w.config.watchDir.join name').components ∨
      (w.config.watchDir.join name).components = w.config.watchDir.components := by
  unfold Worker.logicalName at named
  generalize w.config.watchDir = root at *
  generalize path : root.join name = p at *
  obtain ⟨rel, stripped, rfl⟩ := Option.map_eq_some_iff.1 named
  unfold stripPrefix at stripped
  split at stripped
  · rename_i inside
    cases stripped
    unfold startsWith at inside
    rw [List.isPrefixOf_iff_prefix] at inside
    have comps : p.components = root.components ++
        (trimNoise (p.dropComponents root.components.length)).components := by
      rw [components_trimNoise, components_dropComponents]
      exact List.prefix_append_drop inside
    have parts : ∀ part ∈ trimNoise (p.dropComponents root.components.length),
        part ∈ Text.split '/' name ∨ isNoise part = true := by
      intro part there
      have there := mem_of_mem_trimNoise there
      unfold join at path
      split at path
      · rename_i first rest split
        rw [split]
        have there := (dropComponents_suffix _ _).subset there
        rw [← path] at there
        exact .inl (List.mem_cons_of_mem _ there)
      · rw [← path] at there
        exact mem_dropComponents root _ there
    generalize trimmed : trimNoise (p.dropComponents root.components.length) = rel at *
    cases rel with
    | nil =>
      apply Or.inr
      rw [comps]
      exact List.append_nil _
    | cons part rest =>
      apply Or.inl
      have noise := trimNoise_head trimmed
      have plain : Plain (part :: rest) := by
        intro part' there backslash
        rcases parts part' there with there | noise
        · exact plain_split exact.plain part' there backslash
        · unfold isNoise at noise
          rcases by simpa using noise with rfl | rfl
          · simp at backslash
          · simp at backslash
      rw [withSlashes_text plain] at below
      rw [comps]
      apply prefix_join_of_suffixOf _ rfl noise below
      intro part' there slash
      rcases parts part' there with there | noise
      · exact Text.not_mem_split there slash
      · unfold isNoise at noise
        rcases by simpa using noise with rfl | rfl
        · simp at slash
        · simp at slash
  · cases stripped

end OosLite
