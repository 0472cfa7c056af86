import OosLite.Engine.Names

/-!
# Accepted names

What `validate_logical_name` asks of a name, in terms of its parts.
-/

namespace OosLite

theorem forM_validateComponent_eq_ok {name : String} {components : List Component} :
    components.forM (validateComponent name) = .ok () ↔
      ∀ component ∈ components, validateComponent name component = .ok () := by
  induction components with
  | nil => simp [pure, Except.pure]
  | cons first rest ih =>
    show (validateComponent name first >>= fun _ => rest.forM (validateComponent name)) = _ ↔ _
    rw [Result.bind_eq_ok, List.forall_mem_cons, ← ih]
    exact ⟨fun ⟨_, h⟩ => h, fun h => ⟨(), h⟩⟩

/-- A component passes exactly if it neither climbs nor begins at the root nor names a device. -/
theorem validateComponent_eq_ok {name : String} {component : Component} :
    validateComponent name component = .ok () ↔ component ≠ .parentDir ∧ component ≠ .rootDir ∧
      ∀ text, component = .normal text → stem text ∉ dosDevices := by
  cases component with
  | rootDir => simp [validateComponent]
  | curDir => simp [validateComponent]
  | parentDir => simp [validateComponent]
  | normal text =>
    by_cases device : stem text ∈ dosDevices
    · simp [validateComponent, device]
    · simp [validateComponent, device]

theorem validateLogicalName_eq_ok {name : String} :
    validateLogicalName name = .ok () ↔
      Text.trim name ≠ "" ∧ ¬ (Text.trim name = "." ∨ Text.trim name = "..") ∧
        ¬ (Text.trim name).toList.any forbidden ∧
        (∀ component ∈ Component.ofPath (Text.trim name),
          validateComponent name component = .ok ()) ∧
        (Component.ofPath (Text.trim name)).any Component.isNormal := by
  rw [← forM_validateComponent_eq_ok, validateLogicalName]
  by_cases empty : Text.trim name = ""
  · simp [empty]
  by_cases dots : Text.trim name = "." ∨ Text.trim name = ".."
  · simp [empty, dots]
  by_cases bad : (Text.trim name).toList.any forbidden
  · simp [empty, dots, bad]
  rw [if_neg empty, if_neg dots, if_neg bad, Result.bind_eq_ok]
  by_cases normal : (Component.ofPath (Text.trim name)).any Component.isNormal
  · have unit : ∀ r : Result Unit, (∃ a, r = .ok a) ↔ r = .ok () :=
      fun r => ⟨fun ⟨(), h⟩ => h, fun h => ⟨(), h⟩⟩
    simp [empty, dots, bad, normal, pure, Except.pure, unit]
  · simp [empty, dots, bad, normal, throw, throwThe, MonadExceptOf.throw]

/-! ## The parts of an accepted name -/

section Accepted

variable {name : String} (accepted : validateLogicalName name = .ok ())

include accepted

theorem dots_not_mem_split_trim : ".." ∉ Text.split '/' (Text.trim name) := by
  intro there
  have passed := (validateLogicalName_eq_ok.1 accepted).2.2.2.1 .parentDir
    (List.mem_append_right _ (List.mem_filterMap.2 ⟨"..", there, rfl⟩))
  exact (validateComponent_eq_ok.1 passed).1 rfl

/-- White space around the name does not make two dots of a part. -/
theorem dots_not_mem_split : ".." ∉ Text.split '/' name := by
  intro there
  obtain ⟨part, there, same⟩ := List.mem_map.1 there
  obtain ⟨front, back, padded, before, after⟩ := Text.trimList_padded name.toList
  obtain rfl : part = ['.', '.'] := String.ofList_injective same
  have other : ∀ c, Text.isWhiteSpace c = true → c ≠ '/' ∧ c ∉ ['.', '.'] := by
    intro c white
    refine ⟨fun same => ?_, fun there => ?_⟩
    · subst same
      exact absurd white (by decide)
    · obtain rfl : c = '.' := by simpa using there
      exact absurd white (by decide)
  rw [padded] at there
  have there := Text.mem_splitOn_of_front (fun c hc => other c (before c hc)) there
  have there := Text.mem_splitOn_of_back (fun c hc => other c (after c hc)) there
  apply dots_not_mem_split_trim accepted
  refine List.mem_map.2 ⟨_, ?_, rfl⟩
  rw [Text.trim, String.toList_ofList]
  exact there

theorem head_ne_slash : name.toList.head? ≠ some '/' := by
  intro head
  obtain ⟨rest, same⟩ := List.head?_eq_some_iff.1 head
  have begins : (Text.trim name).toList.head? = some '/' := by
    obtain ⟨front, back, padded, before, -⟩ := Text.trimList_padded name.toList
    have nonempty := (validateLogicalName_eq_ok.1 accepted).1
    rw [Text.trim, String.toList_ofList]
    cases front with
    | nil =>
      cases core : Text.trimList name.toList with
      | nil => exact absurd (by rw [Text.trim, core]) nonempty
      | cons c cs =>
        rw [padded, core] at same
        rw [(List.cons.inj same).1]
        rfl
    | cons c front =>
      rw [padded] at same
      have white := before c List.mem_cons_self
      rw [(List.cons.inj same).1] at white
      exact absurd white (by decide)
  obtain ⟨rest, begins⟩ := List.head?_eq_some_iff.1 begins
  have root : Component.rootDir ∈ Component.ofPath (Text.trim name) := by
    have first : ∃ parts, Text.split '/' (Text.trim name) = "" :: parts := by
      rw [Text.split, begins, List.splitOn_cons_eq_if_modifyHead, if_pos (beq_self_eq_true '/')]
      exact ⟨_, rfl⟩
    obtain ⟨parts, first⟩ := first
    have nonempty := (validateLogicalName_eq_ok.1 accepted).1
    simp [Component.ofPath, first, nonempty]
  have passed := (validateLogicalName_eq_ok.1 accepted).2.2.2.1 _ root
  exact (validateComponent_eq_ok.1 passed).2.1 rfl

end Accepted

end OosLite
