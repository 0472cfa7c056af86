import OosLite.Lib.FileTree

/-!
# Writing into a directory tree

The operations by which a program leaves files in a tree of directories that is not its own. Each of
them may be refused, and a refused one may have done a part of its work.
-/

namespace FileTree

/-- What is at each path. -/
abbrev OutputTree (β : Type) := List String → Option (Node (List β))

inductive TreeOp (β : Type) where
  | createDirAll (p : List String)
  | openTruncate (p : List String)
  | write (p : List String) (data : List β)
  | sync (p : List String)
  | rename (source target : List String)
  | remove (p : List String)

namespace OutputTree

variable {β : Type} (t : OutputTree β)

/-- The content of the file at a path. -/
def fileAt (p : List String) : Option (List β) :=
  match t p with
  | some (.file c) => some c
  | _ => none

def isDir (p : List String) : Bool :=
  match t p with
  | some .dir => true
  | _ => false

/-- One path changed. -/
def put (p : List String) (node : Option (Node (List β))) : OutputTree β := fun q => if q = p then node else t q

/-- The missing directories on the way to a path. -/
def makeDirs (p : List String) : OutputTree β := fun q => if q <+: p ∧ (t q).isNone then some .dir else t q

/-- What an operation leaves if it can succeed. -/
def run : TreeOp β → Option (OutputTree β)
  | .createDirAll p =>
    if p.inits.all fun q => (t.fileAt q).isNone then some (t.makeDirs p) else none
  | .openTruncate p =>
    if p ≠ [] ∧ t.isDir p.dropLast ∧ ¬ t.isDir p then some (t.put p (some (.file []))) else none
  | .write p data => (t.fileAt p).map fun c => t.put p (some (.file (c ++ data)))
  | .sync _ => some t
  | .rename source target =>
    if source = [] ∨ target = [] ∨ t.isDir target then none
    else (t.fileAt source).map fun c => (t.put source none).put target (some (.file c))
  | .remove p => if p = [] then none else (t.fileAt p).map fun _ => t.put p none

/-- What an operation can leave that is refused. -/
def Refused (o : TreeOp β) (t' : OutputTree β) : Prop :=
  t' = t ∨ match o with
    | .createDirAll p => ∃ q, q <+: p ∧ t' = t.makeDirs q
    | .write p data => ∃ count, t.run (.write p (data.take count)) = some t'
    | _ => False

section Lemmas

variable {t} {p q : List String} {node : Option (Node (List β))} {t' : OutputTree β}

@[simp] theorem put_self : t.put p node p = node := if_pos rfl

theorem put_ne (h : q ≠ p) : t.put p node q = t q := if_neg h

theorem fileAt_eq_some {c : List β} : t.fileAt p = some c ↔ t p = some (.file c) := by
  unfold fileAt
  split
  · rename_i c' there
    rw [there]
    simp
  · rename_i other
    constructor
    · nofun
    · intro there
      exact absurd there (other c)

theorem fileAt_congr (h : t' q = t q) : t'.fileAt q = t.fileAt q := by
  unfold fileAt
  rw [h]

theorem makeDirs_file {c : List β} : t.makeDirs p q = some (.file c) ↔ t q = some (.file c) := by
  unfold makeDirs
  split
  · rename_i missing
    rw [Option.isNone_iff_eq_none.1 missing.2]
    simp
  · rfl

/-! ### What each operation leaves -/

theorem run_createDirAll (ran : t.run (.createDirAll p) = some t') : t' = t.makeDirs p := by
  rw [run] at ran
  split at ran
  · exact (Option.some.inj ran).symm
  · cases ran

theorem run_openTruncate (ran : t.run (.openTruncate p) = some t') :
    p ≠ [] ∧ t' = t.put p (some (.file [])) := by
  rw [run] at ran
  split at ran
  · rename_i free
    exact ⟨free.1, (Option.some.inj ran).symm⟩
  · cases ran

theorem run_write {data : List β} (ran : t.run (.write p data) = some t') :
    ∃ c, t p = some (.file c) ∧ t' = t.put p (some (.file (c ++ data))) := by
  obtain ⟨c, there, rfl⟩ := Option.map_eq_some_iff.1 ran
  exact ⟨c, fileAt_eq_some.1 there, rfl⟩

theorem run_rename (ran : t.run (.rename p q) = some t') : q ≠ [] ∧
    ∃ c, t p = some (.file c) ∧ t' = (t.put p none).put q (some (.file c)) := by
  rw [run] at ran
  split at ran
  · cases ran
  · rename_i free
    obtain ⟨c, there, rfl⟩ := Option.map_eq_some_iff.1 ran
    exact ⟨fun root => free (.inr (.inl root)), c, fileAt_eq_some.1 there, rfl⟩

theorem run_remove (ran : t.run (.remove p) = some t') : p ≠ [] ∧ t' = t.put p none := by
  rw [run] at ran
  split at ran
  · cases ran
  · rename_i nonempty
    obtain ⟨c, -, rfl⟩ := Option.map_eq_some_iff.1 ran
    exact ⟨nonempty, rfl⟩

theorem put_put (node node' : Option (Node (List β))) : (t.put p node).put p node' = t.put p node' := by
  funext q
  unfold put
  split <;> rfl

end Lemmas

/-! ## Directories on the way to a path -/

/-- Nothing has changed but that there are more directories on the way to `p`, and what is at the
paths that `free` tells. -/
def Prepared (free : List String → Prop) (p : List String) (t t' : OutputTree β) : Prop :=
  ∀ q, free q ∨ t' q = t q ∨ (q <+: p ∧ t q = none ∧ t' q = some .dir)

section Prepared

variable {t} {t' t'' : OutputTree β} {free free' : List String → Prop} {p q : List String}

theorem Prepared.refl : Prepared free p t t := fun _ => .inr (.inl rfl)

theorem Prepared.makeDirs (h : q <+: p) : Prepared free p t (t.makeDirs q) := by
  intro r
  unfold OutputTree.makeDirs
  split
  · rename_i missing
    exact .inr (.inr ⟨missing.1.trans h, Option.isNone_iff_eq_none.1 missing.2, rfl⟩)
  · exact .inr (.inl rfl)

theorem Prepared.trans (h : Prepared free p t t') (h' : Prepared free p t' t'') :
    Prepared free p t t'' := by
  intro q
  rcases h q with changed | same | ⟨on, none, dir⟩
  · exact .inl changed
  · rcases h' q with changed | same' | ⟨on, none, dir⟩
    · exact .inl changed
    · exact .inr (.inl (same'.trans same))
    · exact .inr (.inr ⟨on, same.symm.trans none, dir⟩)
  · rcases h' q with changed | same | ⟨-, none', -⟩
    · exact .inl changed
    · exact .inr (.inr ⟨on, none, same.trans dir⟩)
    · rw [dir] at none'
      cases none'

theorem Prepared.put {node : Option (Node (List β))} (h : Prepared free p t t') (changed : free q) :
    Prepared free p t (t'.put q node) := by
  intro r
  by_cases same : r = q
  · exact .inl (same ▸ changed)
  · rw [put_ne same]
    exact h r

/-- A file at another path is neither made nor changed. -/
theorem Prepared.fileAt (h : Prepared free p t t') (kept : ¬ free q) : t'.fileAt q = t.fileAt q := by
  rcases h q with changed | same | ⟨-, none, dir⟩
  · exact absurd changed kept
  · exact fileAt_congr same
  · unfold OutputTree.fileAt
    rw [none, dir]

/-- A refused operation on a free path, or the making of directories. -/
theorem Refused.prepared {o : TreeOp β} (h : t.Refused o t')
    (dirs : ∀ q, o = .createDirAll q → q <+: p) (file : ∀ q data, o = .write q data → free q) :
    Prepared free p t t' := by
  rcases h with rfl | h
  · exact .refl
  · cases o with
    | createDirAll q =>
      obtain ⟨front, on, rfl⟩ := h
      exact .makeDirs (on.trans (dirs q rfl))
    | write q data =>
      obtain ⟨count, h⟩ := h
      obtain ⟨c, -, rfl⟩ := Option.map_eq_some_iff.1 h
      exact Prepared.refl.put (file q data rfl)
    | openTruncate | sync | rename | remove => exact h.elim

end Prepared

end OutputTree

end FileTree
