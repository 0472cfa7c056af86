import Mathlib.Data.List.Nodup
import Mathlib.Logic.Function.Basic

/-!
# A store of versioned files

What a version control of single files is for: names lead to files, and every file has numbered
versions, which stay what they are until they are pruned or their file is deleted.
-/

/-- The file of every name, and the numbered versions of every file, from the oldest one. -/
@[ext] structure VersionedStore (ν ι κ : Type) where
  names : ν → Option ι
  files : ι → Option (List (Nat × κ))

/-- What can happen to a store. -/
inductive VersionedStore.Op (ν ι κ : Type) where
  | put (name : ν) (new : ι) (content : κ)
  | delete (name : ν)
  | unbind (name : ν)
  | rename (old new : ν)
  | move (origin : ν → Option ν)
  | prune (name : ν) (keep : Nat)
  | rollback (name : ν) (number : Nat)

namespace VersionedStore

variable {ν ι κ : Type}

/-- A store without files. -/
def empty : VersionedStore ν ι κ := ⟨fun _ => none, fun _ => none⟩

/-- The number behind all others. -/
def nextNumber (versions : List (Nat × κ)) : Nat := (versions.getLast?.map Prod.fst).getD 0 + 1

/-- The content of the first version with a number. -/
def contentAt (versions : List (Nat × κ)) (number : Nat) : Option κ :=
  (versions.find? fun v => v.1 = number).map Prod.snd

/-- One more version. -/
def appended (versions : List (Nat × κ)) (content : κ) : List (Nat × κ) :=
  versions ++ [(nextNumber versions, content)]

/-- The last so many versions. -/
def lastOf (keep : Nat) (versions : List (Nat × κ)) : List (Nat × κ) :=
  versions.drop (versions.length - keep)

section Operations

variable [DecidableEq ν] [DecidableEq ι] (s : VersionedStore ν ι κ)

/-- A file gets other versions, or none at all. -/
def setFile (id : ι) (versions : Option (List (Nat × κ))) : VersionedStore ν ι κ :=
  { s with files := Function.update s.files id versions }

/-- A name leads to another file, or to none. -/
def setName (name : ν) (id : Option ι) : VersionedStore ν ι κ :=
  { s with names := Function.update s.names name id }

/-- A version of the file of this name, or of a new file. -/
def put (name : ν) (new : ι) (content : κ) : VersionedStore ν ι κ :=
  let id := (s.names name).getD new
  (s.setFile id (some (appended ((s.files id).getD []) content))).setName name (some id)

/-- A file goes, with its name. -/
def delete (name : ν) : VersionedStore ν ι κ :=
  match s.names name with
  | some id => (s.setFile id none).setName name none
  | none => s

/-- A file gets another name, in place of the file that had it. -/
def rename (old new : ν) : VersionedStore ν ι κ :=
  match s.names old with
  | some id => (s.setName old none).setName new (some id)
  | none => s

/-- All but the last so many versions of a file go. -/
def prune (name : ν) (keep : Nat) : VersionedStore ν ι κ :=
  match s.names name with
  | some id => s.setFile id ((s.files id).map (lastOf keep))
  | none => s

/-- A version of a file that is there becomes its newest one. -/
def rollback (name : ν) (number : Nat) : VersionedStore ν ι κ :=
  match s.names name with
  | some id =>
    match (s.files id).bind fun versions => (contentAt versions number).map (appended versions) with
    | some versions => s.setFile id (some versions)
    | none => s
  | none => s

/-- What an operation makes of a store. -/
def perform : Op ν ι κ → VersionedStore ν ι κ
  | .put name new content => s.put name new content
  | .delete name => s.delete name
  | .unbind name => s.setName name none
  | .rename old new => s.rename old new
  | .move origin => { s with names := fun name => (origin name).bind s.names }
  | .prune name keep => s.prune name keep
  | .rollback name number => s.rollback name number

/-- One operation after the other. -/
def performAll (ops : List (Op ν ι κ)) : VersionedStore ν ι κ := ops.foldl perform s

end Operations

/-- What is read under a name and a number. -/
def read (s : VersionedStore ν ι κ) (name : ν) (number : Nat) : Option κ :=
  (s.names name).bind fun id => (s.files id).bind fun versions => contentAt versions number

/-! ## Versions stay -/

section Versions

variable {s : VersionedStore ν ι κ} {id : ι} {number : Nat} {content content' : κ}

/-- The file has this version. -/
def Has (s : VersionedStore ν ι κ) (id : ι) (number : Nat) (content : κ) : Prop :=
  ∃ versions, s.files id = some versions ∧ (number, content) ∈ versions

/-- The numbers of every file ascend. -/
def Ascends (s : VersionedStore ν ι κ) : Prop :=
  ∀ id versions, s.files id = some versions → versions.Pairwise fun a b => a.1 < b.1

/-- The file keeps the version if all but the last so many go. -/
def Keeps (s : VersionedStore ν ι κ) (id : ι) (number keep : Nat) : Prop :=
  ∀ versions, s.files id = some versions → ∃ content, (number, content) ∈ lastOf keep versions

/-- The operation neither deletes the file nor prunes this version of it. -/
def Spares (s : VersionedStore ν ι κ) (id : ι) (number : Nat) : Op ν ι κ → Prop
  | .delete name => s.names name ≠ some id
  | .prune name keep => s.names name = some id → s.Keeps id number keep
  | _ => True

theorem lt_nextNumber {versions : List (Nat × κ)} (ascending : versions.Pairwise fun a b => a.1 < b.1)
    {v : Nat × κ} (there : v ∈ versions) : v.1 < nextNumber versions := by
  unfold nextNumber
  cases split : versions.getLast? with
  | none =>
    rw [List.getLast?_eq_none_iff.1 split] at there
    cases there
  | some last =>
    obtain ⟨front, rfl⟩ := List.getLast?_eq_some_iff.1 split
    show v.1 < last.1 + 1
    rcases List.mem_append.1 there with older | newest
    · have less := (List.pairwise_append.1 ascending).2.2 v older last (List.mem_singleton_self _)
      omega
    · rw [List.mem_singleton.1 newest]
      omega

theorem ascending_appended {versions : List (Nat × κ)}
    (ascending : versions.Pairwise fun a b => a.1 < b.1) (content : κ) :
    (appended versions content).Pairwise fun a b => a.1 < b.1 := by
  unfold appended
  rw [List.pairwise_append]
  refine ⟨ascending, List.pairwise_singleton _ _, fun v hv w hw => ?_⟩
  rw [List.mem_singleton.1 hw]
  exact lt_nextNumber ascending hv

/-- A number stands for one content. -/
theorem eq_of_ascending {versions : List (Nat × κ)}
    (ascending : versions.Pairwise fun a b => a.1 < b.1) (there : (number, content) ∈ versions)
    (there' : (number, content') ∈ versions) : content = content' := by
  have numbers : (versions.map Prod.fst).Nodup := by
    apply List.Pairwise.imp (R := fun a b => a < b) Nat.ne_of_lt
    rw [List.pairwise_map]
    exact ascending
  have same := List.inj_on_of_nodup_map numbers there there' rfl
  exact (Prod.mk.inj same).2

theorem Ascends.unique (h : s.Ascends) (has : s.Has id number content)
    (has' : s.Has id number content') : content = content' := by
  obtain ⟨versions, there, listed⟩ := has
  obtain ⟨versions', there', listed'⟩ := has'
  obtain rfl := Option.some.inj (there.symm.trans there')
  exact eq_of_ascending (h id versions there) listed listed'

theorem contentAt_of_mem {versions : List (Nat × κ)}
    (ascending : versions.Pairwise fun a b => a.1 < b.1) (there : (number, content) ∈ versions) :
    contentAt versions number = some content := by
  unfold contentAt
  cases found : versions.find? fun v => v.1 = number with
  | none =>
    rw [List.find?_eq_none] at found
    exact absurd (decide_eq_true rfl) (found _ there)
  | some v =>
    have number' : v.1 = number := by simpa using List.find?_some found
    have there' := List.mem_of_find?_eq_some found
    obtain ⟨n, c⟩ := v
    obtain rfl : n = number := number'
    rw [Option.map_some, eq_of_ascending ascending there' there]

/-- A version that a named file has is read. -/
theorem Ascends.read (h : s.Ascends) {name : ν} (named : s.names name = some id)
    (has : s.Has id number content) : s.read name number = some content := by
  obtain ⟨versions, there, listed⟩ := has
  unfold VersionedStore.read
  rw [named, Option.bind_some, there, Option.bind_some, contentAt_of_mem (h id versions there) listed]

/-! ### One operation -/

variable [DecidableEq ν] [DecidableEq ι] {op : Op ν ι κ}

omit [DecidableEq ν] in
theorem files_setFile (id' : ι) (versions : Option (List (Nat × κ))) :
    (s.setFile id versions).files id' = if id' = id then versions else s.files id' := by
  exact Function.update_apply s.files id versions id'

omit [DecidableEq ι] in
theorem names_setName (name name' : ν) (id : Option ι) :
    (s.setName name id).names name' = if name' = name then id else s.names name' := by
  exact Function.update_apply s.names name id name'

omit [DecidableEq ν] in
theorem Ascends.setFile (h : s.Ascends) {versions : Option (List (Nat × κ))}
    (ascending : ∀ vs, versions = some vs → vs.Pairwise fun a b => a.1 < b.1) :
    (s.setFile id versions).Ascends := by
  intro id' vs there
  rw [files_setFile] at there
  split at there
  · exact ascending vs there
  · exact h id' vs there

omit [DecidableEq ν] in
theorem Ascends.rollback (h : s.Ascends) (name : ν) (number : Nat) :
    (s.rollback name number).Ascends := by
  unfold VersionedStore.rollback
  cases s.names name with
  | none => exact h
  | some id =>
    simp only
    cases made : (s.files id).bind fun versions =>
        (contentAt versions number).map (appended versions) with
    | none => exact h
    | some vs =>
      apply h.setFile
      rintro vs ⟨⟩
      obtain ⟨versions, there, made⟩ := Option.bind_eq_some_iff.1 made
      obtain ⟨content, -, rfl⟩ := Option.map_eq_some_iff.1 made
      exact ascending_appended (h id versions there) content

/-- The numbers ascend after every operation. -/
theorem Ascends.perform (h : s.Ascends) (op : Op ν ι κ) : (s.perform op).Ascends := by
  cases op with
  | put name new content =>
    apply h.setFile
    rintro vs ⟨⟩
    apply ascending_appended
    cases there : s.files ((s.names name).getD new) with
    | none => exact .nil
    | some versions => exact h _ versions there
  | delete name =>
    show (s.delete name).Ascends
    unfold VersionedStore.delete
    cases s.names name with
    | none => exact h
    | some id =>
      apply h.setFile
      rintro vs ⟨⟩
  | unbind name => exact h
  | rename old new =>
    show (s.rename old new).Ascends
    unfold VersionedStore.rename
    cases s.names old with
    | none => exact h
    | some id => exact h
  | move origin => exact h
  | prune name keep =>
    show (s.prune name keep).Ascends
    unfold VersionedStore.prune
    cases s.names name with
    | none => exact h
    | some id =>
      apply h.setFile
      intro vs there
      obtain ⟨versions, listed, rfl⟩ := Option.map_eq_some_iff.1 there
      exact (h id versions listed).drop
  | rollback name number => exact h.rollback name number

omit [DecidableEq ν] in
theorem Has.setFile {id' : ι} {versions : Option (List (Nat × κ))} (has : s.Has id number content)
    (kept : id = id' → ∃ vs, versions = some vs ∧ (number, content) ∈ vs) :
    (s.setFile id' versions).Has id number content := by
  obtain ⟨vs, there, listed⟩ := has
  unfold Has
  rw [files_setFile]
  split
  · rename_i same
    exact kept same
  · exact ⟨vs, there, listed⟩

theorem mem_appended {versions : List (Nat × κ)} (there : (number, content) ∈ versions)
    (other : κ) : (number, content) ∈ appended versions other :=
  List.mem_append_left _ there

omit [DecidableEq ν] in
theorem Has.rollback (has : s.Has id number content) (name : ν) (target : Nat) :
    (s.rollback name target).Has id number content := by
  have found := has
  obtain ⟨versions, there, listed⟩ := found
  unfold VersionedStore.rollback
  cases s.names name with
  | none => exact has
  | some id' =>
    simp only
    cases made : (s.files id').bind fun versions =>
        (contentAt versions target).map (appended versions) with
    | none => exact has
    | some vs =>
      apply Has.setFile has
      rintro rfl
      refine ⟨vs, rfl, ?_⟩
      rw [there, Option.bind_some] at made
      obtain ⟨other, -, rfl⟩ := Option.map_eq_some_iff.1 made
      exact mem_appended listed other

omit [DecidableEq ν] in
theorem Has.prune (has : s.Has id number content) (ascends : s.Ascends) {name : ν} {keep : Nat}
    (spares : s.names name = some id → s.Keeps id number keep) :
    (s.prune name keep).Has id number content := by
  have found := has
  obtain ⟨versions, there, listed⟩ := found
  unfold VersionedStore.prune
  cases named : s.names name with
  | none => exact has
  | some id' =>
    apply Has.setFile has
    rintro rfl
    obtain ⟨content', kept⟩ := spares named versions there
    rw [there]
    refine ⟨_, rfl, ?_⟩
    rw [eq_of_ascending (ascends _ versions there) listed (List.mem_of_mem_drop kept)]
    exact kept

/-- A version stays, unless the operation prunes it or deletes its file. -/
theorem Has.perform (has : s.Has id number content) (ascends : s.Ascends)
    (spares : s.Spares id number op) : (s.perform op).Has id number content := by
  cases op with
  | put name new other =>
    have found := has
    obtain ⟨versions, there, listed⟩ := found
    apply Has.setFile has
    intro same
    refine ⟨_, rfl, ?_⟩
    rw [← same, there]
    exact mem_appended listed other
  | delete name =>
    show (s.delete name).Has _ _ _
    unfold VersionedStore.delete
    cases named : s.names name with
    | none => exact has
    | some id' =>
      apply Has.setFile has
      rintro rfl
      exact absurd named spares
  | unbind name => exact has
  | rename old new =>
    show (s.rename old new).Has _ _ _
    unfold VersionedStore.rename
    cases s.names old with
    | none => exact has
    | some id' => exact has
  | move origin => exact has
  | prune name keep => exact has.prune ascends spares
  | rollback name target => exact has.rollback name target

/-! ### Runs -/

/-- Every operation of a run spares the version. -/
def SparesAll (s : VersionedStore ν ι κ) (id : ι) (number : Nat) : List (Op ν ι κ) → Prop
  | [] => True
  | op :: ops => s.Spares id number op ∧ (s.perform op).SparesAll id number ops

theorem performAll_append (ops ops' : List (Op ν ι κ)) :
    s.performAll (ops ++ ops') = (s.performAll ops).performAll ops' := by
  unfold performAll
  rw [List.foldl_append]

theorem Ascends.performAll (h : s.Ascends) (ops : List (Op ν ι κ)) :
    (s.performAll ops).Ascends := by
  induction ops generalizing s with
  | nil => exact h
  | cons op ops ih => exact ih (h.perform op)

/-- What was stored stays over a run that spares it. -/
theorem Has.performAll {ops : List (Op ν ι κ)} (has : s.Has id number content)
    (ascends : s.Ascends) (spares : s.SparesAll id number ops) :
    (s.performAll ops).Has id number content := by
  induction ops generalizing s with
  | nil => exact has
  | cons op ops ih =>
    obtain ⟨first, rest⟩ := spares
    exact ih (has.perform ascends first) (ascends.perform op) rest

theorem lastOf_lastOf (keep : Nat) (versions : List (Nat × κ)) :
    lastOf keep (lastOf keep versions) = lastOf keep versions := by
  unfold lastOf
  rw [List.drop_drop, List.length_drop]
  congr 1
  omega

/-- What a delete spares it spares after another one. -/
theorem Spares.delete {name name' : ν} (spares : s.Spares id number (.delete name')) :
    (s.delete name).Spares id number (.delete name') := by
  intro there
  apply spares
  unfold VersionedStore.delete at there
  cases named : s.names name with
  | none =>
    rw [named] at there
    exact there
  | some id' =>
    rw [named] at there
    simp only [names_setName] at there
    split at there
    · cases there
    · exact there

omit [DecidableEq ν] in
/-- What a prune keeps it keeps after another one. -/
theorem Spares.prune {name name' : ν} {keep : Nat} (spares : s.Spares id number (.prune name' keep)) :
    (s.prune name keep).Spares id number (.prune name' keep) := by
  have names : (s.prune name keep).names = s.names := by
    unfold VersionedStore.prune
    cases s.names name <;> rfl
  intro there versions listed
  rw [names] at there
  unfold VersionedStore.prune at listed
  cases named : s.names name with
  | none =>
    rw [named] at listed
    exact spares there versions listed
  | some id' =>
    rw [named] at listed
    simp only [files_setFile] at listed
    split at listed
    · rename_i same
      obtain ⟨before, found, rfl⟩ := Option.map_eq_some_iff.1 listed
      rw [lastOf_lastOf]
      exact spares there before (same ▸ found)
    · exact spares there versions listed

/-- Operations of one kind that all spare the version spare it one after the other. -/
theorem SparesAll.of_stable {C : Op ν ι κ → Prop}
    (stable : ∀ (s : VersionedStore ν ι κ) op op', C op → C op' → s.Spares id number op' →
      (s.perform op).Spares id number op') {ops : List (Op ν ι κ)} (all : ∀ op ∈ ops, C op)
    (spares : ∀ op, C op → s.Spares id number op) : s.SparesAll id number ops := by
  induction ops generalizing s with
  | nil => trivial
  | cons op ops ih =>
    have first := all op List.mem_cons_self
    refine ⟨spares op first, ih (fun op' there => all op' (List.mem_cons_of_mem _ there)) ?_⟩
    exact fun op' of => stable s op op' first of (spares op' of)

/-- What is put is there, behind the versions that were. -/
theorem has_put (name : ν) (new : ι) (content : κ) :
    (s.put name new content).Has ((s.names name).getD new)
      (nextNumber ((s.files ((s.names name).getD new)).getD [])) content :=
  ⟨_, (files_setFile _ _).trans (if_pos rfl), List.mem_append_right _ (List.mem_singleton_self _)⟩

end Versions

end VersionedStore
