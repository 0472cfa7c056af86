import OosLite.Lib.Bytes

/-!
# Files and power cuts

A file has the contents a process sees and the contents known to be on the medium. A power cut
leaves, of each file, some prefix of the one or of the other that extends everything they
agree on. Creating, renaming and removing a file happens at once or not at all, and stays.
-/

namespace Files

/-- The errors of a file operation that programs tell apart. -/
inductive IoError where
  | notFound
  | unexpectedEof
  | invalidData
  | wouldBlock
  | other
  deriving DecidableEq, Repr

/-- A file: what is on the medium for certain, and what the process sees. -/
structure File where
  durable : Bytes
  data : Bytes
  deriving DecidableEq

namespace File

/-- `img` is what a power cut can leave of the file. -/
def Survives (f : File) (img : Bytes) : Prop :=
  (img <+: f.durable ∨ img <+: f.data) ∧ ∀ c, c <+: f.durable → c <+: f.data → c <+: img

/-- A file whose contents are on the medium. -/
def Synced (f : File) : Prop := f.durable = f.data

theorem survives_synced {f : File} (h : f.Synced) {img : Bytes} (hi : f.Survives img) :
    img = f.data := by
  obtain ⟨below, above⟩ := hi
  rw [show f.durable = f.data from h] at below above
  exact (below.elim id id).eq_of_length_le (above _ List.prefix_rfl List.prefix_rfl).length_le

/-- What was visible may survive whole. -/
theorem survives_data (f : File) : f.Survives f.data :=
  ⟨.inr List.prefix_rfl, fun _ _ h => h⟩

end File

/-- The files a process works on, by path, with the position of its handle on each. -/
structure Fs (π : Type) [Ord π] where
  files : Std.ExtTreeMap π File
  cursor : π → Nat

/-- Operations on files. Handles are opened by `create`, `truncate` and `seek`. -/
inductive FsOp (π : Type) where
  | read (p : π)
  | exists (p : π)
  | list (select : π → Bool)
  | create (p : π)
  | truncate (p : π)
  | seek (p : π) (pos : Nat)
  | seekEnd (p : π)
  | write (p : π) (new : Bytes)
  | setLen (p : π) (len : Nat)
  | sync (p : π)
  | rename (source target : π)
  | remove (p : π)
  | removeAll (select : π → Bool)

/-- What each operation answers. -/
@[reducible] def FsOp.Res {π : Type} : FsOp π → Type
  | .read _ => Bytes
  | .exists _ => Bool
  | .list _ => List π
  | _ => Unit

namespace Fs

variable {π : Type} [Ord π] [Std.TransOrd π]

def file (s : Fs π) (p : π) : Option File := s.files[p]?

/-- The contents of a file as the process sees them. -/
def data (s : Fs π) (p : π) : Option Bytes := (s.file p).map File.data

def put (s : Fs π) (p : π) (f : File) : Fs π := { s with files := s.files.insert p f }

def drop (s : Fs π) (p : π) : Fs π := { s with files := s.files.erase p }

def dropAll (s : Fs π) (select : π → Bool) : Fs π :=
  { s with files := s.files.filter fun p _ => !select p }

section Cursor

variable [DecidableEq π]

def moveTo (s : Fs π) (p : π) (pos : Nat) : Fs π :=
  { s with cursor := Function.update s.cursor p pos }

/-- The state after `new` was written at the handle's position. -/
def wrote (s : Fs π) (p : π) (f : File) (new : Bytes) : Fs π :=
  (s.put p { f with data := Bytes.writeAt f.data (s.cursor p) new }).moveTo p
    (s.cursor p + new.length)

/-- The state after a file was opened, and made if it was not there. -/
def opened (s : Fs π) (p : π) : Fs π :=
  (match s.file p with
    | some _ => s
    | none => s.put p ⟨[], []⟩).moveTo p 0

/-- The state after a file was opened without its contents. -/
def emptied (s : Fs π) (p : π) : Fs π :=
  (match s.file p with
    | some f => s.put p { f with data := [] }
    | none => s.put p ⟨[], []⟩).moveTo p 0

end Cursor

section Lemmas

@[simp] theorem cursor_put (s : Fs π) (p : π) (f : File) : (s.put p f).cursor = s.cursor := rfl

@[simp] theorem cursor_drop (s : Fs π) (p : π) : (s.drop p).cursor = s.cursor := rfl

omit [Std.TransOrd π] in
@[simp] theorem cursor_dropAll (s : Fs π) (select : π → Bool) :
    (s.dropAll select).cursor = s.cursor := rfl

@[simp] theorem file_dropAll [Std.LawfulEqOrd π] (s : Fs π) (select : π → Bool) (q : π) :
    (s.dropAll select).file q = if select q then none else s.file q := by
  simp only [file, dropAll, Std.ExtTreeMap.getElem?_filter']
  cases s.files[q]? <;> cases select q <;> rfl

variable [DecidableEq π]

@[simp] theorem file_moveTo (s : Fs π) (p q : π) (pos : Nat) :
    (s.moveTo p pos).file q = s.file q := rfl

omit [Std.TransOrd π] in
@[simp] theorem cursor_moveTo (s : Fs π) (p q : π) (pos : Nat) :
    (s.moveTo p pos).cursor q = if q = p then pos else s.cursor q := by
  simp [moveTo, Function.update_apply]

@[simp] theorem cursor_wrote (s : Fs π) (p q : π) (f : File) (new : Bytes) :
    (s.wrote p f new).cursor q = if q = p then s.cursor p + new.length else s.cursor q := by
  simp [wrote]

@[simp] theorem cursor_opened (s : Fs π) (p q : π) :
    (s.opened p).cursor q = if q = p then 0 else s.cursor q := by
  unfold opened
  rw [cursor_moveTo]
  cases s.file p <;> rfl

@[simp] theorem cursor_emptied (s : Fs π) (p q : π) :
    (s.emptied p).cursor q = if q = p then 0 else s.cursor q := by
  unfold emptied
  rw [cursor_moveTo]
  cases s.file p <;> rfl

theorem opened_of_none {s : Fs π} {p : π} (absent : s.file p = none) :
    s.opened p = (s.put p ⟨[], []⟩).moveTo p 0 := by
  unfold opened
  rw [absent]

theorem opened_of_file {s : Fs π} {p : π} {f : File} (there : s.file p = some f) :
    s.opened p = s.moveTo p 0 := by
  unfold opened
  rw [there]

variable [Std.LawfulEqOrd π]

@[simp] theorem file_put (s : Fs π) (p q : π) (f : File) :
    (s.put p f).file q = if p = q then some f else s.file q := by
  simp [file, put, Std.ExtTreeMap.getElem?_insert]

@[simp] theorem file_drop (s : Fs π) (p q : π) :
    (s.drop p).file q = if p = q then none else s.file q := by
  simp [file, drop, Std.ExtTreeMap.getElem?_erase]

@[simp] theorem file_wrote (s : Fs π) (p q : π) (f : File) (new : Bytes) :
    (s.wrote p f new).file q =
      if p = q then some { f with data := Bytes.writeAt f.data (s.cursor p) new }
      else s.file q := by
  simp [wrote]

@[simp] theorem file_opened (s : Fs π) (p q : π) :
    (s.opened p).file q = if p = q then some ((s.file p).getD ⟨[], []⟩) else s.file q := by
  unfold opened
  rw [file_moveTo]
  cases there : s.file p with
  | none => exact file_put s p q ⟨[], []⟩
  | some f =>
    by_cases same : p = q
    · rw [if_pos same, ← same, there]
      rfl
    · rw [if_neg same]

@[simp] theorem file_emptied (s : Fs π) (p q : π) : (s.emptied p).file q =
    if p = q then some ⟨(s.file p).elim [] File.durable, []⟩ else s.file q := by
  unfold emptied
  rw [file_moveTo]
  cases s.file p with
  | none => exact file_put s p q ⟨[], []⟩
  | some f => exact file_put s p q { f with data := [] }

end Lemmas

/-- The paths a listing may answer with. -/
def listing (s : Fs π) (select : π → Bool) : List π := s.files.keys.filter select

theorem mem_listing [Std.LawfulEqOrd π] (s : Fs π) (select : π → Bool) (p : π) :
    p ∈ s.listing select ↔ (s.file p).isSome ∧ select p = true := by
  simp [listing, file, Std.ExtTreeMap.mem_keys]

theorem nodup_listing (s : Fs π) (select : π → Bool) : (s.listing select).Nodup := by
  have distinct : s.files.keys.Nodup := s.files.distinct_keys.imp fun {a b} h same => by
    subst same; exact h Std.ReflCmp.compare_self
  exact distinct.sublist List.filter_sublist

/-- Nothing has changed but the files of a set. -/
def SameBut (changed : π → Prop) (s s' : Fs π) : Prop := ∀ q, ¬ changed q → s'.file q = s.file q

section SameBut

variable {changed more : π → Prop} {s s' s'' : Fs π}

theorem SameBut.refl : SameBut changed s s := fun _ _ => rfl

theorem SameBut.trans (h : SameBut changed s s') (h' : SameBut changed s' s'') :
    SameBut changed s s'' := fun q hq => (h' q hq).trans (h q hq)

theorem SameBut.mono (h : SameBut changed s s') (le : ∀ q, changed q → more q) :
    SameBut more s s' := fun q hq => h q fun there => hq (le q there)

end SameBut

/-- What the files look like after a power cut and a restart. -/
def PowerCut (s s' : Fs π) : Prop :=
  ∀ p, match s.file p with
    | none => s'.file p = none
    | some f => ∃ img, f.Survives img ∧ s'.file p = some ⟨img, img⟩

theorem PowerCut.absent {s s' : Fs π} (h : PowerCut s s') {p : π} (hp : s.file p = none) :
    s'.file p = none := by
  have := h p
  rwa [hp] at this

theorem PowerCut.present {s s' : Fs π} (h : PowerCut s s') {p : π} {f : File}
    (hp : s.file p = some f) : ∃ img, f.Survives img ∧ s'.file p = some ⟨img, img⟩ := by
  have := h p
  rwa [hp] at this

/-- A file whose contents are on the medium comes back as it was. -/
theorem PowerCut.synced {s s' : Fs π} (h : PowerCut s s') {p : π} {f : File}
    (hp : s.file p = some f) (hf : f.Synced) : s'.file p = some f := by
  obtain ⟨img, survives, there⟩ := h.present hp
  have same := File.survives_synced hf survives
  cases f
  simp_all [File.Synced]

theorem PowerCut.isSome {s s' : Fs π} (h : PowerCut s s') (p : π) :
    (s'.file p).isSome = (s.file p).isSome := by
  cases hp : s.file p with
  | none => rw [h.absent hp]
  | some f =>
    obtain ⟨img, -, there⟩ := h.present hp
    rw [there]
    rfl

/-- A power cut that leaves everything as it was visible. -/
def visible (s : Fs π) : Fs π :=
  { s with files := s.files.map fun _ f => ⟨f.data, f.data⟩ }

theorem powerCut_visible [Std.LawfulEqOrd π] (s : Fs π) : s.PowerCut s.visible := by
  intro p
  have there : s.visible.file p = (s.file p).map fun f => ⟨f.data, f.data⟩ := by
    simp [visible, file, Std.ExtTreeMap.getElem?_map]
  cases h : s.file p with
  | none => rw [there, h]; rfl
  | some f => exact ⟨f.data, f.survives_data, by rw [there, h]; rfl⟩

variable [DecidableEq π]

/-- An operation that runs to its end. -/
def Done (s : Fs π) : (o : FsOp π) → Except IoError o.Res → Fs π → Prop
  | .read p, r, s' =>
    s' = s ∧ r = match s.file p with
      | some f => .ok f.data
      | none => .error .notFound
  | .exists p, r, s' => s' = s ∧ r = .ok (s.file p).isSome
  | .list select, r, s' => s' = s ∧ ∃ ps : List π, ps.Perm (s.listing select) ∧ r = .ok ps
  | .create p, r, s' =>
    r = .ok () ∧ s' = (match s.file p with
      | some _ => s
      | none => s.put p ⟨[], []⟩).moveTo p 0
  | .truncate p, r, s' =>
    r = .ok () ∧ s' = (match s.file p with
      | some f => s.put p { f with data := [] }
      | none => s.put p ⟨[], []⟩).moveTo p 0
  | .seek p pos, r, s' => r = .ok () ∧ s' = s.moveTo p pos
  | .seekEnd p, r, s' => r = .ok () ∧ s' = s.moveTo p ((s.file p).elim 0 (·.data.length))
  | .write p new, r, s' =>
    match s.file p with
    | some f => r = .ok () ∧ s' = s.wrote p f new
    | none => r = .error .notFound ∧ s' = s
  | .setLen p len, r, s' =>
    match s.file p with
    | some f => r = .ok () ∧
        s' = s.put p { f with data := f.data.take len ++ List.replicate (len - f.data.length) 0 }
    | none => r = .error .notFound ∧ s' = s
  | .sync p, r, s' =>
    match s.file p with
    | some f => r = .ok () ∧ s' = s.put p ⟨f.data, f.data⟩
    | none => r = .error .notFound ∧ s' = s
  | .rename source target, r, s' =>
    match s.file source with
    | some f => r = .ok () ∧ s' = (s.drop source).put target f
    | none => r = .error .notFound ∧ s' = s
  | .remove p, r, s' =>
    match s.file p with
    | some _ => r = .ok () ∧ s' = s.drop p
    | none => r = .error .notFound ∧ s' = s
  | .removeAll select, r, s' => r = .ok () ∧ s' = s.dropAll select

/-- What an operation that changes files may have done when the machine stops in it, or when
it fails: of a write any prefix, of the others nothing or everything. -/
def Cut (s : Fs π) : FsOp π → Fs π → Prop
  | .truncate p, s' => s' = s ∨ Done s (.truncate p) (.ok ()) s'
  | .create p, s' => s' = s ∨ Done s (.create p) (.ok ()) s'
  | .write p new, s' =>
    match s.file p with
    | some f => ∃ n ≤ new.length, s' = s.wrote p f (new.take n)
    | none => s' = s
  | .setLen p len, s' => s' = s ∨ Done s (.setLen p len) (.ok ()) s'
  | .sync p, s' => s' = s ∨ Done s (.sync p) (.ok ()) s'
  | .rename source target, s' => s' = s ∨ Done s (.rename source target) (.ok ()) s'
  | .remove p, s' => s' = s ∨ Done s (.remove p) (.ok ()) s'
  | .removeAll select, s' => ∃ gone : π → Bool, (∀ p, gone p = true → select p = true) ∧
      s' = s.dropAll gone
  | .read _, _ | .exists _, _ | .list _, _ | .seek .., _ | .seekEnd _, _ => False

/-- An operation with its answer: it is done, or it is one of the `faulty` ones and fails on
the way. A failed operation that is not a write has changed nothing. -/
def Step (faulty : FsOp π → Prop) (s : Fs π) (o : FsOp π) (r : Except IoError o.Res)
    (s' : Fs π) : Prop :=
  Done s o r s' ∨ faulty o ∧ r = .error .other ∧
    match o with
    | .write .. => Cut s o s'
    | _ => s' = s

/-- What is known of one file. -/
def Shows (q : π) (f : Option File) (s : Fs π) : Prop := s.file q = f

/-- The files an operation may change. -/
def Touches : FsOp π → π → Prop
  | .create p, q | .truncate p, q | .write p _, q | .setLen p _, q | .sync p, q | .remove p, q =>
    q = p
  | .rename source target, q => q = source ∨ q = target
  | .removeAll select, q => select q = true
  | .read _, _ | .exists _, _ | .list _, _ | .seek .., _ | .seekEnd _, _ => False

/-- The files whose handle an operation may move. -/
def Moves : FsOp π → π → Prop
  | .create p, q | .truncate p, q | .seek p _, q | .seekEnd p, q | .write p _, q => q = p
  | _, _ => False

/-- What an operation can lead to, whether it ends, fails or is cut short. -/
inductive Leads (s : Fs π) (o : FsOp π) (s' : Fs π) : Prop
  | done {r : Except IoError o.Res} : Done s o r s' → Leads s o s'
  | cut : Cut s o s' → Leads s o s'
  | same : s' = s → Leads s o s'

theorem Step.leads {faulty : FsOp π → Prop} {s s' : Fs π} {o : FsOp π} {r : Except IoError o.Res}
    (h : Step faulty s o r s') : Leads s o s' := by
  rcases h with h | ⟨-, -, h⟩
  · exact .done h
  · cases o with
    | write p new => exact .cut h
    | _ => exact .same h

theorem Leads.cases {s s' : Fs π} {o : FsOp π} (h : Leads s o s')
    (kind : ∀ p new, o ≠ .write p new) (all : ∀ select, o ≠ .removeAll select) :
    s' = s ∨ ∃ r, Done s o r s' := by
  cases h with
  | done h => exact .inr ⟨_, h⟩
  | same h => exact .inl h
  | cut h =>
    cases o with
    | write p new => exact absurd rfl (kind p new)
    | removeAll select => exact absurd rfl (all select)
    | create p | truncate p | setLen p len | sync p | rename source target | remove p =>
      exact h.imp id fun h => ⟨_, h⟩
    | read p | «exists» p | list select | seek p pos | seekEnd p => exact h.elim

theorem Leads.write {s s' : Fs π} {p : π} {new : Bytes} (h : Leads s (.write p new) s') :
    s' = s ∨ ∃ f part, s.file p = some f ∧ part <+: new ∧ s' = s.wrote p f part := by
  cases hp : s.file p with
  | none =>
    refine .inl ?_
    cases h with
    | done h => simp only [Done, hp] at h; exact h.2
    | cut h => simpa only [Cut, hp] using h
    | same h => exact h
  | some f =>
    cases h with
    | done h =>
      simp only [Done, hp] at h
      exact .inr ⟨f, new, rfl, List.prefix_rfl, h.2⟩
    | cut h =>
      simp only [Cut, hp] at h
      obtain ⟨n, -, rfl⟩ := h
      exact .inr ⟨f, _, rfl, List.take_prefix n new, rfl⟩
    | same h => exact .inl h

section Frame

variable [Std.LawfulEqOrd π] {s s' : Fs π}

theorem Leads.removeAll {select : π → Bool} (h : Leads s (.removeAll select) s') :
    ∃ gone : π → Bool, (∀ p, gone p = true → select p = true) ∧
      ∀ p, s'.file p = if gone p then none else s.file p := by
  cases h with
  | done h => exact ⟨select, fun _ h => h, fun p => by rw [h.2, file_dropAll]⟩
  | cut h =>
    obtain ⟨gone, sub, rfl⟩ := h
    exact ⟨gone, sub, fun p => by rw [file_dropAll]⟩
  | same h => exact ⟨fun _ => false, nofun, fun p => by simp [h]⟩

/-- What an operation does not touch stays as it is. -/
theorem Leads.untouched {o : FsOp π} (h : Leads s o s') {q : π} (hq : ¬ Touches o q) :
    s'.file q = s.file q := by
  by_cases all : ∃ select, o = .removeAll select
  · obtain ⟨select, rfl⟩ := all
    obtain ⟨gone, sub, same⟩ := h.removeAll
    rw [same, if_neg fun hg => hq (sub q hg)]
  by_cases kind : ∃ p new, o = .write p new
  · obtain ⟨p, new, rfl⟩ := kind
    rcases h.write with rfl | ⟨f, part, -, -, rfl⟩
    · rfl
    · rw [file_wrote, if_neg fun h => hq h.symm]
  rcases h.cases (fun p new h => kind ⟨p, new, h⟩) (fun select h => all ⟨select, h⟩) with
    rfl | ⟨r, h⟩
  · rfl
  cases o with
  | write p new => exact absurd ⟨p, new, rfl⟩ kind
  | removeAll select => exact absurd ⟨select, rfl⟩ all
  | read p | «exists» p | list select => rw [h.1]
  | seek p pos | seekEnd p => rw [h.2]; rfl
  | create p | truncate p =>
    have other : p ≠ q := fun h => hq h.symm
    rw [h.2, file_moveTo]
    split <;> simp [other]
  | setLen p len | sync p | remove p =>
    have other : p ≠ q := fun h => hq h.symm
    simp only [Done] at h
    split at h <;> simp [h.2, other]
  | rename source target =>
    have other : source ≠ q ∧ target ≠ q := by
      simp only [Touches, not_or] at hq
      exact ⟨Ne.symm hq.1, Ne.symm hq.2⟩
    simp only [Done] at h
    split at h <;> simp [h.2, other]

omit [Std.LawfulEqOrd π] in
/-- A handle that an operation does not move stays where it is. -/
theorem Leads.unmoved {o : FsOp π} (h : Leads s o s') {q : π} (hq : ¬ Moves o q) :
    s'.cursor q = s.cursor q := by
  by_cases all : ∃ select, o = .removeAll select
  · obtain ⟨select, rfl⟩ := all
    cases h with
    | done h => rw [h.2, cursor_dropAll]
    | same h => rw [h]
    | cut h =>
      obtain ⟨gone, -, rfl⟩ := h
      rw [cursor_dropAll]
  by_cases kind : ∃ p new, o = .write p new
  · obtain ⟨p, new, rfl⟩ := kind
    have other : ¬ q = p := hq
    rcases h.write with rfl | ⟨f, part, -, -, rfl⟩
    · rfl
    · rw [cursor_wrote, if_neg other]
  rcases h.cases (fun p new h => kind ⟨p, new, h⟩) (fun select h => all ⟨select, h⟩) with
    rfl | ⟨r, h⟩
  · rfl
  cases o with
  | write p new => exact absurd ⟨p, new, rfl⟩ kind
  | removeAll select => exact absurd ⟨select, rfl⟩ all
  | read p | «exists» p | list select => rw [h.1]
  | seek p pos | seekEnd p =>
    have other : ¬ q = p := hq
    rw [h.2, cursor_moveTo, if_neg other]
  | create p | truncate p =>
    have other : ¬ q = p := hq
    rw [h.2, cursor_moveTo, if_neg other]
    split <;> rfl
  | setLen p len | sync p | remove p =>
    simp only [Done] at h
    split at h <;> simp [h.2]
  | rename source target =>
    simp only [Done] at h
    split at h <;> simp [h.2]

/-- Renaming, removing and syncing make no new contents. -/
theorem Leads.inherited {o : FsOp π} (h : Leads s o s')
    (kind : (∃ p, o = .sync p) ∨ (∃ p, o = .remove p) ∨ (∃ select, o = .removeAll select) ∨
      ∃ source target, o = .rename source target) {q : π} {f : File} (hf : s'.file q = some f) :
    ∃ p f', s.file p = some f' ∧ (p = q ∨ o = .rename p q) ∧ (f = f' ∨ f = ⟨f'.data, f'.data⟩) := by
  rcases kind with ⟨p, rfl⟩ | ⟨p, rfl⟩ | ⟨select, rfl⟩ | ⟨source, target, rfl⟩
  · rcases h.cases nofun nofun with rfl | ⟨r, h⟩
    · exact ⟨q, f, hf, .inl rfl, .inl rfl⟩
    simp only [Done] at h
    split at h <;> rw [h.2] at hf
    · rename_i g hg
      rw [file_put] at hf
      split at hf
      · rename_i same
        exact ⟨q, g, same ▸ hg, .inl rfl, .inr (Option.some.inj hf).symm⟩
      · exact ⟨q, f, hf, .inl rfl, .inl rfl⟩
    · exact ⟨q, f, hf, .inl rfl, .inl rfl⟩
  · rcases h.cases nofun nofun with rfl | ⟨r, h⟩
    · exact ⟨q, f, hf, .inl rfl, .inl rfl⟩
    simp only [Done] at h
    split at h <;> rw [h.2] at hf
    · rw [file_drop] at hf
      split at hf
      · cases hf
      · exact ⟨q, f, hf, .inl rfl, .inl rfl⟩
    · exact ⟨q, f, hf, .inl rfl, .inl rfl⟩
  · obtain ⟨gone, -, same⟩ := h.removeAll
    rw [same] at hf
    split at hf
    · cases hf
    · exact ⟨q, f, hf, .inl rfl, .inl rfl⟩
  · rcases h.cases nofun nofun with rfl | ⟨r, h⟩
    · exact ⟨q, f, hf, .inl rfl, .inl rfl⟩
    simp only [Done] at h
    split at h <;> rw [h.2] at hf
    · rename_i g hg
      rw [file_put] at hf
      split at hf
      · rename_i same
        exact ⟨source, g, hg, .inr (by rw [same]), .inl (Option.some.inj hf).symm⟩
      · rw [file_drop] at hf
        split at hf
        · cases hf
        · exact ⟨q, f, hf, .inl rfl, .inl rfl⟩
    · exact ⟨q, f, hf, .inl rfl, .inl rfl⟩

end Frame

section SameBut

variable {changed : π → Prop} {s s' : Fs π}

theorem sameBut_put [Std.LawfulEqOrd π] {p : π} (f : File) (hp : changed p) :
    SameBut changed s (s.put p f) := by
  intro q hq
  rw [file_put, if_neg]
  intro same
  exact hq (same ▸ hp)

theorem sameBut_drop [Std.LawfulEqOrd π] {p : π} (hp : changed p) :
    SameBut changed s (s.drop p) := by
  intro q hq
  rw [file_drop, if_neg]
  intro same
  exact hq (same ▸ hp)

theorem Leads.sameBut [Std.LawfulEqOrd π] {o : FsOp π} (h : Leads s o s')
    (le : ∀ q, Touches o q → changed q) : SameBut changed s s' := fun q hq =>
  h.untouched fun there => hq (le q there)

end SameBut

theorem done_total (s : Fs π) (o : FsOp π) : ∃ r s', Done s o r s' := by
  cases o with
  | list select => exact ⟨_, _, rfl, _, List.Perm.refl _, rfl⟩
  | read p => exact ⟨_, _, rfl, rfl⟩
  | «exists» p => exact ⟨_, _, rfl, rfl⟩
  | create p | truncate p | seek p pos | seekEnd p | removeAll select => exact ⟨_, _, rfl, rfl⟩
  | write p new | setLen p len | sync p | remove p =>
    simp only [Done]
    cases s.file p <;> exact ⟨_, _, rfl, rfl⟩
  | rename source target =>
    simp only [Done]
    cases s.file source <;> exact ⟨_, _, rfl, rfl⟩

end Fs

end Files
