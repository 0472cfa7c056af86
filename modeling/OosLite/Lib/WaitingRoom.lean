import Mathlib.Data.List.Nodup
import Mathlib.Data.List.TakeDrop
import Mathlib.Data.List.TakeWhile

/-!
# A waiting room

First halves wait for their second halves, some under a key and the others in the order in which they
came.  Who has waited too long leaves without a second half, and so does who waits under a key that
comes again.
-/

/-- Who waits, with the moment it came. -/
structure WaitingRoom (κ α : Type) where
  keyed : List (κ × α × Nat)
  queued : List (α × Nat)

namespace WaitingRoom

variable {κ α β : Type}

/-- All who wait. -/
def waiting (r : WaitingRoom κ α) : List α :=
  r.keyed.map (fun e => e.2.1) ++ r.queued.map Prod.fst

def isLate (patience now since : Nat) : Bool := patience ≤ now - since

/-- Who has waited too long leaves, of those in the queue while the first one has. -/
def lapse (patience now : Nat) (r : WaitingRoom κ α) : List α × WaitingRoom κ α :=
  let keyed := r.keyed.partition fun e => isLate patience now e.2.2
  let queued := r.queued.span fun e => isLate patience now e.2
  (keyed.1.map (fun e => e.2.1) ++ queued.1.map Prod.fst, ⟨keyed.2, queued.2⟩)

section

variable [DecidableEq κ]

/-- A first half comes, and who waits under its key leaves. -/
def enter (key : Option κ) (a : α) (now : Nat) (r : WaitingRoom κ α) :
    Option α × WaitingRoom κ α :=
  match key with
  | some k =>
    ((r.keyed.lookup k).map Prod.fst,
      { r with keyed := (r.keyed.filter fun e => e.1 ≠ k) ++ [(k, a, now)] })
  | none => (none, { r with queued := r.queued ++ [(a, now)] })

/-- A second half comes, and its first half leaves with it, if it waits. -/
def leave (key : Option κ) (r : WaitingRoom κ α) : Option α × WaitingRoom κ α :=
  match key with
  | some k =>
    match r.keyed.lookup k with
    | some e => (some e.1, { r with keyed := r.keyed.filter fun e => e.1 ≠ k })
    | none => (none, r)
  | none =>
    match r.queued with
    | e :: rest => (some e.1, { r with queued := rest })
    | [] => (none, r)

end

/-! ## Who is in the room does not matter -/

/-- The same room, seen otherwise. -/
def map (f : α → β) (r : WaitingRoom κ α) : WaitingRoom κ β where
  keyed := r.keyed.map fun e => (e.1, f e.2.1, e.2.2)
  queued := r.queued.map fun e => (f e.1, e.2)

variable (f : α → β) (r : WaitingRoom κ α)

theorem lapse_map (patience now : Nat) : (r.map f).lapse patience now =
    ((r.lapse patience now).1.map f, (r.lapse patience now).2.map f) := by
  simp only [lapse, map, List.partition_eq_filter_filter, List.span_eq_takeWhile_dropWhile,
    List.filter_map, List.takeWhile_map, List.dropWhile_map, List.map_append, List.map_map]
  rfl

section

variable [DecidableEq κ]

theorem lookup_map (k : κ) : (r.map f).keyed.lookup k =
    (r.keyed.lookup k).map fun e => (f e.1, e.2) := by
  unfold map
  induction r.keyed with
  | nil => rfl
  | cons e keyed ih =>
    rw [List.map_cons, List.lookup_cons, List.lookup_cons, ih]
    cases k == e.1 <;> rfl

theorem enter_map (key : Option κ) (a : α) (now : Nat) : (r.map f).enter key (f a) now =
    ((r.enter key a now).1.map f, (r.enter key a now).2.map f) := by
  cases key with
  | some k =>
    simp only [enter, lookup_map, Option.map_map]
    simp only [map, List.filter_map, List.map_append]
    rfl
  | none => simp [enter, map]

theorem leave_map (key : Option κ) : (r.map f).leave key =
    ((r.leave key).1.map f, (r.leave key).2.map f) := by
  cases key with
  | some k =>
    simp only [leave, lookup_map]
    cases r.keyed.lookup k with
    | some e =>
      simp only [map, List.filter_map]
      rfl
    | none => rfl
  | none =>
    simp only [leave]
    cases split : r.queued with
    | nil => simp [map, split]
    | cons e rest => simp [map, split]

end

/-! ## Nobody is lost -/

variable {key : α → Option κ} {r r₁ r₂ : WaitingRoom κ α}

/-- Everybody waits where its key says, and nobody under the key of another. -/
structure Tagged (key : α → Option κ) (r : WaitingRoom κ α) : Prop where
  distinct : (r.keyed.map Prod.fst).Nodup
  keyed : ∀ e ∈ r.keyed, key e.2.1 = some e.1
  queued : ∀ e ∈ r.queued, key e.1 = none

/-- Some have come and some have left, those without a key in the order in which they came. -/
structure Moves (key : α → Option κ) (r : WaitingRoom κ α) (come left : List α)
    (r' : WaitingRoom κ α) : Prop where
  tagged : r'.Tagged key
  all : (left ++ r'.waiting).Perm (r.waiting ++ come)
  inOrder : (left.filter fun a => key a = none) ++ r'.queued.map Prod.fst =
    r.queued.map Prod.fst ++ come.filter fun a => key a = none

theorem Moves.refl (h : r.Tagged key) : Moves key r [] [] r where
  tagged := h
  all := by simp
  inOrder := by simp

theorem Moves.trans {come come' left left' : List α} (h : Moves key r come left r₁)
    (h' : Moves key r₁ come' left' r₂) : Moves key r (come ++ come') (left ++ left') r₂ where
  tagged := h'.tagged
  all := by
    have first : (left ++ (r₁.waiting ++ come')).Perm (r.waiting ++ (come ++ come')) := by
      rw [← List.append_assoc, ← List.append_assoc]
      exact h.all.append_right come'
    rw [List.append_assoc]
    exact (h'.all.append_left left).trans first
  inOrder := by
    rw [List.filter_append, List.filter_append, List.append_assoc, h'.inOrder, ← List.append_assoc,
      h.inOrder, List.append_assoc]

/-- Who leaves from under the keys has a key. -/
theorem Tagged.filter_eq_nil (h : r.Tagged key) {es : List (κ × α × Nat)} (sub : es ⊆ r.keyed) :
    (es.map fun e => e.2.1).filter (fun a => key a = none) = [] := by
  rw [List.filter_eq_nil_iff]
  intro a member
  obtain ⟨e, there, rfl⟩ := List.mem_map.1 member
  simp [h.keyed e (sub there)]

theorem Tagged.filter_eq_self (h : r.Tagged key) {es : List (α × Nat)} (sub : es ⊆ r.queued) :
    (es.map Prod.fst).filter (fun a => key a = none) = es.map Prod.fst := by
  rw [List.filter_eq_self]
  intro a member
  obtain ⟨e, there, rfl⟩ := List.mem_map.1 member
  simp [h.queued e (sub there)]

/-- Fewer wait under keys, and the queue has lost its front. -/
theorem Tagged.mono (h : r.Tagged key) {r' : WaitingRoom κ α}
    (keyed : r'.keyed.Sublist r.keyed) (queued : r'.queued ⊆ r.queued) : r'.Tagged key where
  distinct := h.distinct.sublist (keyed.map Prod.fst)
  keyed := fun e there => h.keyed e (keyed.subset there)
  queued := fun e there => h.queued e (queued there)

theorem lapse_left (patience now : Nat) (r : WaitingRoom κ α) : (r.lapse patience now).1 =
    (r.keyed.filter fun e => isLate patience now e.2.2).map (fun e => e.2.1) ++
      (r.queued.takeWhile fun e => isLate patience now e.2).map Prod.fst := by
  simp only [lapse, List.partition_eq_filter_filter, List.span_eq_takeWhile_dropWhile]

theorem lapse_room (patience now : Nat) (r : WaitingRoom κ α) : (r.lapse patience now).2 =
    ⟨r.keyed.filter fun e => !isLate patience now e.2.2,
      r.queued.dropWhile fun e => isLate patience now e.2⟩ := by
  simp only [lapse, List.partition_eq_filter_filter, List.span_eq_takeWhile_dropWhile]
  rfl

theorem Tagged.lapse (h : r.Tagged key) (patience now : Nat) :
    Moves key r [] (r.lapse patience now).1 (r.lapse patience now).2 := by
  have queue := List.takeWhile_append_dropWhile
    (p := fun e : α × Nat => isLate patience now e.2) (l := r.queued)
  rw [lapse_left, lapse_room]
  refine ⟨h.mono List.filter_sublist (List.dropWhile_suffix _).subset, ?_, ?_⟩
  · have keys := (List.filter_append_perm (fun e => isLate patience now e.2.2) r.keyed).map
      fun e => e.2.1
    rw [List.map_append] at keys
    unfold waiting
    conv_rhs => rw [← queue]
    rw [List.append_nil, List.map_append]
    refine List.Perm.trans ?_ (keys.append_right _)
    simp only [List.append_assoc]
    refine List.Perm.append_left _ ?_
    rw [← List.append_assoc, ← List.append_assoc]
    exact List.perm_append_comm.append_right _
  · rw [List.filter_append, h.filter_eq_nil List.filter_sublist.subset,
      h.filter_eq_self (List.takeWhile_prefix _).subset, List.nil_append, ← List.map_append, queue,
      List.filter_nil, List.append_nil]

/-- Who leaves so has waited too long. -/
theorem late_of_lapse {patience now : Nat} {a : α} (left : a ∈ (r.lapse patience now).1) :
    ∃ since, ((∃ k, (k, a, since) ∈ r.keyed) ∨ (a, since) ∈ r.queued) ∧ patience ≤ now - since := by
  rw [lapse_left] at left
  rcases List.mem_append.1 left with left | left
  · obtain ⟨e, there, rfl⟩ := List.mem_map.1 left
    obtain ⟨there, late⟩ := List.mem_filter.1 there
    exact ⟨e.2.2, .inl ⟨e.1, there⟩, of_decide_eq_true late⟩
  · obtain ⟨e, there, rfl⟩ := List.mem_map.1 left
    have late := List.mem_takeWhile_imp there
    exact ⟨e.2, .inr ((List.takeWhile_prefix _).subset there), of_decide_eq_true late⟩

/-- Who waits has come lately. -/
structure Fresh (patience now : Nat) (r : WaitingRoom κ α) : Prop where
  keyed : ∀ e ∈ r.keyed, now - e.2.2 < patience
  queued : ∀ e ∈ r.queued, now - e.2 < patience

/-- Nobody in the queue waits on, once all have waited too long. -/
theorem fresh_lapse {patience now : Nat} (late : ∀ e ∈ r.queued, patience ≤ now - e.2) :
    (r.lapse patience now).2.Fresh patience now := by
  have gone : (r.queued.dropWhile fun e => isLate patience now e.2) = [] :=
    List.dropWhile_eq_nil_iff.2 fun e there => decide_eq_true (late e there)
  rw [lapse_room, gone]
  refine ⟨fun e there => ?_, nofun⟩
  have early := (List.mem_filter.1 there).2
  simpa [isLate] using early

section

variable [DecidableEq κ]

/-- Who leaves with a second half: the one under its key, the first in the queue, or nobody. -/
theorem leave_cases (k : Option κ) (r : WaitingRoom κ α) :
    (∃ k' e, k = some k' ∧ r.keyed.lookup k' = some e ∧
      r.leave k = (some e.1, { r with keyed := r.keyed.filter fun e => e.1 ≠ k' })) ∨
    (∃ e rest, k = none ∧ r.queued = e :: rest ∧
      r.leave k = (some e.1, { r with queued := rest })) ∨
    (∀ k', k = some k' → r.keyed.lookup k' = none) ∧ (k = none → r.queued = []) ∧
      r.leave k = (none, r) := by
  unfold leave
  cases k with
  | some k =>
    cases found : r.keyed.lookup k with
    | some e => exact .inl ⟨k, e, rfl, found, by simp [found]⟩
    | none =>
      refine .inr (.inr ⟨?_, nofun, by simp [found]⟩)
      rintro _ ⟨⟩
      exact found
  | none =>
    cases split : r.queued with
    | cons e rest => exact .inr (.inl ⟨e, rest, rfl, rfl, by simp⟩)
    | nil => exact .inr (.inr ⟨nofun, fun _ => rfl, by simp⟩)

/-- Who is looked up is the one with that key. -/
theorem Tagged.perm_of_lookup (h : r.Tagged key) {k : κ} {e : α × Nat}
    (found : r.keyed.lookup k = some e) :
    ((k, e) :: r.keyed.filter fun e => e.1 ≠ k).Perm r.keyed := by
  obtain ⟨front, back, split, -⟩ := List.lookup_eq_some_iff.1 found
  have distinct := h.distinct
  rw [split, List.map_append, List.map_cons, List.nodup_middle] at distinct
  have others {es : List (κ × α × Nat)} (sub : es ⊆ front ++ back) :
      es.filter (fun e => e.1 ≠ k) = es := by
    rw [List.filter_eq_self]
    intro e there
    have other : e.1 ∈ (front ++ back).map Prod.fst := List.mem_map_of_mem (sub there)
    rw [List.map_append] at other
    refine decide_eq_true fun same => ?_
    rw [same] at other
    exact (List.nodup_cons.1 distinct).1 other
  rw [split, List.filter_append, List.filter_cons, if_neg (by simp),
    others (List.subset_append_left _ _), others (List.subset_append_right _ _)]
  exact List.perm_middle.symm

theorem not_mem_of_lookup {k : κ} {e : κ × α × Nat} (absent : r.keyed.lookup k = none)
    (there : e ∈ r.keyed) : e.1 ≠ k := by
  have other := List.lookup_eq_none_iff.1 absent e there
  simp only [bne_iff_ne, ne_eq] at other
  exact fun same => other same.symm

theorem filter_of_lookup_eq_none {k : κ} (absent : r.keyed.lookup k = none) :
    (r.keyed.filter fun e => e.1 ≠ k) = r.keyed := by
  rw [List.filter_eq_self]
  exact fun e there => decide_eq_true (not_mem_of_lookup absent there)

/-- Who waits under a key, and who does not. -/
theorem Tagged.perm_filter (h : r.Tagged key) (k : κ) :
    (((r.keyed.lookup k).map Prod.fst).toList ++
      (r.keyed.filter fun e => e.1 ≠ k).map fun e => e.2.1).Perm (r.keyed.map fun e => e.2.1) := by
  cases found : r.keyed.lookup k with
  | some e => exact (h.perm_of_lookup found).map fun e => e.2.1
  | none => rw [filter_of_lookup_eq_none found, Option.map_none, Option.toList_none, List.nil_append]

theorem Tagged.mem_of_lookup (h : r.Tagged key) {k : κ} {e : α × Nat}
    (found : r.keyed.lookup k = some e) : (k, e) ∈ r.keyed :=
  (h.perm_of_lookup found).subset List.mem_cons_self

/-- Who is looked up has a key. -/
theorem Tagged.filter_lookup (h : r.Tagged key) (k : κ) :
    ((r.keyed.lookup k).map Prod.fst).toList.filter (fun a => key a = none) = [] := by
  cases found : r.keyed.lookup k with
  | none => rfl
  | some e => simp [h.keyed _ (h.mem_of_lookup found)]

theorem Tagged.enter (h : r.Tagged key) {k : Option κ} {a : α} (its : key a = k) (now : Nat) :
    Moves key r [a] (r.enter k a now).1.toList (r.enter k a now).2 := by
  cases k with
  | some k =>
    refine ⟨⟨?_, ?_, h.queued⟩, ?_, ?_⟩
    · show ((r.keyed.filter fun e => e.1 ≠ k) ++ [(k, a, now)]).map Prod.fst |>.Nodup
      rw [List.map_append, List.nodup_append]
      refine ⟨h.distinct.sublist (List.filter_sublist.map Prod.fst), List.nodup_singleton _, ?_⟩
      rintro k' there _ new rfl
      obtain ⟨e, member, rfl⟩ := List.mem_map.1 there
      obtain rfl := List.mem_singleton.1 new
      exact of_decide_eq_true (List.mem_filter.1 member).2 rfl
    · intro e there
      rcases List.mem_append.1 there with there | there
      · exact h.keyed e (List.mem_of_mem_filter there)
      · obtain rfl := List.mem_singleton.1 there
        exact its
    · show (((r.keyed.lookup k).map Prod.fst).toList ++
        (((r.keyed.filter fun e => e.1 ≠ k) ++ [(k, a, now)]).map (fun e => e.2.1) ++
          r.queued.map Prod.fst)).Perm (r.keyed.map (fun e => e.2.1) ++ r.queued.map Prod.fst ++ [a])
      rw [List.map_append, List.append_assoc, List.append_assoc, ← List.append_assoc]
      exact (h.perm_filter k).append List.perm_append_comm
    · show ((r.keyed.lookup k).map Prod.fst).toList.filter _ ++ r.queued.map Prod.fst = _
      rw [h.filter_lookup]
      simp [its]
  | none =>
    refine ⟨⟨h.distinct, h.keyed, ?_⟩, ?_, ?_⟩
    · intro e there
      rcases List.mem_append.1 there with there | there
      · exact h.queued e there
      · obtain rfl := List.mem_singleton.1 there
        exact its
    · simp [WaitingRoom.enter, waiting]
    · simp [WaitingRoom.enter, its]

theorem Tagged.leave (h : r.Tagged key) (k : Option κ) :
    Moves key r [] (r.leave k).1.toList (r.leave k).2 := by
  rcases leave_cases k r with ⟨k', e, -, found, same⟩ | ⟨e, rest, -, split, same⟩ | ⟨-, -, same⟩
  · have room := h.perm_filter k'
    have keyless := h.filter_lookup k'
    rw [found] at room keyless
    rw [same]
    refine ⟨h.mono List.filter_sublist (List.Subset.refl _), ?_, ?_⟩
    · rw [List.append_nil]
      unfold waiting
      rw [← List.append_assoc]
      exact room.append_right _
    · rw [List.filter_nil, List.append_nil]
      simpa using keyless
  · have sub : rest ⊆ r.queued := split ▸ List.subset_cons_self e rest
    rw [same]
    refine ⟨h.mono (List.Sublist.refl _) sub, ?_, ?_⟩
    · simp [waiting, split, List.perm_middle.symm]
    · have first := h.queued e (split ▸ List.mem_cons_self)
      simp [first, split]
  · rw [same]
    exact .refl h

/-! ## Who is concerned -/

theorem keyed_of_enter {k : Option κ} {a : α} {now : Nat} {e : κ × α × Nat}
    (there : e ∈ (r.enter k a now).2.keyed) :
    e ∈ r.keyed ∧ k ≠ some e.1 ∨ k = some e.1 ∧ e.2 = (a, now) := by
  cases k with
  | some k =>
    rcases List.mem_append.1 there with there | there
    · obtain ⟨there, other⟩ := List.mem_filter.1 there
      exact .inl ⟨there, fun same => of_decide_eq_true other (Option.some.inj same).symm⟩
    · obtain rfl := List.mem_singleton.1 there
      exact .inr ⟨rfl, rfl⟩
  | none => exact .inl ⟨there, nofun⟩

/-- Who leaves when another comes has waited under its key. -/
theorem mem_of_enter {k : Option κ} {a b : α} {now : Nat} (left : (r.enter k a now).1 = some b) :
    ∃ k' since, k = some k' ∧ (k', b, since) ∈ r.keyed := by
  cases k with
  | some k =>
    obtain ⟨e, found, rfl⟩ := Option.map_eq_some_iff.1 left
    obtain ⟨front, back, split, -⟩ := List.lookup_eq_some_iff.1 found
    exact ⟨k, e.2, rfl, split ▸ List.mem_append_right _ List.mem_cons_self⟩
  | none => cases left

theorem queued_of_enter {k : Option κ} {a : α} {now : Nat} {e : α × Nat}
    (there : e ∈ (r.enter k a now).2.queued) : e ∈ r.queued ∨ e = (a, now) := by
  cases k with
  | some k => exact .inl there
  | none =>
    rcases List.mem_append.1 there with there | there
    · exact .inl there
    · exact .inr (List.mem_singleton.1 there)

theorem keyed_of_leave {k : Option κ} {e : κ × α × Nat} (there : e ∈ (r.leave k).2.keyed) :
    e ∈ r.keyed ∧ k ≠ some e.1 := by
  rcases leave_cases k r with ⟨k', e', rfl, -, same⟩ | ⟨e', rest, rfl, -, same⟩ | ⟨absent, -, same⟩
  · rw [same] at there
    obtain ⟨there, other⟩ := List.mem_filter.1 there
    exact ⟨there, fun same => of_decide_eq_true other (Option.some.inj same).symm⟩
  · rw [same] at there
    exact ⟨there, nofun⟩
  · rw [same] at there
    exact ⟨there, fun same => not_mem_of_lookup (absent e.1 same) there rfl⟩

theorem queued_of_leave {k : Option κ} {e : α × Nat} (there : e ∈ (r.leave k).2.queued) :
    e ∈ r.queued := by
  rcases leave_cases k r with ⟨k', e', -, -, same⟩ | ⟨e', rest, -, split, same⟩ | ⟨-, -, same⟩
  · rwa [same] at there
  · rw [same] at there
    rw [split]
    exact List.mem_cons_of_mem e' there
  · rwa [same] at there

/-- Who leaves with a second half waits under its key, or first in the queue. -/
theorem mem_of_leave {k : Option κ} {a : α} (left : (r.leave k).1 = some a) : ∃ since,
    (∃ k', k = some k' ∧ (k', a, since) ∈ r.keyed) ∨
      k = none ∧ r.queued.head? = some (a, since) := by
  rcases leave_cases k r with ⟨k', e, rfl, found, same⟩ | ⟨e, rest, rfl, split, same⟩ | ⟨-, -, same⟩
  · rw [same] at left
    cases left
    obtain ⟨front, back, split, -⟩ := List.lookup_eq_some_iff.1 found
    exact ⟨e.2, .inl ⟨k', rfl, split ▸ List.mem_append_right _ List.mem_cons_self⟩⟩
  · rw [same] at left
    cases left
    exact ⟨e.2, .inr ⟨rfl, by rw [split]; rfl⟩⟩
  · rw [same] at left
    cases left

/-- Who comes now has come lately. -/
theorem Fresh.enter {patience now : Nat} (h : r.Fresh patience now) (some : 0 < patience)
    (k : Option κ) (a : α) : (r.enter k a now).2.Fresh patience now where
  keyed := by
    intro e there
    rcases keyed_of_enter there with ⟨old, -⟩ | ⟨-, new⟩
    · exact h.keyed e old
    · rwa [new, Nat.sub_self]
  queued := by
    intro e there
    rcases queued_of_enter there with old | new
    · exact h.queued e old
    · rwa [new, Nat.sub_self]

theorem Fresh.leave {patience now : Nat} (h : r.Fresh patience now) (k : Option κ) :
    (r.leave k).2.Fresh patience now where
  keyed := fun e there => h.keyed e (keyed_of_leave there).1
  queued := fun e there => h.queued e (queued_of_leave there)

/-- If nobody leaves with a second half, nobody has waited for it. -/
theorem Tagged.not_waiting (h : r.Tagged key) {k : Option κ} (left : (r.leave k).1 = none) :
    (r.leave k).2 = r ∧ ∀ a ∈ r.waiting, key a ≠ k := by
  rcases leave_cases k r with ⟨k', e, -, -, same⟩ | ⟨e, rest, -, -, same⟩ | ⟨absent, empty, same⟩
  · rw [same] at left
    cases left
  · rw [same] at left
    cases left
  · refine ⟨by rw [same], fun a there its => ?_⟩
    rcases List.mem_append.1 there with there | there
    · obtain ⟨e, member, rfl⟩ := List.mem_map.1 there
      rw [h.keyed e member] at its
      exact not_mem_of_lookup (absent e.1 its.symm) member rfl
    · obtain ⟨e, member, rfl⟩ := List.mem_map.1 there
      rw [h.queued e member] at its
      rw [empty its.symm] at member
      cases member

/-- Who leaves with a second half after the others have lapsed has not waited too long. -/
theorem in_time_of_leave {patience now : Nat} {k : Option κ} {a : α}
    (left : ((r.lapse patience now).2.leave k).1 = some a) : ∃ since,
    ((∃ k, (k, a, since) ∈ r.keyed) ∨ (a, since) ∈ r.queued) ∧ now - since < patience := by
  obtain ⟨since, ⟨k', -, there⟩ | ⟨-, first⟩⟩ := mem_of_leave left
  · rw [lapse_room] at there
    obtain ⟨there, early⟩ := List.mem_filter.1 there
    refine ⟨since, .inl ⟨k', there⟩, ?_⟩
    simpa [isLate] using early
  · rw [lapse_room] at first
    have early := List.head?_dropWhile_not (fun e : α × Nat => isLate patience now e.2) r.queued
    rw [first] at early
    refine ⟨since, .inr ((List.dropWhile_suffix _).subset (List.mem_of_mem_head? first)), ?_⟩
    simpa [isLate] using early

end

/-! ## Another order -/

/-- Who waits under keys is in no order. -/
theorem Tagged.reorder (h : r.Tagged key) {keyed : List (κ × α × Nat)} (order : keyed.Perm r.keyed) :
    Moves key r [] [] { r with keyed } where
  tagged := ⟨(order.map Prod.fst).nodup_iff.2 h.distinct, fun e there => h.keyed e (order.subset there),
    h.queued⟩
  all := by
    rw [List.append_nil]
    exact (order.map fun e => e.2.1).append_right _
  inOrder := by simp

/-- A list of images is in another order because what it is made of is. -/
theorem exists_map_of_perm {f : α → β} {as : List α} {bs : List β} (order : bs.Perm (as.map f)) :
    ∃ as' : List α, as'.Perm as ∧ as'.map f = bs := by
  generalize same : as.map f = images at order
  induction order generalizing as with
  | nil => exact ⟨as, .refl as, same⟩
  | cons b _ ih =>
    obtain ⟨a, as, rfl, rfl, rfl⟩ := List.map_eq_cons_iff.1 same
    obtain ⟨as', order, rfl⟩ := ih rfl
    exact ⟨a :: as', order.cons a, rfl⟩
  | swap b b' _ =>
    obtain ⟨a, as', rfl, rfl, others⟩ := List.map_eq_cons_iff.1 same
    obtain ⟨a', as, rfl, rfl, rfl⟩ := List.map_eq_cons_iff.1 others
    exact ⟨a' :: a :: as, .swap a a' as, rfl⟩
  | trans _ _ ih ih' =>
    obtain ⟨as', order, rfl⟩ := ih' same
    obtain ⟨as'', order', rfl⟩ := ih rfl
    exact ⟨as'', order'.trans order, rfl⟩

end WaitingRoom
