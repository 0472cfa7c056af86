import Mathlib.Data.List.Basic
import Mathlib.Order.Bounds.Basic

/-!
# The edit graph of two lists

A point `(x, y)` stands for `x` elements of the one list and `y` of the other. One step to the right
drops an element of the first, one step down takes an element of the second, and where the next
elements are equal a step goes over both. The points go on beyond the lists.
-/

namespace EditGraph

variable {α : Type}

/-- The element with this index, if there is one. -/
def entry (xs : List α) (i : Int) : Option α := if 0 ≤ i then xs[i.toNat]? else none

/-- The next elements are there, and equal. -/
def Matches (a b : List α) (x y : Int) : Prop :=
  x < a.length ∧ y < b.length ∧ entry a x = entry b y

/-- A point that is reached from the origin with so many steps that are not over equal elements. -/
inductive Reach (a b : List α) : Nat → Int → Int → Prop where
  | origin : Reach a b 0 0 0
  | right {d : Nat} {x y : Int} : Reach a b d x y → Reach a b (d + 1) (x + 1) y
  | down {d : Nat} {x y : Int} : Reach a b d x y → Reach a b (d + 1) x (y + 1)
  | across {d : Nat} {x y : Int} : Reach a b d x y → Matches a b x y → Reach a b d (x + 1) (y + 1)

/-- The diagonals that are reached with so many steps: every second one. -/
def Diagonal (d : Nat) (k : Int) : Prop := -d ≤ k ∧ k ≤ d ∧ (d - k) % 2 = 0

/-- The furthest point of a diagonal that is reached with so many steps. -/
def Furthest (a b : List α) (d : Nat) (k x : Int) : Prop :=
  Reach a b d x (x - k) ∧ ∀ x', Reach a b d x' (x' - k) → x' ≤ x

section Reach

variable {a b : List α} {d : Nat} {x y : Int}

theorem Reach.nonneg (h : Reach a b d x y) : 0 ≤ x ∧ 0 ≤ y := by
  induction h with
  | origin => exact ⟨Int.le_refl 0, Int.le_refl 0⟩
  | right _ ih => omega
  | down _ ih => omega
  | across _ _ ih => omega

theorem Reach.diagonal (h : Reach a b d x y) : Diagonal d (x - y) := by
  unfold Diagonal
  induction h with
  | origin => decide
  | right _ ih => omega
  | down _ ih => omega
  | across _ _ ih => omega

/-- Without steps to the right and down there are only equal elements. -/
theorem Reach.matches_of_zero (h : Reach a b 0 x y) :
    x = y ∧ ∀ i, 0 ≤ i → i < x → Matches a b i i := by
  generalize zero : 0 = e at h
  induction h with
  | origin =>
    refine ⟨rfl, fun i low high => ?_⟩
    omega
  | right _ _ => omega
  | down _ _ => omega
  | across _ step ih =>
    obtain ⟨rfl, before⟩ := ih zero
    refine ⟨rfl, fun i low high => ?_⟩
    rename_i x _
    by_cases last : i = x
    · rw [last]
      exact step
    · exact before i low (by omega)

/-- Points beyond the lists are reached later than the last point within. -/
theorem Reach.within (h : Reach a b d x y) :
    ∃ e, Reach a b e (min x a.length) (min y b.length) ∧
      e + (x - min x a.length) + (y - min y b.length) ≤ d := by
  induction h with
  | origin =>
    have zero (xs : List α) : min (0 : Int) xs.length = 0 := by omega
    rw [zero, zero]
    exact ⟨0, .origin, by omega⟩
  | right _ ih =>
    rename_i d x y _
    obtain ⟨e, reach, le⟩ := ih
    by_cases inside : x < a.length
    · have next : min (x + 1) (a.length : Int) = min x a.length + 1 := by omega
      rw [next]
      exact ⟨e + 1, .right reach, by omega⟩
    · have stay : min (x + 1) (a.length : Int) = min x a.length := by omega
      rw [stay]
      exact ⟨e, reach, by omega⟩
  | down _ ih =>
    rename_i d x y _
    obtain ⟨e, reach, le⟩ := ih
    by_cases inside : y < b.length
    · have next : min (y + 1) (b.length : Int) = min y b.length + 1 := by omega
      rw [next]
      exact ⟨e + 1, .down reach, by omega⟩
    · have stay : min (y + 1) (b.length : Int) = min y b.length := by omega
      rw [stay]
      exact ⟨e, reach, by omega⟩
  | across _ step ih =>
    rename_i d x y _
    obtain ⟨e, reach, le⟩ := ih
    obtain ⟨insideX, insideY, same⟩ := step
    have here : min x (a.length : Int) = x := by omega
    have here' : min y (b.length : Int) = y := by omega
    have next : min (x + 1) (a.length : Int) = x + 1 := by omega
    have next' : min (y + 1) (b.length : Int) = y + 1 := by omega
    rw [here, here'] at reach le
    rw [next, next']
    exact ⟨e, .across reach ⟨insideX, insideY, same⟩, by omega⟩

/-- A run of equal elements. -/
theorem Reach.overs (h : Reach a b d x y) {n : Nat}
    (steps : ∀ i : Nat, i < n → Matches a b (x + i) (y + i)) : Reach a b d (x + n) (y + n) := by
  induction n with
  | zero =>
    rw [Int.natCast_zero, Int.add_zero, Int.add_zero]
    exact h
  | succ n ih =>
    have before := ih fun i small => steps i (Nat.lt_succ_of_lt small)
    have next := Reach.across before (steps n (Nat.lt_succ_self n))
    rw [Int.natCast_succ, ← Int.add_assoc, ← Int.add_assoc]
    exact next

/-- The last step that is not across equal elements, and the run behind it. -/
theorem Reach.last_step (h : Reach a b (d + 1) x y) :
    ∃ x' y' : Int, (∃ w, x' = w + 1 ∧ Reach a b d w y' ∨ y' = w + 1 ∧ Reach a b d x' w) ∧
      x' ≤ x ∧ x - y = x' - y' ∧ ∀ i, x' ≤ i → i < x → Matches a b i (i - (x - y)) := by
  generalize next : d + 1 = e at h
  induction h with
  | origin => omega
  | right before _ =>
    rename_i d' x y _
    obtain rfl : d = d' := by omega
    refine ⟨x + 1, y, ⟨x, .inl ⟨rfl, before⟩⟩, Int.le_refl _, rfl, fun i low high => ?_⟩
    omega
  | down before _ =>
    rename_i d' x y _
    obtain rfl : d = d' := by omega
    refine ⟨x, y + 1, ⟨y, .inr ⟨rfl, before⟩⟩, Int.le_refl _, rfl, fun i low high => ?_⟩
    omega
  | across before step ih =>
    rename_i d' x y
    obtain ⟨x', y', last, le, same, run⟩ := ih next
    refine ⟨x', y', last, by omega, by omega, fun i low high => ?_⟩
    by_cases final : i = x
    · have here : i - (x + 1 - (y + 1)) = y := by omega
      rw [here, final]
      exact step
    · have line : i - (x + 1 - (y + 1)) = i - (x - y) := by omega
      rw [line]
      exact run i low (by omega)

end Reach

/-! ## The furthest points -/

section Furthest

variable {a b : List α} {d : Nat} {k x z : Int}

theorem Furthest.unique {x' : Int} (h : Furthest a b d k x) (h' : Furthest a b d k x') : x = x' :=
  Int.le_antisymm (h'.2 x h.1) (h.2 x' h'.1)

theorem Furthest.diagonal (h : Furthest a b d k x) : Diagonal d k := by
  have on := h.1.diagonal
  have same : x - (x - k) = k := by omega
  rw [same] at on
  exact on

/-- From a start that no other start on the diagonal is beyond, the run of equal elements ends at the
furthest point. -/
theorem furthest_of_start (start : Reach a b d z (z - k)) (le : z ≤ x)
    (run : ∀ i, z ≤ i → i < x → Matches a b i (i - k)) (stop : ¬ Matches a b x (x - k))
    (first : ∀ x', Reach a b d x' (x' - k) →
      ∃ w, w ≤ z ∧ ∀ i, w ≤ i → i < x' → Matches a b i (i - k)) : Furthest a b d k x := by
  constructor
  · obtain ⟨n, hn⟩ := Int.eq_ofNat_of_zero_le (Int.sub_nonneg_of_le le)
    have steps : ∀ i : Nat, i < n → Matches a b (z + i) (z - k + i) := by
      intro i small
      have line : z - k + i = z + i - k := by omega
      rw [line]
      exact run _ (by omega) (by omega)
    have there := start.overs steps
    have same : z + n = x := by omega
    have same' : z - k + n = x - k := by omega
    rw [same, same'] at there
    exact there
  · intro x' reach
    obtain ⟨w, below, run'⟩ := first x' reach
    by_contra beyond
    exact stop (run' x (by omega) (by omega))

/-- The furthest point with no steps. -/
theorem furthest_zero (le : 0 ≤ x) (run : ∀ i, 0 ≤ i → i < x → Matches a b i (i - 0))
    (stop : ¬ Matches a b x (x - 0)) : Furthest a b 0 0 x := by
  refine furthest_of_start .origin le run stop fun x' reach => ⟨0, Int.le_refl 0, fun i low high => ?_⟩
  rw [Int.sub_zero]
  exact reach.matches_of_zero.2 i low high

/-- The furthest point is behind a step down from the diagonal above or a step to the right from the
one below, whichever leads further. -/
theorem furthest_succ
    (start : Furthest a b d (k + 1) z ∨ Furthest a b d (k - 1) (z - 1))
    (above : ∀ w, Reach a b d w (w - (k + 1)) → w ≤ z)
    (below : ∀ w, Reach a b d w (w - (k - 1)) → w + 1 ≤ z) (le : z ≤ x)
    (run : ∀ i, z ≤ i → i < x → Matches a b i (i - k)) (stop : ¬ Matches a b x (x - k)) :
    Furthest a b (d + 1) k x := by
  have here : Reach a b (d + 1) z (z - k) := by
    cases start with
    | inl start =>
      have next := start.1.down
      have same : z - (k + 1) + 1 = z - k := by omega
      rw [same] at next
      exact next
    | inr start =>
      have next := start.1.right
      have same : z - 1 + 1 = z := by omega
      have same' : z - 1 - (k - 1) = z - k := by omega
      rw [same, same'] at next
      exact next
  refine furthest_of_start here le run stop fun x' reach => ?_
  obtain ⟨w, v, ⟨u, last⟩, -, line, run'⟩ := reach.last_step
  have same : x' - (x' - k) = k := by omega
  rw [same] at line run'
  refine ⟨w, ?_, run'⟩
  rcases last with ⟨rfl, reach⟩ | ⟨rfl, reach⟩
  · apply below
    have point : u - (k - 1) = v := by omega
    rw [point]
    exact reach
  · apply above
    have point : w - (k + 1) = u := by omega
    rw [point]
    exact reach

end Furthest

/-! ## Common sublists -/

section Common

variable {a b : List α}

theorem entry_append (front : List α) (c : α) (back : List α) :
    entry (front ++ c :: back) front.length = some c := by
  unfold entry
  rw [if_pos (Int.natCast_nonneg _), Int.toNat_natCast, List.getElem?_append_right (Nat.le_refl _),
    Nat.sub_self]
  rfl

/-- A common sublist of what is left gives a way to the end. -/
theorem reach_of_common {d : Nat} {front front' back back' c : List α} (left : c.Sublist back)
    (right : c.Sublist back')
    (reach : Reach (front ++ back) (front' ++ back') d front.length front'.length) :
    ∃ e, Reach (front ++ back) (front' ++ back') e (front ++ back).length (front' ++ back').length ∧
      e + 2 * c.length = d + back.length + back'.length := by
  induction left generalizing d front front' back' with
  | slnil =>
    induction back' generalizing d front' with
    | nil =>
      rw [List.append_nil, List.append_nil] at reach ⊢
      exact ⟨d, reach, rfl⟩
    | cons y back' ih =>
      have next := reach.down
      have whole : front' ++ y :: back' = (front' ++ [y]) ++ back' := by simp
      have size : (front'.length : Int) + 1 = (front' ++ [y]).length := by simp
      rw [whole, size] at next
      obtain ⟨e, ends, cost⟩ := ih (List.nil_sublist _) next
      rw [← whole] at ends
      refine ⟨e, ends, ?_⟩
      simp only [List.length_cons] at cost ⊢
      omega
  | cons x left ih =>
    rename_i c back
    have next := reach.right
    have whole : front ++ x :: back = (front ++ [x]) ++ back := by simp
    have size : (front.length : Int) + 1 = (front ++ [x]).length := by simp
    rw [whole, size] at next
    obtain ⟨e, ends, cost⟩ := ih right next
    rw [← whole] at ends
    refine ⟨e, ends, ?_⟩
    simp only [List.length_cons] at cost ⊢
    omega
  | cons_cons x left ih =>
    rename_i c back
    induction back' generalizing d front' with
    | nil => cases right
    | cons y back' ih' =>
      have whole' : front' ++ y :: back' = (front' ++ [y]) ++ back' := by simp
      have size' : (front'.length : Int) + 1 = (front' ++ [y]).length := by simp
      cases right with
      | cons _ right =>
        have next := reach.down
        rw [whole', size'] at next
        obtain ⟨e, ends, cost⟩ := ih' right next
        rw [← whole'] at ends
        refine ⟨e, ends, ?_⟩
        simp only [List.length_cons] at cost ⊢
        omega
      | cons_cons _ right =>
        have whole : front ++ x :: back = (front ++ [x]) ++ back := by simp
        have size : (front.length : Int) + 1 = (front ++ [x]).length := by simp
        have step : Matches (front ++ x :: back) (front' ++ x :: back') front.length front'.length := by
          refine ⟨?_, ?_, ?_⟩
          · rw [List.length_append, List.length_cons]
            omega
          · rw [List.length_append, List.length_cons]
            omega
          · rw [entry_append, entry_append]
        have next := reach.across step
        rw [whole', size', whole, size] at next
        obtain ⟨e, ends, cost⟩ := ih right next
        rw [← whole', ← whole] at ends
        refine ⟨e, ends, ?_⟩
        simp only [List.length_cons] at cost ⊢
        omega

/-- The end is reached with as many steps as elements are not in a common sublist. -/
theorem reach_end_of_common {c : List α} (left : c.Sublist a) (right : c.Sublist b) :
    ∃ e, Reach a b e a.length b.length ∧ e + 2 * c.length = a.length + b.length := by
  have begins : Reach ([] ++ a) ([] ++ b) 0 ([] : List α).length ([] : List α).length := .origin
  obtain ⟨e, ends, cost⟩ := reach_of_common left right begins
  refine ⟨e, ends, ?_⟩
  rw [cost, Nat.zero_add]

end Common

end EditGraph
