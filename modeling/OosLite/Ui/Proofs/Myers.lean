import Mathlib.Data.List.Nodup
import OosLite.Ui.LineDiff

/-!
# The edits of `runMyers` are the fewest

After every round the object holds the furthest points of the edit graph, so the first round that
comes to the end has the fewest steps; and on the way back the stored objects lead through the points
of the rounds before.
-/

namespace OosLite

open EditGraph

/-! ## Edits -/

namespace Edit

variable {α : Type}

/-- The texts before the edits. -/
def olds (edits : List (Edit α)) : List α := (edits.filter (·.type ≠ .add)).map Edit.text

/-- The texts after the edits. -/
def news (edits : List (Edit α)) : List α := (edits.filter (·.type ≠ .del)).map Edit.text

/-- The texts that stay. -/
def sames (edits : List (Edit α)) : List α := (edits.filter (·.type = .same)).map Edit.text

/-- The number of additions and deletions. -/
def changes (edits : List (Edit α)) : Nat := edits.countP (·.type ≠ .same)

@[simp] theorem olds_nil : olds ([] : List (Edit α)) = [] := rfl
@[simp] theorem news_nil : news ([] : List (Edit α)) = [] := rfl
@[simp] theorem changes_nil : changes ([] : List (Edit α)) = 0 := rfl

@[simp] theorem olds_cons (e : Edit α) (edits : List (Edit α)) :
    olds (e :: edits) = if e.type = .add then olds edits else e.text :: olds edits := by
  unfold olds
  cases h : e.type <;> simp [h]

@[simp] theorem news_cons (e : Edit α) (edits : List (Edit α)) :
    news (e :: edits) = if e.type = .del then news edits else e.text :: news edits := by
  unfold news
  cases h : e.type <;> simp [h]

@[simp] theorem changes_cons (e : Edit α) (edits : List (Edit α)) :
    changes (e :: edits) = if e.type = .same then changes edits else changes edits + 1 := by
  unfold changes
  cases h : e.type <;> simp [h]

/-- What stays is common to both. -/
theorem sames_sublist (edits : List (Edit α)) :
    (sames edits).Sublist (olds edits) ∧ (sames edits).Sublist (news edits) := by
  unfold sames olds news
  constructor
  · refine (List.monotone_filter_right edits fun e kept => ?_).map _
    simp only [decide_eq_true_eq] at kept ⊢
    rw [kept]
    decide
  · refine (List.monotone_filter_right edits fun e kept => ?_).map _
    simp only [decide_eq_true_eq] at kept ⊢
    rw [kept]
    decide

theorem changes_eq (edits : List (Edit α)) :
    changes edits + 2 * (sames edits).length = (olds edits).length + (news edits).length := by
  induction edits with
  | nil => rfl
  | cons e edits ih =>
    rw [changes_cons, olds_cons, news_cons]
    unfold sames at ih ⊢
    cases h : e.type <;> simp [h] at ih ⊢ <;> omega

end Edit

open Edit

namespace Myers

variable {α : Type} [DecidableEq α] {a b : List α}

theorem isSame_iff {x y : Int} : isSame a b x y = true ↔ Matches a b x y := by
  unfold isSame Matches
  simp only [Bool.and_eq_true, decide_eq_true_eq, and_assoc]

/-- The loop goes to the end of a run of equal elements. -/
theorem snake_spec {k x : Int} {fuel : Nat} (enough : (a.length - x).toNat ≤ fuel) :
    x ≤ snake a b fuel x (x - k) ∧
      (∀ i, x ≤ i → i < snake a b fuel x (x - k) → Matches a b i (i - k)) ∧
      ¬ Matches a b (snake a b fuel x (x - k)) (snake a b fuel x (x - k) - k) := by
  induction fuel generalizing x with
  | zero =>
    refine ⟨Int.le_refl _, fun i low high => ?_, fun step => ?_⟩
    · unfold snake at high
      omega
    · have inside := step.1
      unfold snake at inside
      omega
  | succ fuel ih =>
    unfold snake
    by_cases step : isSame a b x (x - k) = true
    · rw [if_pos step]
      have matched := isSame_iff.1 step
      have inside := matched.1
      have line : x - k + 1 = x + 1 - k := by omega
      rw [line]
      obtain ⟨le, run, stop⟩ := ih (x := x + 1) (by omega)
      refine ⟨by omega, fun i low high => ?_, stop⟩
      by_cases first : i = x
      · rw [first]
        exact matched
      · exact run i (by omega) high
    · rw [if_neg step]
      refine ⟨Int.le_refl _, fun i low high => ?_, fun h => step (isSame_iff.2 h)⟩
      omega

/-- The object before a round: it leads to the origin, or holds the furthest points of the round
before. -/
def Row (a b : List α) : Nat → Furthests → Prop
  | 0, v => v 1 = some 0
  | d + 1, v => ∀ k, Diagonal d k → ∃ x, v k = some x ∧ Furthest a b d k x

/-- Where the run on a diagonal starts. -/
def Start (a b : List α) (v : Furthests) : Nat → Int → Int → Prop
  | 0, _, z => z = 0
  | d + 1, k, z =>
    if goesDown v (d + 1 : Nat) k then v (k + 1) = some z ∧ Furthest a b d (k + 1) z
    else v (k - 1) = some (z - 1) ∧ Furthest a b d (k - 1) (z - 1)

omit [DecidableEq α] in
theorem start_succ {v : Furthests} {d : Nat} {k z : Int} : Start a b v (d + 1) k z ↔
    if goesDown v (d + 1 : Nat) k then v (k + 1) = some z ∧ Furthest a b d (k + 1) z
    else v (k - 1) = some (z - 1) ∧ Furthest a b d (k - 1) (z - 1) := Iff.rfl

omit [DecidableEq α] in
/-- The start is beyond all that the round before leads to. -/
theorem exists_start {d : Nat} {k : Int} {v : Furthests} (row : Row a b (d + 1) v)
    (on : Diagonal (d + 1) k) :
    ∃ z, Start a b v (d + 1) k z ∧ (∀ w, Reach a b d w (w - (k + 1)) → w ≤ z) ∧
      ∀ w, Reach a b d w (w - (k - 1)) → w + 1 ≤ z := by
  obtain ⟨low, high, parity⟩ := on
  -- a point of the round before is on a diagonal of that round
  have line {j w : Int} (reach : Reach a b d w (w - j)) : Diagonal d j := by
    have there := reach.diagonal
    have same : w - (w - j) = j := by omega
    rw [same] at there
    exact there
  simp only [start_succ]
  by_cases first : k = -((d + 1 : Nat) : Int)
  · obtain ⟨x, found, furthest⟩ := row (k + 1) ⟨by omega, by omega, by omega⟩
    have down : goesDown v (d + 1 : Nat) k = true := by
      unfold goesDown
      rw [decide_eq_true first, Bool.true_or]
    refine ⟨x, ?_, furthest.2, fun w reach => ?_⟩
    · rw [if_pos down]
      exact ⟨found, furthest⟩
    · have outside := (line reach).1
      omega
  obtain ⟨x, found, furthest⟩ := row (k - 1) ⟨by omega, by omega, by omega⟩
  by_cases last : k = (d + 1 : Nat)
  · have right : goesDown v (d + 1 : Nat) k = false := by
      unfold goesDown
      rw [decide_eq_false first, decide_eq_false (not_not_intro last), Bool.false_and, Bool.or_false]
    refine ⟨x + 1, ?_, fun w reach => ?_, fun w reach => ?_⟩
    · rw [right, if_neg Bool.false_ne_true, Int.add_sub_cancel]
      exact ⟨found, furthest⟩
    · have outside := (line reach).2.1
      omega
    · have le := furthest.2 w reach
      omega
  · obtain ⟨x', found', furthest'⟩ := row (k + 1) ⟨by omega, by omega, by omega⟩
    have cond : goesDown v (d + 1 : Nat) k = decide (x < x') := by
      unfold goesDown
      rw [decide_eq_false first, decide_eq_true last, Bool.false_or, Bool.true_and, found, found']
      rfl
    rw [cond]
    by_cases less : x < x'
    · refine ⟨x', ?_, furthest'.2, fun w reach => ?_⟩
      · rw [if_pos (decide_eq_true less)]
        exact ⟨found', furthest'⟩
      · have le := furthest.2 w reach
        omega
    · refine ⟨x + 1, ?_, fun w reach => ?_, fun w reach => ?_⟩
      · rw [if_neg (by simpa using less), Int.add_sub_cancel]
        exact ⟨found, furthest⟩
      · have le := furthest'.2 w reach
        omega
      · have le := furthest.2 w reach
        omega

/-- One round on one diagonal finds its furthest point. -/
theorem advance_spec {d : Nat} {k : Int} {v : Furthests} (row : Row a b d v)
    (on : Diagonal d k) :
    ∃ z x, Start a b v d k z ∧ advance a b v d k = some x ∧ Furthest a b d k x ∧ z ≤ x ∧
      ∀ i, z ≤ i → i < x → Matches a b i (i - k) := by
  cases d with
  | zero =>
    obtain rfl : k = 0 := by
      unfold Diagonal at on
      omega
    have found : v 1 = some 0 := row
    obtain ⟨le, run, stop⟩ := snake_spec (a := a) (b := b) (k := 0) (Nat.le_refl (a.length - 0 : Int).toNat)
    refine ⟨0, _, rfl, ?_, furthest_zero le run stop, le, run⟩
    unfold advance goesDown
    rw [decide_eq_true (by decide : (0 : Int) = -((0 : Nat) : Int)), Bool.true_or, if_pos rfl, Int.zero_add,
      found]
    rfl
  | succ d =>
    obtain ⟨z, start, above, below⟩ := exists_start row on
    obtain ⟨le, run, stop⟩ :=
      snake_spec (a := a) (b := b) (k := k) (x := z) (Nat.le_refl (a.length - z).toNat)
    have from' : Furthest a b d (k + 1) z ∨ Furthest a b d (k - 1) (z - 1) := by
      rw [start_succ] at start
      split at start
      · exact .inl start.2
      · exact .inr start.2
    refine ⟨z, _, start, ?_, furthest_succ from' above below le run stop, le, run⟩
    unfold advance
    rw [start_succ] at start
    by_cases down : goesDown v (d + 1 : Nat) k = true
    · rw [if_pos down] at start
      rw [if_pos down, start.1]
      rfl
    · rw [if_neg down] at start
      rw [if_neg down, start.1, Option.map_some, Int.sub_add_cancel]
      rfl

/-- What a round finds depends on the two neighbours. -/
theorem advance_congr {v v' : Furthests} {d k : Int} (above : v (k + 1) = v' (k + 1))
    (below : v (k - 1) = v' (k - 1)) : advance a b v d k = advance a b v' d k := by
  unfold advance goesDown
  rw [above, below]

/-- No round before comes to the end. -/
def NoEarlier (a b : List α) (d : Nat) : Prop := ∀ e < d, ¬ Reach a b e a.length b.length

omit [DecidableEq α] in
/-- In the first round that comes to the end it comes exactly there. -/
theorem eq_end {d : Nat} {k x : Int} (none : NoEarlier a b d) (furthest : Furthest a b d k x)
    (hit : x ≥ a.length ∧ x - k ≥ b.length) :
    Furthest a b d (a.length - b.length) a.length := by
  obtain ⟨e, reach, cost⟩ := furthest.1.within
  have endX : min x (a.length : Int) = a.length := by omega
  have endY : min (x - k) (b.length : Int) = b.length := by omega
  rw [endX, endY] at reach cost
  have same : e = d := by
    by_contra other
    exact none e (by omega) reach
  have here : x = a.length := by omega
  have diagonal : k = a.length - b.length := by omega
  rw [← diagonal, ← here]
  exact furthest

omit [DecidableEq α] in
/-- A point of the end is not missed. -/
theorem hit_of_reach {d : Nat} {x : Int} (furthest : Furthest a b d (a.length - b.length) x)
    (reach : Reach a b d a.length b.length) :
    x ≥ a.length ∧ x - (a.length - b.length) ≥ b.length := by
  have le := furthest.2 a.length (by rw [Int.sub_sub_self]; exact reach)
  omega

/-! ## The rounds -/

theorem mem_diagonals {d : Nat} {k : Int} : k ∈ diagonals d ↔ Diagonal d k := by
  unfold diagonals Diagonal
  rw [List.mem_map]
  constructor
  · intro there
    obtain ⟨i, member, rfl⟩ := there
    have small := List.mem_range.1 member
    omega
  · intro on
    obtain ⟨low, high, parity⟩ := on
    exact ⟨((k + d) / 2).toNat, List.mem_range.2 (by omega), by omega⟩

/-- What a round leaves: the furthest points of its diagonals, none of them the end; or it comes to
the end. -/
theorem round_spec {trace : List Furthests} {d : Nat} {v₀ v : Furthests} {ks : List Int}
    (row : Row a b d v₀) (none : NoEarlier a b d) (on : ∀ k ∈ ks, Diagonal d k) (nodup : ks.Nodup)
    (others : ∀ j, ¬ Diagonal d j → v j = v₀ j) :
    (Furthest a b d (a.length - b.length) a.length ∧ round a b trace d ks v =
      (backtrack a b trace d a.length b.length []).map .inl) ∨
    ∃ v', round a b trace d ks v = some (.inr v') ∧ (∀ j, j ∉ ks → v' j = v j) ∧
      ∀ k ∈ ks, ∃ x, v' k = some x ∧ Furthest a b d k x ∧ ¬ (x ≥ a.length ∧ x - k ≥ b.length) := by
  induction ks generalizing v with
  | nil => exact .inr ⟨v, rfl, fun j _ => rfl, nofun⟩
  | cons k ks ih =>
    have onK := on k List.mem_cons_self
    have onKs : ∀ k ∈ ks, Diagonal d k := fun j there => on j (List.mem_cons_of_mem _ there)
    obtain ⟨-, x, -, found, furthest, -⟩ := advance_spec row onK
    obtain ⟨low, high, parity⟩ := id onK
    -- the neighbours are of the other parity
    have same : advance a b v d k = some x := by
      rw [← found]
      apply advance_congr
      · exact others _ fun h => by have := h.2.2; omega
      · exact others _ fun h => by have := h.2.2; omega
    unfold round
    rw [same, Option.bind_eq_bind, Option.bind_some]
    by_cases hit : x ≥ a.length ∧ x - k ≥ b.length
    · left
      refine ⟨eq_end none furthest hit, ?_⟩
      rw [if_pos hit]
      cases backtrack a b trace d a.length b.length [] <;> rfl
    · rw [if_neg hit]
      have others' : ∀ j, ¬ Diagonal d j → setAt v k x j = v₀ j := by
        intro j off
        unfold setAt
        rw [if_neg fun (same : j = k) => off (same ▸ onK)]
        exact others j off
      obtain ⟨notThere, nodup'⟩ := List.nodup_cons.1 nodup
      cases ih onKs nodup' others' with
      | inl ended => exact .inl ended
      | inr going =>
        obtain ⟨v', result, kept, rest⟩ := going
        refine .inr ⟨v', result, fun j off => ?_, fun j there => ?_⟩
        · rw [kept j fun there => off (List.mem_cons_of_mem _ there)]
          unfold setAt
          rw [if_neg fun (same : j = k) => off (same ▸ List.mem_cons_self)]
        · rcases List.mem_cons.1 there with rfl | there
          · refine ⟨x, ?_, furthest, hit⟩
            rw [kept j notThere]
            unfold setAt
            rw [if_pos rfl]
          · exact rest j there

theorem nodup_diagonals (d : Nat) : (diagonals d).Nodup := by
  unfold diagonals
  apply List.nodup_range.map
  intro i j same
  simp only at same
  omega

/-- The stored objects of all rounds up to one. -/
def Stored (a b : List α) (trace : List Furthests) (d : Nat) : Prop :=
  ∀ e ≤ d, ∃ v, (trace)[e]? = some v ∧ Row a b e v

/-- The main loop comes to the end, in the first round that can. -/
theorem search_spec {count d : Nat} {v : Furthests} {trace : List Furthests}
    (total : d + count = a.length + b.length + 1) (row : Row a b d v) (none : NoEarlier a b d)
    (size : trace.length = d)
    (stored : ∀ e < d, ∃ v, (trace)[e]? = some v ∧ Row a b e v) :
    ∃ e trace', search a b count d v trace =
        (backtrack a b trace' e a.length b.length []).map some ∧ Stored a b trace' e ∧
      NoEarlier a b e ∧ Furthest a b e (a.length - b.length) a.length := by
  induction count generalizing d v trace with
  | zero =>
    -- deleting everything and adding everything is a way to the end
    obtain ⟨e, reach, cost⟩ := reach_end_of_common (List.nil_sublist a) (List.nil_sublist b)
    rw [List.length_nil] at cost
    exact absurd reach (none e (by omega))
  | succ count ih =>
    have stored' : Stored a b (trace ++ [v]) d := by
      intro e le
      by_cases last : e = d
      · subst last
        refine ⟨v, ?_, row⟩
        rw [List.getElem?_append_right (Nat.le_of_eq size), size, Nat.sub_self]
        rfl
      · obtain ⟨v', found, row'⟩ := stored e (by omega)
        exact ⟨v', by rw [List.getElem?_append_left (by omega), found], row'⟩
    unfold search
    simp only
    have size' : (trace ++ [v]).length = d + 1 := by
      rw [List.length_append, size]
      rfl
    generalize trace ++ [v] = trace' at *
    cases round_spec row none (fun k there => mem_diagonals.1 there) (nodup_diagonals d)
        (fun j _ => rfl) with
    | inl ended =>
      obtain ⟨furthest, result⟩ := ended
      refine ⟨d, trace', ?_, stored', none, furthest⟩
      rw [result]
      cases backtrack a b trace' d a.length b.length [] <;> rfl
    | inr going =>
      obtain ⟨v', result, -, points⟩ := going
      rw [result, Option.bind_eq_bind, Option.bind_some]
      have row' : Row a b (d + 1) v' := by
        intro k on
        obtain ⟨x, found, furthest, -⟩ := points k (mem_diagonals.2 on)
        exact ⟨x, found, furthest⟩
      have none' : NoEarlier a b (d + 1) := by
        intro e small reach
        by_cases here : e = d
        · subst here
          obtain ⟨x, -, furthest, noHit⟩ := points _ (mem_diagonals.2 reach.diagonal)
          exact noHit (hit_of_reach furthest reach)
        · exact none e (by omega) reach
      exact ih (by omega) row' none' size' fun e small => stored' e (Nat.le_of_lt_succ small)

/-! ## The way back -/

/-- The edits lead from what is left of the one list to what is left of the other. -/
def Script (a b : List α) (x y : Int) (edits : List (Edit α)) : Prop :=
  olds edits = a.drop x.toNat ∧ news edits = b.drop y.toNat

omit [DecidableEq α] in
theorem drop_entry {xs : List α} {x : Int} {t : α} (found : entry xs x = some t) :
    0 ≤ x ∧ xs.drop x.toNat = t :: xs.drop (x + 1).toNat := by
  unfold entry at found
  by_cases pos : 0 ≤ x
  · rw [if_pos pos] at found
    obtain ⟨small, same⟩ := List.getElem?_eq_some_iff.1 found
    have next : (x + 1).toNat = x.toNat + 1 := by omega
    rw [List.drop_eq_getElem_cons small, same, next]
    exact ⟨pos, rfl⟩
  · rw [if_neg pos] at found
    cases found

omit [DecidableEq α] in
theorem exists_entry {xs : List α} {x : Int} (pos : 0 ≤ x) (small : x < xs.length) :
    ∃ t, entry xs x = some t := by
  have inside : x.toNat < xs.length := by omega
  refine ⟨xs[x.toNat], ?_⟩
  unfold entry
  rw [if_pos pos, List.getElem?_eq_getElem inside]

omit [DecidableEq α] in
/-- Back over a run of equal elements to its start. -/
theorem unwind_spec {prevX prevY x y : Int} {n fuel : Nat} {edits : List (Edit α)}
    (posX : 0 ≤ x) (low : prevX ≤ x ∧ prevY ≤ y) (stop : x = prevX ∨ y = prevY)
    (run : ∀ i : Nat, i < n → Matches a b (x + i) (y + i))
    (script : Script a b (x + n) (y + n) edits) (enough : n ≤ fuel) :
    ∃ edits', unwind a prevX prevY fuel (x + n) (y + n) edits = some (x, y, edits') ∧
      Script a b x y edits' ∧ changes edits' = changes edits := by
  induction n generalizing fuel edits with
  | zero =>
    rw [Int.natCast_zero, Int.add_zero, Int.add_zero] at script ⊢
    refine ⟨edits, ?_, script, rfl⟩
    cases fuel with
    | zero => rfl
    | succ fuel =>
      have ended : ¬ (x > prevX ∧ y > prevY) := by omega
      rw [unwind, if_neg ended]
  | succ n ih =>
    obtain ⟨fuel, rfl⟩ : ∃ f, fuel = f + 1 := ⟨fuel - 1, by omega⟩
    have step := run n (Nat.lt_succ_self n)
    obtain ⟨t, found⟩ := exists_entry (Int.add_nonneg posX (Int.natCast_nonneg n)) step.1
    have found' : entry b (y + n) = some t := step.2.2.symm.trans found
    have going : x + (n + 1 : Nat) > prevX ∧ y + (n + 1 : Nat) > prevY := by omega
    have backX : x + (n + 1 : Nat) - 1 = x + n := by omega
    have backY : y + (n + 1 : Nat) - 1 = y + n := by omega
    have script' : Script a b (x + n) (y + n) (⟨.same, t⟩ :: edits) := by
      obtain ⟨before, after⟩ := script
      have nextX : x + (n + 1 : Nat) = x + n + 1 := by omega
      have nextY : y + (n + 1 : Nat) = y + n + 1 := by omega
      rw [nextX] at before
      rw [nextY] at after
      unfold Script
      rw [olds_cons, news_cons, (drop_entry found).2, (drop_entry found').2, ← before, ← after]
      exact ⟨rfl, rfl⟩
    obtain ⟨edits', result, script', count⟩ :=
      ih (fun i small => run i (Nat.lt_succ_of_lt small)) script' (Nat.le_of_succ_le_succ enough)
    refine ⟨edits', ?_, script', ?_⟩
    · rw [unwind, if_pos going, backX, backY, found, Option.bind_eq_bind, Option.bind_some]
      exact result
    · rw [count, changes_cons]
      rfl

omit [DecidableEq α] in
/-- One round back over a step down. -/
theorem backtrack_down {trace : List Furthests} {d : Nat} {x y z : Int} {v : Furthests} {t : α}
    {edits edits' : List (Edit α)} (found : (trace)[d + 1]? = some v)
    (down : goesDown v (d + 1 : Nat) (x - y) = true) (prev : v (x - y + 1) = some z)
    (result : unwind a z (z - (x - y + 1)) (x - z).toNat x y edits = some (z, z - (x - y), edits'))
    (text : entry b (z - (x - y + 1)) = some t) :
    backtrack a b trace (d + 1) x y edits =
      backtrack a b trace d z (z - (x - y + 1)) (⟨.add, t⟩ :: edits') := by
  have depth : ((d : Int) + 1) = (d + 1 : Nat) := rfl
  have back : z - (x - y) - 1 = z - (x - y + 1) := by omega
  rw [backtrack, found]
  simp only [Option.bind_eq_bind, Option.bind_some, depth, if_pos down, prev, result, if_true, back, text]

omit [DecidableEq α] in
/-- One round back over a step to the right. -/
theorem backtrack_right {trace : List Furthests} {d : Nat} {x y z : Int} {v : Furthests} {t : α}
    {edits edits' : List (Edit α)} (found : (trace)[d + 1]? = some v)
    (right : ¬ goesDown v (d + 1 : Nat) (x - y) = true) (prev : v (x - y - 1) = some (z - 1))
    (result : unwind a (z - 1) (z - 1 - (x - y - 1)) (x - (z - 1)).toNat x y edits =
      some (z, z - (x - y), edits'))
    (text : entry a (z - 1) = some t) :
    backtrack a b trace (d + 1) x y edits =
      backtrack a b trace d (z - 1) (z - (x - y)) (⟨.del, t⟩ :: edits') := by
  have depth : ((d : Int) + 1) = (d + 1 : Nat) := rfl
  have moved : ¬ z = z - 1 := by omega
  rw [backtrack, found]
  simp only [Option.bind_eq_bind, Option.bind_some, depth, if_neg right, prev, result, if_neg moved,
    text]

/-- Back from a furthest point through the rounds before it. -/
theorem backtrack_spec {trace : List Furthests} {d : Nat} {x y : Int} {edits : List (Edit α)}
    (stored : Stored a b trace d) (furthest : Furthest a b d (x - y) x)
    (inside : x ≤ a.length ∧ y ≤ b.length) (script : Script a b x y edits) :
    ∃ edits', backtrack a b trace d x y edits = some edits' ∧ Script a b 0 0 edits' ∧
      changes edits' = changes edits + d := by
  induction d generalizing x y edits with
  | zero =>
    have reach := furthest.1
    rw [Int.sub_sub_self] at reach
    obtain ⟨same, run⟩ := reach.matches_of_zero
    obtain ⟨n, hn⟩ := Int.eq_ofNat_of_zero_le reach.nonneg.1
    have hx : x = 0 + n := by omega
    have hy : y = 0 + n := by omega
    have script' := script
    rw [hx, hy] at script'
    have run' : ∀ i : Nat, i < n → Matches a b (0 + i) (0 + i) := by
      intro i small
      rw [Int.zero_add]
      exact run i (Int.natCast_nonneg i) (by omega)
    have low : (0 : Int) ≤ 0 ∧ (0 : Int) ≤ 0 := ⟨Int.le_refl 0, Int.le_refl 0⟩
    obtain ⟨edits', result, script', count⟩ :=
      unwind_spec (Int.le_refl 0) low (.inl rfl) run' script' (Nat.le_refl n)
    refine ⟨edits', ?_, script', by rw [count, Nat.add_zero]⟩
    have size : x.toNat = n := by omega
    rw [backtrack, size, hx, hy, result]
    rfl
  | succ d ih =>
    have stored' : Stored a b trace d := fun e le => stored e (Nat.le_succ_of_le le)
    obtain ⟨v, found, row⟩ := stored (d + 1) (Nat.le_refl _)
    obtain ⟨z, x', start, -, furthest', le, run⟩ := advance_spec row furthest.diagonal
    obtain rfl := furthest.unique furthest'
    rw [start_succ] at start
    -- the run goes from the start to the point
    obtain ⟨n, hn⟩ := Int.eq_ofNat_of_zero_le (Int.sub_nonneg_of_le le)
    have hx : z + n = x := by omega
    have hy : z - (x - y) + n = y := by omega
    have run' : ∀ i : Nat, i < n → Matches a b (z + i) (z - (x - y) + i) := by
      intro i small
      have line : z - (x - y) + i = z + i - (x - y) := by omega
      rw [line]
      exact run _ (by omega) (by omega)
    have script' : Script a b (z + n) (z - (x - y) + n) edits := by
      rw [hx, hy]
      exact script
    by_cases down : goesDown v (d + 1 : Nat) (x - y) = true
    · rw [if_pos down] at start
      obtain ⟨prev, before⟩ := start
      have pos := before.1.nonneg
      have low : z ≤ z ∧ z - (x - y + 1) ≤ z - (x - y) := by omega
      have enough : n ≤ (x - z).toNat := by omega
      obtain ⟨edits₁, result, script₁, count₁⟩ :=
        unwind_spec pos.1 low (.inl rfl) run' script' enough
      rw [hx, hy] at result
      have small : z - (x - y + 1) < b.length := by omega
      obtain ⟨t, text⟩ := exists_entry pos.2 small
      have next : z - (x - y + 1) + 1 = z - (x - y) := by omega
      have script₂ : Script a b z (z - (x - y + 1)) (⟨.add, t⟩ :: edits₁) := by
        obtain ⟨before', after⟩ := script₁
        unfold Script
        rw [olds_cons, news_cons, (drop_entry text).2, next, ← before', ← after]
        exact ⟨rfl, rfl⟩
      have diagonal : z - (z - (x - y + 1)) = x - y + 1 := by omega
      rw [← diagonal] at before
      obtain ⟨edits', result', script', count'⟩ := ih stored' before (by omega) script₂
      refine ⟨edits', ?_, script', ?_⟩
      · rw [backtrack_down found down prev result text]
        exact result'
      · rw [count', changes_cons, count₁]
        show changes edits + 1 + d = changes edits + (d + 1)
        omega
    · rw [if_neg down] at start
      obtain ⟨prev, before⟩ := start
      have pos := before.1.nonneg
      have low : z - 1 ≤ z ∧ z - 1 - (x - y - 1) ≤ z - (x - y) := by omega
      have stop : z = z - 1 ∨ z - (x - y) = z - 1 - (x - y - 1) := by omega
      have enough : n ≤ (x - (z - 1)).toNat := by omega
      obtain ⟨edits₁, result, script₁, count₁⟩ :=
        unwind_spec (by omega) low stop run' script' enough
      rw [hx, hy] at result
      have small : z - 1 < a.length := by omega
      obtain ⟨t, text⟩ := exists_entry pos.1 small
      have next : z - 1 + 1 = z := by omega
      have script₂ : Script a b (z - 1) (z - (x - y)) (⟨.del, t⟩ :: edits₁) := by
        obtain ⟨before', after⟩ := script₁
        unfold Script
        rw [olds_cons, news_cons, (drop_entry text).2, next, ← before', ← after]
        exact ⟨rfl, rfl⟩
      have diagonal : z - 1 - (z - (x - y)) = x - y - 1 := by omega
      rw [← diagonal] at before
      obtain ⟨edits', result', script', count'⟩ := ih stored' before (by omega) script₂
      refine ⟨edits', ?_, script', ?_⟩
      · rw [backtrack_right found down prev result text]
        exact result'
      · rw [count', changes_cons, count₁]
        show changes edits + 1 + d = changes edits + (d + 1)
        omega

end Myers

open Myers

/-- The lengths of the common sublists of two lists. -/
def commonLengths {α : Type} (a b : List α) : Set Nat :=
  {n | ∃ c : List α, c.Sublist a ∧ c.Sublist b ∧ c.length = n}

variable {α : Type} [DecidableEq α]

/-- The main loop comes to edits from the one list to the other. -/
theorem runMyersLoop_spec (a b : List α) : ∃ edits d, runMyersLoop a b = some (some edits) ∧
    olds edits = a ∧ news edits = b ∧ changes edits = d ∧ NoEarlier a b d := by
  have row : Row a b 0 (setAt (fun _ => none) 1 0) := by
    show setAt (fun _ => none) 1 0 1 = some 0
    unfold setAt
    rw [if_pos rfl]
  obtain ⟨d, trace, result, stored, none, furthest⟩ :=
    search_spec (Nat.zero_add _) row (fun e small => absurd small (Nat.not_lt_zero e))
      List.length_nil (fun e small => absurd small (Nat.not_lt_zero e))
  have script : Script a b a.length b.length [] := by
    unfold Script
    rw [Int.toNat_natCast, Int.toNat_natCast, List.drop_length, List.drop_length]
    exact ⟨rfl, rfl⟩
  obtain ⟨edits, back, script', count⟩ :=
    backtrack_spec stored furthest ⟨Int.le_refl _, Int.le_refl _⟩ script
  refine ⟨edits, d, ?_, script'.1, script'.2, ?_, none⟩
  · unfold runMyersLoop
    rw [result, back]
    rfl
  · rw [count, changes_nil, Nat.zero_add]

/-- `runMyers` comes to its edits through the main loop, and what it stored is there on the way back;
the edits lead from the one list to the other, with the longest common sublist of the two left as it
is. -/
theorem myers_minimal (a b : List α) : ∃ edits common,
    runMyersLoop a b = some (some edits) ∧ runMyers a b = some edits ∧
      olds edits = a ∧ news edits = b ∧ IsGreatest (commonLengths a b) common ∧
      changes edits + 2 * common = a.length + b.length := by
  obtain ⟨edits, d, result, before, after, count, none⟩ := runMyersLoop_spec a b
  have total := changes_eq edits
  have shared := sames_sublist edits
  rw [before, after] at total shared
  refine ⟨edits, (sames edits).length, result, ?_, before, after, ⟨?_, ?_⟩, total⟩
  · unfold runMyers
    rw [result]
    rfl
  · exact ⟨sames edits, shared.1, shared.2, rfl⟩
  · -- a longer one would lead to the end in an earlier round
    intro n member
    obtain ⟨c, left, right, rfl⟩ := member
    obtain ⟨e, reach, cost⟩ := reach_end_of_common left right
    by_contra longer
    exact none e (by omega) reach

end OosLite
