import Mathlib.Data.List.Dedup

/-!
# The order of last uses

`uses.dedup` keeps the last use of everything: it lists what was used, from the least to the most
recently used. Something is used again, and the oldest is dropped.
-/

namespace Recency

variable {κ : Type} [DecidableEq κ]

theorem dedup_concat (uses : List κ) (k : κ) :
    (uses ++ [k]).dedup = uses.dedup.erase k ++ [k] := by
  induction uses with
  | nil => rfl
  | cons u uses ih =>
    rw [List.cons_append]
    by_cases again : u ∈ uses
    · rw [List.dedup_cons_of_mem again, List.dedup_cons_of_mem (List.mem_append_left _ again), ih]
    · rw [List.dedup_cons_of_notMem again]
      by_cases same : u = k
      · subst same
        have absent : u ∉ uses.dedup := fun there => again (List.mem_dedup.1 there)
        rw [List.dedup_cons_of_mem (List.mem_append_right _ List.mem_cons_self), ih,
          List.erase_of_not_mem absent, List.erase_cons_head]
      · have absent : u ∉ uses ++ [k] := by
          intro there
          rcases List.mem_append.1 there with there | there
          · exact again there
          · exact same (List.mem_singleton.1 there)
        rw [List.dedup_cons_of_notMem absent, ih, List.erase_cons_tail (by simpa using same)]
        rfl

/-- `order` lists the most recently used ones. -/
def Latest (order uses : List κ) : Prop := order <:+ uses.dedup

namespace Latest

variable {order uses : List κ}

theorem nodup (latest : Latest order uses) : order.Nodup :=
  latest.sublist.nodup uses.nodup_dedup

theorem nil (uses : List κ) : Latest [] uses := List.nil_suffix

/-- The oldest are dropped. -/
theorem of_suffix {newer : List κ} (latest : Latest order uses) (suffix : newer <:+ order) :
    Latest newer uses :=
  suffix.trans latest

/-- Something is used, for the first time or again. -/
theorem use (latest : Latest order uses) (k : κ) :
    Latest (order.erase k ++ [k]) (uses ++ [k]) := by
  obtain ⟨older, split⟩ := latest
  unfold Latest
  rw [dedup_concat, ← split]
  by_cases old : k ∈ older
  · have unique := uses.nodup_dedup
    rw [← split] at unique
    have absent : k ∉ order := fun there => List.disjoint_of_nodup_append unique old there
    rw [List.erase_append_left _ old, List.erase_of_not_mem absent, List.append_assoc]
    exact List.suffix_append _ _
  · rw [List.erase_append_right _ old, List.append_assoc]
    exact List.suffix_append _ _

end Latest

end Recency
