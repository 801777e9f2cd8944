import Mathlib

/-!
# `CereDB.Lib.Recency`: queues ordered by latest use

A history lists the uses of things in order. The age of a thing is the number of uses since its
latest one, and `Recency uses queue` says that a queue holds used things with strictly falling age:
its first element is the least recently used one, and no element stands in it twice. A use moves a
thing to the end of the queue (`Recency.use`), and elements may be taken out anywhere
(`Recency.sublist`).
-/

set_option autoImplicit false

namespace CereDB.Lib

variable {α : Type} [DecidableEq α]

/-- The number of uses since the latest one of a thing. -/
def age (uses : List α) (a : α) : Nat := uses.reverse.idxOf a

theorem age_concat (uses : List α) (x a : α) :
    age (uses ++ [x]) a = if x = a then 0 else age uses a + 1 := by
  rw [age, List.reverse_append, List.reverse_singleton, List.singleton_append, List.idxOf_cons]
  by_cases hx : x = a
  · simp [hx]
  · have hbeq : (x == a) = false := by simpa using hx
    rw [hbeq, if_neg hx]
    rfl

/-- The queue holds used things, from the least to the most recently used one. -/
structure Recency (uses queue : List α) : Prop where
  sorted : queue.Pairwise fun a b => age uses b < age uses a
  used : ∀ a ∈ queue, a ∈ uses

namespace Recency

variable {uses queue : List α}

theorem nil (uses : List α) : Recency uses [] := ⟨List.Pairwise.nil, by simp⟩

theorem nodup (h : Recency uses queue) : queue.Nodup :=
  h.sorted.imp fun hlt heq => by
    subst heq
    exact lt_irrefl _ hlt

theorem sublist (h : Recency uses queue) {rest : List α} (hrest : List.Sublist rest queue) :
    Recency uses rest :=
  ⟨h.sorted.sublist hrest, fun a ha => h.used a (hrest.subset ha)⟩

/-- A use moves a thing to the end, or puts it there. -/
theorem use (h : Recency uses queue) (x : α) :
    Recency (uses ++ [x]) (queue.filter (· ≠ x) ++ [x]) where
  sorted := by
    have hother {a : α} (ha : a ∈ queue.filter (· ≠ x)) : age (uses ++ [x]) a = age uses a + 1 := by
      have hne : a ≠ x := by simpa using (List.mem_filter.mp ha).2
      rw [age_concat, if_neg (Ne.symm hne)]
    rw [List.pairwise_append]
    refine ⟨?_, List.pairwise_singleton _ _, ?_⟩
    · refine ((h.sorted.sublist List.filter_sublist).imp_of_mem fun ha hb hlt => ?_)
      rw [hother ha, hother hb]
      exact Nat.succ_lt_succ hlt
    · intro a ha b hb
      rw [List.mem_singleton] at hb
      rw [hb, hother ha, age_concat, if_pos rfl]
      exact Nat.succ_pos _
  used := by
    intro a ha
    rw [List.mem_append, List.mem_filter, List.mem_singleton] at ha
    rw [List.mem_append, List.mem_singleton]
    exact ha.imp_left fun hmem => h.used a hmem.1

/-- The first element is the least recently used one. -/
theorem age_lt_of_mem {oldest : α} {rest : List α} (h : Recency uses (oldest :: rest)) :
    ∀ a ∈ rest, age uses a < age uses oldest :=
  (List.pairwise_cons.mp h.sorted).1

end Recency

end CereDB.Lib
