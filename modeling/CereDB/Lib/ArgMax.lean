import Mathlib

/-!
# `CereDB.Lib.ArgMax`: the first element of largest measure

Lemmas about `List.argmax`, for programs that keep the best element seen so far: a later element
replaces the one kept only when its measure is strictly larger. `keepBest` is that loop, started
from an element that may be there already.

* `argmax_append`: the best of two lists in sequence is the better of their bests, and on a tie
  that of the first list.
* `argmax_eq_getLast?`: in a list of strictly increasing measure the last element is the best.
* `argmax_of_argmax`: the best element is best for a second measure too, when that one puts no
  element above it and ties only where the first one does.
-/

set_option autoImplicit false

namespace CereDB.Lib

variable {α β γ : Type} [LinearOrder β] [LinearOrder γ]

/-- The loop that keeps the best element, from `best` on. -/
def keepBest (f : α → β) (best : Option α) (xs : List α) : Option α :=
  xs.foldl (List.argAux fun b c => f c < f b) best

/-- The better of two bests, the first one on a tie. -/
def better (f : α → β) : Option α → Option α → Option α
  | none, b => b
  | some a, none => some a
  | some a, some b => if f a < f b then some b else some a

variable (f : α → β)

theorem keepBest_none (xs : List α) : keepBest f none xs = xs.argmax f := rfl

theorem keepBest_cons (best : Option α) (x : α) (xs : List α) :
    keepBest f best (x :: xs) = keepBest f (better f best (some x)) xs := by
  cases best <;> rfl

theorem better_none_right (a : Option α) : better f a none = a := by
  cases a <;> rfl

theorem better_assoc (a b c : Option α) :
    better f (better f a b) c = better f a (better f b c) := by
  cases a with
  | none => rfl
  | some a =>
    cases b with
    | none => rfl
    | some b =>
      cases c with
      | none => rw [better_none_right, better_none_right]
      | some c =>
        simp only [better]
        by_cases hab : f a < f b
        · rw [if_pos hab]
          by_cases hbc : f b < f c
          · simp only [if_pos hbc, if_pos (hab.trans hbc)]
          · simp only [if_neg hbc, if_pos hab]
        · rw [if_neg hab]
          by_cases hbc : f b < f c
          · simp only [if_pos hbc]
          · have hac : ¬ f a < f c := not_lt.mpr ((not_lt.mp hbc).trans (not_lt.mp hab))
            simp only [if_neg hbc, if_neg hac, if_neg hab]

/-- The loop started from an element compares it with the best of the list. -/
theorem keepBest_eq (best : Option α) (xs : List α) :
    keepBest f best xs = better f best (xs.argmax f) := by
  induction xs generalizing best with
  | nil => exact (better_none_right f best).symm
  | cons x xs ih =>
    have hx : (x :: xs).argmax f = better f (some x) (xs.argmax f) := by
      rw [← keepBest_none, keepBest_cons, ih]
      rfl
    rw [keepBest_cons, ih, hx, better_assoc]

theorem argmax_append (xs ys : List α) :
    (xs ++ ys).argmax f = better f (xs.argmax f) (ys.argmax f) := by
  rw [← keepBest_eq, ← keepBest_none, keepBest, List.foldl_append]
  rfl

/-- The first list decides when nothing in the second is strictly better. -/
theorem argmax_append_of_le {xs ys : List α} {a : α} (ha : xs.argmax f = some a)
    (hle : ∀ y ∈ ys, f y ≤ f a) : (xs ++ ys).argmax f = some a := by
  rw [argmax_append, ha]
  cases hy : ys.argmax f with
  | none => rfl
  | some y =>
    have hmem : y ∈ ys := List.argmax_mem hy
    rw [better, if_neg (not_lt.mpr (hle y hmem))]

theorem argmax_append_of_eq_none {xs ys : List α} (h : xs.argmax f = none) :
    (xs ++ ys).argmax f = ys.argmax f := by
  rw [argmax_append, h]
  rfl

/-- Where the measure strictly increases, the last element is the best. -/
theorem argmax_eq_getLast? {xs : List α} (h : xs.Pairwise fun a b => f a < f b) :
    xs.argmax f = xs.getLast? := by
  rcases List.eq_nil_or_concat xs with rfl | ⟨init, last, rfl⟩
  · rfl
  · rw [List.concat_eq_append, argmax_append, List.getLast?_concat]
    cases hinit : init.argmax f with
    | none => rfl
    | some a =>
      have hlt : f a < f last := by
        rw [List.concat_eq_append] at h
        exact (List.pairwise_append.mp h).2.2 a (List.argmax_mem hinit) last
          List.mem_cons_self
      show (if f a < f last then some last else some a) = some last
      rw [if_pos hlt]

theorem argmax_of_argmax {f : α → β} {g : α → γ} {xs : List α} {a : α}
    (ha : xs.argmax f = some a) (hbest : ∀ b ∈ xs, g b ≤ g a)
    (htie : ∀ b ∈ xs, g a ≤ g b → f a ≤ f b) : xs.argmax g = some a := by
  classical
  obtain ⟨hmem, -, hfirst⟩ := List.mem_argmax_iff.mp (Option.mem_def.mpr ha)
  exact Option.mem_def.mp (List.mem_argmax_iff.mpr
    ⟨hmem, hbest, fun b hb hle => hfirst b hb (htie b hb hle)⟩)

end CereDB.Lib
