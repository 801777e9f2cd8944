import Mathlib

/-!
# `CereDB.Lib.Greedy`: cutting a list into chunks greedily

`greedy full cur xs` appends the elements of `xs` to the open chunk `cur` one by one. Where
`full cur x` holds, it closes the open chunk and starts the next one with `x`. The result is
the list of closed chunks and the chunk left open. `chunks full xs` starts from nothing and
closes the last chunk as well.

`flatten_chunks` says that no element is lost, moved or doubled. `ne_nil_of_mem_chunks` says
that no chunk is empty, for a `full` that never closes the empty chunk. `chunks_invariant` is the
induction rule: what holds of single elements and survives adding one that fits holds of every
chunk. `isChain_chunks` says that a chunk is closed only where the next element does not fit.
-/

set_option autoImplicit false

namespace CereDB.Lib

variable {α : Type}

/-- The closed chunks and the open chunk after all of `xs`. -/
def greedy (full : List α → α → Bool) : List α → List α → List (List α) × List α
  | cur, [] => ([], cur)
  | cur, x :: xs =>
    if full cur x then
      let r := greedy full [x] xs
      (cur :: r.1, r.2)
    else greedy full (cur ++ [x]) xs

/-- A list without elements makes no chunk, any other list makes one. -/
def closeChunk : List α → List (List α)
  | [] => []
  | x :: xs => [x :: xs]

/-- All chunks of a list. -/
def chunks (full : List α → α → Bool) (xs : List α) : List (List α) :=
  (greedy full [] xs).1 ++ closeChunk (greedy full [] xs).2

variable {full : List α → α → Bool}

/-- A full chunk is closed, and the element opens the next one. -/
theorem greedy_cons_of_full {cur : List α} {x : α} (xs : List α) (h : full cur x = true) :
    greedy full cur (x :: xs) = (cur :: (greedy full [x] xs).1, (greedy full [x] xs).2) := by
  rw [greedy, if_pos h]

/-- An element that fits joins the open chunk. -/
theorem greedy_cons_of_fits {cur : List α} {x : α} (xs : List α) (h : full cur x = false) :
    greedy full cur (x :: xs) = greedy full (cur ++ [x]) xs := by
  rw [greedy, if_neg (by rw [h]; exact Bool.false_ne_true)]

/-- The chunks in order are the open chunk followed by the elements. -/
theorem flatten_greedy (cur xs : List α) :
    (greedy full cur xs).1.flatten ++ (greedy full cur xs).2 = cur ++ xs := by
  induction xs generalizing cur with
  | nil => rw [greedy, List.flatten_nil, List.nil_append, List.append_nil]
  | cons x xs ih =>
    rw [greedy]
    split
    · rw [List.flatten_cons, List.append_assoc, ih [x]]
      rfl
    · rw [ih (cur ++ [x]), List.append_assoc]
      rfl

theorem flatten_closeChunk (xs : List α) : (closeChunk xs).flatten = xs := by
  cases xs with
  | nil => rfl
  | cons x xs => rw [closeChunk, List.flatten_singleton]

/-- The chunks of a list in order are the list. -/
theorem flatten_chunks (xs : List α) : (chunks full xs).flatten = xs := by
  rw [chunks, List.flatten_append, flatten_closeChunk, flatten_greedy, List.nil_append]

/-- The first chunk extends the chunk that was open at the start. -/
theorem exists_first_chunk {cur : List α} (xs : List α) (hcur : cur ≠ []) :
    ∃ ext rest, (greedy full cur xs).1 ++ closeChunk (greedy full cur xs).2
      = (cur ++ ext) :: rest := by
  induction xs generalizing cur with
  | nil =>
    cases cur with
    | nil => exact absurd rfl hcur
    | cons y ys => exact ⟨[], [], by rw [greedy, closeChunk, List.append_nil]; rfl⟩
  | cons x xs ih =>
    cases hfull : full cur x with
    | true =>
      rw [greedy_cons_of_full xs hfull]
      exact ⟨[], _, by rw [List.append_nil]; rfl⟩
    | false =>
      rw [greedy_cons_of_fits xs hfull]
      obtain ⟨ext, rest, h⟩ := ih (List.append_ne_nil_of_right_ne_nil cur (List.cons_ne_nil x []))
      exact ⟨x :: ext, rest, by rw [h, List.append_assoc]; rfl⟩

/-- No closed chunk is empty, as long as the empty chunk is never full. -/
theorem ne_nil_of_mem_greedy (hfull : ∀ x, full [] x = false) {cur xs c : List α}
    (hc : c ∈ (greedy full cur xs).1) : c ≠ [] := by
  induction xs generalizing cur with
  | nil => simp [greedy] at hc
  | cons x xs ih =>
    rw [greedy] at hc
    split at hc
    · rename_i hx
      rcases List.mem_cons.mp hc with rfl | hc
      · rintro rfl
        rw [hfull] at hx
        exact Bool.false_ne_true hx
      · exact ih hc
    · exact ih hc

/-- No chunk is empty, as long as the empty chunk is never full. -/
theorem ne_nil_of_mem_chunks (hfull : ∀ x, full [] x = false) {xs c : List α}
    (hc : c ∈ chunks full xs) : c ≠ [] := by
  rcases List.mem_append.mp hc with hc | hc
  · exact ne_nil_of_mem_greedy hfull hc
  · cases h : (greedy full [] xs).2 with
    | nil => simp [h, closeChunk] at hc
    | cons y ys =>
      rw [h, closeChunk, List.mem_singleton] at hc
      rw [hc]
      exact List.cons_ne_nil y ys

/-- The invariant rule for the closed chunks and the open one. -/
theorem greedy_invariant {P : List α → Prop} {cur xs : List α} (hcur : P cur)
    (hone : ∀ x ∈ xs, P [x])
    (hstep : ∀ c, ∀ x ∈ xs, P c → full c x = false → P (c ++ [x])) :
    (∀ c ∈ (greedy full cur xs).1, P c) ∧ P (greedy full cur xs).2 := by
  induction xs generalizing cur with
  | nil =>
    constructor
    · intro c hc
      cases hc
    · exact hcur
  | cons x xs ih =>
    have htail := fun {cur} (hcur : P cur) => ih hcur
      (fun y hy => hone y (List.mem_cons_of_mem x hy))
      fun c y hy => hstep c y (List.mem_cons_of_mem x hy)
    cases hfull : full cur x with
    | true =>
      rw [greedy_cons_of_full xs hfull]
      have hrest := htail (hone x List.mem_cons_self)
      exact ⟨List.forall_mem_cons.mpr ⟨hcur, hrest.1⟩, hrest.2⟩
    | false =>
      rw [greedy_cons_of_fits xs hfull]
      exact htail (hstep cur x List.mem_cons_self hcur hfull)

/-- The invariant rule for chunks. -/
theorem chunks_invariant {P : List α → Prop} {xs c : List α} (hnil : P [])
    (hone : ∀ x ∈ xs, P [x])
    (hstep : ∀ c, ∀ x ∈ xs, P c → full c x = false → P (c ++ [x]))
    (hc : c ∈ chunks full xs) : P c := by
  have h := greedy_invariant hnil hone hstep
  rcases List.mem_append.mp hc with hc | hc
  · exact h.1 c hc
  · cases hopen : (greedy full [] xs).2 with
    | nil => simp [hopen, closeChunk] at hc
    | cons y ys =>
      rw [hopen, closeChunk, List.mem_singleton] at hc
      rw [hc, ← hopen]
      exact h.2

/-- A chunk is full for the first element of the chunk behind it. -/
def Closes (full : List α → α → Bool) (c d : List α) : Prop := ∃ x ∈ d.head?, full c x = true

theorem isChain_greedy {cur xs : List α} (hcur : cur ≠ []) :
    List.IsChain (Closes full) ((greedy full cur xs).1 ++ closeChunk (greedy full cur xs).2) := by
  induction xs generalizing cur with
  | nil =>
    cases cur with
    | nil => exact absurd rfl hcur
    | cons y ys => exact List.isChain_singleton _
  | cons x xs ih =>
    cases hfull : full cur x with
    | true =>
      have hrest := ih (List.cons_ne_nil x [])
      -- The chunk that follows starts with the element that did not fit.
      obtain ⟨ext, rest, hfirst⟩ := @exists_first_chunk _ full [x] xs (List.cons_ne_nil x [])
      rw [greedy_cons_of_full xs hfull, List.cons_append]
      rw [hfirst] at hrest ⊢
      exact List.isChain_cons_cons.mpr ⟨⟨x, rfl, hfull⟩, hrest⟩
    | false =>
      rw [greedy_cons_of_fits xs hfull]
      exact ih (List.append_ne_nil_of_right_ne_nil cur (List.cons_ne_nil x []))

/-- Every chunk is closed by the first element of the next one, as long as the empty chunk is never
full. -/
theorem isChain_chunks (hfull : ∀ x, full [] x = false) (xs : List α) :
    List.IsChain (Closes full) (chunks full xs) := by
  cases xs with
  | nil => exact List.IsChain.nil
  | cons x xs =>
    rw [chunks, greedy_cons_of_fits xs (hfull x)]
    exact isChain_greedy (List.cons_ne_nil x [])

/-! ### What is made of each piece -/

theorem exists_forall₂ {β : Type} {R : α → β → Prop} {as : List α} (h : ∀ a ∈ as, ∃ b, R a b) :
    ∃ bs, List.Forall₂ R as bs := by
  induction as with
  | nil => exact ⟨[], .nil⟩
  | cons a as ih =>
    obtain ⟨b, hb⟩ := h a List.mem_cons_self
    obtain ⟨bs, hbs⟩ := ih fun a' ha' => h a' (List.mem_cons_of_mem a ha')
    exact ⟨b :: bs, .cons hb hbs⟩

theorem exists_left_of_forall₂ {β : Type} {R : α → β → Prop} {as : List α} {bs : List β}
    (h : List.Forall₂ R as bs) {b : β} (hb : b ∈ bs) : ∃ a ∈ as, R a b := by
  induction h with
  | nil => cases hb
  | @cons a _ _ _ hhere _ ih =>
    rcases List.mem_cons.mp hb with rfl | hb
    · exact ⟨a, List.mem_cons_self, hhere⟩
    · obtain ⟨a', ha', hrel⟩ := ih hb
      exact ⟨a', List.mem_cons_of_mem a ha', hrel⟩

theorem exists_right_of_forall₂ {β : Type} {R : α → β → Prop} {as : List α} {bs : List β}
    (h : List.Forall₂ R as bs) {a : α} (ha : a ∈ as) : ∃ b ∈ bs, R a b :=
  exists_left_of_forall₂ (R := fun b a => R a b) h.flip ha

end CereDB.Lib
