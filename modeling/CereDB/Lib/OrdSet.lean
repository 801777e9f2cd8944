import CereDB.Lib.OrdMap

/-!
# `CereDB.Lib.OrdSet`: ordered sets, and sums over maps

`OrdSet α` is a finite set whose elements are listed in ascending order. A set is determined by its
members (`OrdSet.ext`).

`OrdMap.sum f m` adds up `f` over the entries of a map. `OrdMap.sum_insert` and `OrdMap.sum_erase`
say how one change of the map changes the sum; a count is the sum of an indicator.
-/

set_option autoImplicit false

namespace CereDB.Lib

/-! ### Sums over a map -/

namespace OrdMap

variable {α β γ : Type} [LinearOrder α]

theorem nodup_toList (m : OrdMap α β) : m.toList.Nodup := by
  refine (sorted_toList m).imp fun {a b} hlt heq => ?_
  rw [heq] at hlt
  exact lt_irrefl _ hlt

/-- The entries after an insertion are the new one and those of the other keys. -/
theorem toList_insert_perm (m : OrdMap α β) (k : α) (v : β) :
    (m.insert k v).toList.Perm ((k, v) :: (m.erase k).toList) := by
  refine (List.perm_ext_iff_of_nodup (nodup_toList _) ?_).mpr ?_
  · refine List.nodup_cons.mpr ⟨fun hmem => ?_, nodup_toList _⟩
    rw [mem_toList_iff, get?_erase, if_pos rfl] at hmem
    cases hmem
  · rintro ⟨a, b⟩
    rw [List.mem_cons, mem_toList_iff, mem_toList_iff, get?_insert, get?_erase, Prod.mk.injEq]
    by_cases hkey : k = a
    · subst hkey
      simp [eq_comm]
    · simp [hkey, Ne.symm hkey]

/-- The entries of a map that has a key. -/
theorem toList_erase_perm {m : OrdMap α β} {k : α} {v : β} (h : m[k]? = some v) :
    m.toList.Perm ((k, v) :: (m.erase k).toList) := by
  have hsame := toList_insert_perm m k v
  rwa [insert_of_get? h] at hsame

/-- Removing a key that is not there changes nothing. -/
theorem erase_of_get?_eq_none {m : OrdMap α β} {k : α} (h : m[k]? = none) : m.erase k = m := by
  apply ext
  intro a
  rw [get?_erase]
  split
  · rename_i hkey
    rw [← hkey, h]
  · rfl

/-- Erasing the keys of a list one by one. -/
theorem get?_foldl_erase (entries : List (α × β)) (m : OrdMap α β) (a : α) :
    (entries.foldl (fun m entry => m.erase entry.1) m)[a]? =
      if a ∈ entries.map Prod.fst then none else m[a]? := by
  induction entries generalizing m with
  | nil => rfl
  | cons entry entries ih =>
    rw [List.foldl_cons, ih, get?_erase, List.map_cons]
    by_cases hhead : entry.1 = a
    · rw [if_pos hhead, if_pos (List.mem_cons.mpr (.inl hhead.symm)), ite_self]
    · simp only [if_neg hhead, List.mem_cons, Ne.symm hhead, false_or]

/-- The sum of a function over the entries. -/
def sum (f : α → β → Nat) (m : OrdMap α β) : Nat := (m.toList.map fun entry => f entry.1 entry.2).sum

@[simp] theorem sum_empty (f : α → β → Nat) : sum f (∅ : OrdMap α β) = 0 := rfl

/-- What a key adds to a sum. -/
def term (f : α → β → Nat) (m : OrdMap α β) (k : α) : Nat := (m[k]?).elim 0 (f k)

theorem sum_erase (f : α → β → Nat) (m : OrdMap α β) (k : α) :
    sum f (m.erase k) + term f m k = sum f m := by
  rw [term]
  cases hget : m[k]? with
  | none => rw [erase_of_get?_eq_none hget]; rfl
  | some v =>
    rw [sum, sum, ((toList_erase_perm hget).map _).sum_eq, List.map_cons, List.sum_cons]
    exact Nat.add_comm _ _

theorem sum_insert (f : α → β → Nat) (m : OrdMap α β) (k : α) (v : β) :
    sum f (m.insert k v) + term f m k = sum f m + f k v := by
  have herase := sum_erase f m k
  have hinsert : sum f (m.insert k v) = f k v + sum f (m.erase k) := by
    rw [sum, ((toList_insert_perm m k v).map _).sum_eq, List.map_cons, List.sum_cons, sum]
  omega

/-- One entry adds no more than all of them. -/
theorem term_le_sum (f : α → β → Nat) (m : OrdMap α β) (k : α) : term f m k ≤ sum f m := by
  have h := sum_erase f m k
  omega

theorem sum_le_sum {f g : α → β → Nat} {m : OrdMap α β}
    (h : ∀ k v, m[k]? = some v → f k v ≤ g k v) : sum f m ≤ sum g m := by
  refine List.sum_le_sum fun entry hentry => ?_
  exact h entry.1 entry.2 ((mem_toList_iff m _ _).mp hentry)

theorem sum_eq_zero_iff {f : α → β → Nat} {m : OrdMap α β} :
    sum f m = 0 ↔ ∀ k v, m[k]? = some v → f k v = 0 := by
  rw [sum, List.sum_eq_zero_iff]
  constructor
  · intro h k v hget
    exact h _ (List.mem_map.mpr ⟨(k, v), (mem_toList_iff m k v).mpr hget, rfl⟩)
  · intro h n hn
    obtain ⟨entry, hentry, rfl⟩ := List.mem_map.mp hn
    exact h entry.1 entry.2 ((mem_toList_iff m _ _).mp hentry)

/-- The keys in ascending order. -/
def keyList (m : OrdMap α β) : List α := m.toList.map Prod.fst

theorem mem_keyList {m : OrdMap α β} {k : α} : k ∈ m.keyList ↔ ∃ v, m[k]? = some v := by
  rw [keyList, List.mem_map]
  constructor
  · rintro ⟨⟨k', v⟩, hmem, rfl⟩
    exact ⟨v, (mem_toList_iff m k' v).mp hmem⟩
  · rintro ⟨v, hget⟩
    exact ⟨(k, v), (mem_toList_iff m k v).mpr hget, rfl⟩

theorem sorted_keyList (m : OrdMap α β) : m.keyList.Pairwise (· < ·) := by
  rw [keyList, List.pairwise_map]
  exact sorted_toList m

end OrdMap

/-! ### Sets -/

/-- A finite set of ordered elements. -/
abbrev OrdSet (α : Type) [LinearOrder α] := OrdMap α Unit

namespace OrdSet

variable {α : Type} [LinearOrder α]

/-- The set of the elements of a list. -/
def ofList (elements : List α) : OrdSet α := elements.foldl (fun set a => set.insert a ()) ∅

/-- The set has an element. -/
def has (set : OrdSet α) (a : α) : Bool := (set[a]?).isSome

/-- The elements of a set that another one has too. -/
def inter (set other : OrdSet α) : OrdSet α := ofList (set.keyList.filter fun a => has other a)

theorem has_insert (set : OrdSet α) (a b : α) :
    has (set.insert a ()) b = (decide (a = b) || has set b) := by
  rw [has, OrdMap.get?_insert]
  by_cases h : a = b
  · simp [h]
  · simp [h, has]

theorem has_foldl_insert (elements : List α) (set : OrdSet α) (a : α) :
    has (elements.foldl (fun set a => set.insert a ()) set) a = true ↔
      a ∈ elements ∨ has set a = true := by
  induction elements generalizing set with
  | nil => simp
  | cons b elements ih =>
    rw [List.foldl_cons, ih, has_insert, Bool.or_eq_true, decide_eq_true_eq, List.mem_cons,
      eq_comm, or_assoc, or_left_comm]

@[simp] theorem has_ofList {elements : List α} {a : α} :
    has (ofList elements) a = true ↔ a ∈ elements := by
  rw [ofList, has_foldl_insert]
  simp [has]

theorem mem_keyList_iff {set : OrdSet α} {a : α} : a ∈ OrdMap.keyList set ↔ has set a = true := by
  rw [OrdMap.mem_keyList, has, Option.isSome_iff_exists]

@[simp] theorem has_inter {set other : OrdSet α} {a : α} :
    has (inter set other) a = true ↔ has set a = true ∧ has other a = true := by
  rw [inter, has_ofList, List.mem_filter, mem_keyList_iff]

end OrdSet

end CereDB.Lib
