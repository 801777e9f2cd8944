import Mathlib

/-!
# `CereDB.Lib.OrdMap`: ordered finite maps

`OrdMap α β` is the extensional tree map of the standard library, over the comparison of a
linear order. Two maps with the same lookups are equal (`OrdMap.ext`), and `toList` lists
the entries in strictly ascending key order (`OrdMap.sorted_toList`). The lemmas restate the
library's facts with `=` and `<` on keys in place of `compare`.
-/

set_option autoImplicit false

namespace CereDB.Lib

/-- A finite map with ordered keys. -/
abbrev OrdMap (α β : Type) [LinearOrder α] := Std.ExtTreeMap α β (@compare α LinearOrder.toOrd)

namespace OrdMap

variable {α β : Type} [LinearOrder α]

instance transCmp : Std.TransCmp (@compare α LinearOrder.toOrd) := inferInstance

/-- A lookup after an insertion. -/
theorem get?_insert (m : OrdMap α β) (k a : α) (v : β) :
    (m.insert k v)[a]? = if k = a then some v else m[a]? := by
  rw [Std.ExtTreeMap.getElem?_insert]
  simp only [compare_eq_iff_eq]

/-- A lookup after a removal. -/
theorem get?_erase (m : OrdMap α β) (k a : α) :
    (m.erase k)[a]? = if k = a then none else m[a]? := by
  rw [Std.ExtTreeMap.getElem?_erase]
  simp only [compare_eq_iff_eq]

/-- The empty map has no entry. -/
@[simp] theorem get?_empty (a : α) : (∅ : OrdMap α β)[a]? = none :=
  Std.ExtTreeMap.getElem?_empty

/-- The entries are the lookups that succeed. -/
theorem mem_toList_iff (m : OrdMap α β) (k : α) (v : β) :
    (k, v) ∈ m.toList ↔ m[k]? = some v :=
  Std.ExtTreeMap.mem_toList_iff_getElem?_eq_some

/-- The entries stand in strictly ascending key order. -/
theorem sorted_toList (m : OrdMap α β) : m.toList.Pairwise (fun a b => a.1 < b.1) := by
  have h := m.ordered_keys_toList
  simpa only [compare_lt_iff_lt] using h

/-- Maps with the same lookups are equal. -/
theorem ext {m m' : OrdMap α β} (h : ∀ k : α, m[k]? = m'[k]?) : m = m' :=
  Std.ExtTreeMap.ext_getElem? fun {k} => h k

/-- A sorted list of entries is determined by its members. -/
theorem entries_eq {entries entries' : List (α × β)}
    (hsorted : entries.Pairwise fun a b => a.1 < b.1)
    (hsorted' : entries'.Pairwise fun a b => a.1 < b.1)
    (h : ∀ entry, entry ∈ entries ↔ entry ∈ entries') : entries = entries' := by
  have : Std.Irrefl fun a b : α × β => a.1 < b.1 := ⟨fun a => lt_irrefl a.1⟩
  exact hsorted.eq_of_mem_iff hsorted' h

/-- Two maps that agree on the entries of interest list the same ones. -/
theorem filter_toList_congr {m m' : OrdMap α β} {p : α × β → Bool}
    (h : ∀ entry, p entry = true → m'[entry.1]? = m[entry.1]?) :
    m'.toList.filter p = m.toList.filter p := by
  refine entries_eq ((sorted_toList m').sublist List.filter_sublist)
    ((sorted_toList m).sublist List.filter_sublist) fun entry => ?_
  rw [List.mem_filter, List.mem_filter, mem_toList_iff, mem_toList_iff]
  exact and_congr_left fun hp => by rw [h entry hp]

/-- A second insertion under the same key wins. -/
@[simp] theorem insert_insert (m : OrdMap α β) (k : α) (v w : β) :
    (m.insert k v).insert k w = m.insert k w := by
  apply ext
  intro a
  simp only [get?_insert]
  split <;> rfl

/-- Inserting what is there changes nothing. -/
theorem insert_of_get? {m : OrdMap α β} {k : α} {v : β} (h : m[k]? = some v) : m.insert k v = m := by
  apply ext
  intro a
  rw [get?_insert]
  split
  · rename_i heq
    rw [← heq, h]
  · rfl

/-- The entry with the largest key stands last. -/
theorem getLast?_toList {m : OrdMap α β} {k : α} {v : β} (h : m[k]? = some v)
    (hmax : ∀ a, k < a → m[a]? = none) : m.toList.getLast? = some (k, v) := by
  have hmem := (mem_toList_iff m k v).mpr h
  cases hlast : m.toList.getLast? with
  | none =>
    rw [List.getLast?_eq_none_iff] at hlast
    rw [hlast] at hmem
    cases hmem
  | some last =>
    obtain ⟨init, hinit⟩ := List.getLast?_eq_some_iff.mp hlast
    have hsorted := sorted_toList m
    rw [hinit, List.pairwise_append] at hsorted
    rw [hinit, List.mem_append, List.mem_singleton] at hmem
    cases hmem with
    | inr heq => rw [heq]
    | inl hfront =>
      -- The last key would be larger than the largest one.
      have hlt : k < last.1 := hsorted.2.2 _ hfront _ (List.mem_singleton_self _)
      have hin : m[last.1]? = some last.2 :=
        (mem_toList_iff m last.1 last.2).mp (by rw [hinit]; simp)
      rw [hmax _ hlt] at hin
      cases hin

/-- A map with at most one key. -/
theorem toList_of_single {m : OrdMap α β} {k : α} (h : ∀ a, a ≠ k → m[a]? = none) :
    m.toList = (m[k]?.map fun v => (k, v)).toList := by
  have hkey : ∀ entry ∈ m.toList, entry.1 = k := by
    intro entry hmem
    by_contra hne
    have hget := (mem_toList_iff m entry.1 entry.2).mp hmem
    rw [h entry.1 hne] at hget
    cases hget
  have hsorted := sorted_toList m
  cases hlist : m.toList with
  | nil =>
    cases hget : m[k]? with
    | none => rfl
    | some v =>
      have hmem := (mem_toList_iff m k v).mpr hget
      rw [hlist] at hmem
      cases hmem
  | cons first rest =>
    have hfirst : first.1 = k := hkey first (by rw [hlist]; exact List.mem_cons_self)
    have hget : m[k]? = some first.2 := by
      rw [← mem_toList_iff, hlist, ← hfirst]
      exact List.mem_cons_self
    cases rest with
    | nil =>
      rw [hget, ← hfirst]
      rfl
    | cons second rest =>
      -- two entries would have distinct keys
      have hsecond : second.1 = k := hkey second (by rw [hlist]; simp)
      rw [hlist] at hsorted
      have hlt := (List.pairwise_cons.mp hsorted).1 second List.mem_cons_self
      rw [hfirst, hsecond] at hlt
      exact absurd hlt (lt_irrefl k)

/-- Entries with different keys that are inserted one after the other. -/
theorem get?_foldl_insert {entries : List (α × β)}
    (hsorted : entries.Pairwise fun a b => a.1 < b.1) (m : OrdMap α β) (k : α) (v : β) :
    (entries.foldl (fun (m : OrdMap α β) entry => m.insert entry.1 entry.2) m)[k]? = some v ↔
      (k, v) ∈ entries ∨ (∀ w, (k, w) ∉ entries) ∧ m[k]? = some v := by
  induction entries generalizing m with
  | nil => simp
  | cons entry entries ih =>
    obtain ⟨hfirst, hrest⟩ := List.pairwise_cons.mp hsorted
    rw [List.foldl_cons, ih hrest, get?_insert]
    by_cases hkey : entry.1 = k
    · -- the key of the first entry is not among the others
      have hnot : ∀ w, (k, w) ∉ entries := fun w hw =>
        lt_irrefl _ (hkey ▸ hfirst (k, w) hw)
      have hvalue : (k, v) = entry ↔ entry.2 = v := by
        rw [Prod.ext_iff, hkey]
        simp [eq_comm]
      have hfront : ¬ ∀ w, (k, w) ∉ entry :: entries := fun h =>
        h entry.2 (by rw [← hkey]; exact List.mem_cons_self)
      rw [if_pos hkey, List.mem_cons, hvalue, Option.some.injEq]
      simp only [hnot, false_or, not_false_eq_true, implies_true, true_and, or_false, hfront,
        false_and]
    · have hne : ∀ w, (k, w) ≠ entry := fun w heq => hkey (congrArg Prod.fst heq).symm
      rw [if_neg hkey]
      simp only [List.mem_cons, hne, false_or]

/-- A map is built from its entries. -/
theorem foldl_insert_toList (m : OrdMap α β) :
    m.toList.foldl (fun (m : OrdMap α β) entry => m.insert entry.1 entry.2) ∅ = m := by
  apply ext
  intro k
  apply Option.ext
  intro v
  rw [get?_foldl_insert (sorted_toList m), mem_toList_iff, get?_empty]
  simp

end OrdMap

end CereDB.Lib
