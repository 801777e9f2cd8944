import CereDB.Proofs.ReadLevels
import CereDB.Storage.Concurrent

/-!
# `CereDB.Proofs.MemtableCursor`: a scan that walks over a memtable

A scan goes from entry to entry of the shared memtable, and other tasks insert entries on the way.
`nextEntry_eq_some` and `nextEntry_eq_none` say which entry comes next. The entries behind the last
one get fewer, so the walk over a memtable that does not change ends (`length_behind_lt`).

`visited` are the entries up to a sequence number a walk has passed. Insertions above that number do
not change them, and a walk that ends has collected what `scan_memtable` collects at once
(`foldl_visited_of_end`).
-/

set_option autoImplicit false

namespace CereDB.Storage

open CereDB.Lib ReadManager

namespace Engine

variable {memtable : Memtable} {range : KeyRange} {watermark : Nat} {last : Option (Key ×ₗ Nat)}

/-! ### The next entry -/

/-- An entry the scan has not passed. -/
def Unvisited (range : KeyRange) (last : Option (Key ×ₗ Nat)) (entry : Key ×ₗ Nat) : Prop :=
  withinBounds (collectRangeBounds range) entry = true ∧ ∀ visited ∈ last, visited < entry

theorem unvisited_iff (range : KeyRange) (last : Option (Key ×ₗ Nat)) (entry : Key ×ₗ Nat) :
    (withinBounds (collectRangeBounds range) entry && match last with
      | some last => decide (last < entry)
      | none => true) = true ↔ Unvisited range last entry := by
  rw [Unvisited, Bool.and_eq_true]
  cases last with
  | none => simp
  | some last => simp

/-- The next entry is the first one the scan has not passed. -/
theorem nextEntry_eq_some {memtable : Memtable} {entry : (Key ×ₗ Nat) × MemtableRecord}
    (h : nextEntry memtable range last = some entry) :
    memtable[entry.1]? = some entry.2 ∧ Unvisited range last entry.1 ∧
      ∀ (other : Key ×ₗ Nat) (record : MemtableRecord), memtable[other]? = some record →
        Unvisited range last other → entry.1 ≤ other := by
  rw [nextEntry] at h
  obtain ⟨hfound, front, back, hlist, hfront⟩ := List.find?_eq_some_iff_append.mp h
  have hmem : entry ∈ memtable.toList := by
    rw [hlist]
    exact List.mem_append_right front List.mem_cons_self
  refine ⟨(OrdMap.mem_toList_iff memtable _ _).mp hmem, (unvisited_iff _ _ _).mp hfound, ?_⟩
  intro other record hget hunvisited
  have hother := (OrdMap.mem_toList_iff memtable other record).mpr hget
  have hsorted := OrdMap.sorted_toList memtable
  rw [hlist] at hother hsorted
  rcases List.mem_append.mp hother with hin | hin
  · have hpassed := hfront _ hin
    rw [Bool.not_eq_true'] at hpassed
    exact absurd (hpassed.symm.trans ((unvisited_iff _ _ _).mpr hunvisited)) Bool.false_ne_true
  · rcases List.mem_cons.mp hin with rfl | hin
    · exact le_rfl
    · exact ((List.pairwise_cons.mp (List.pairwise_append.mp hsorted).2.1).1 _ hin).le

theorem nextEntry_eq_none {memtable : Memtable} (h : nextEntry memtable range last = none)
    {other : Key ×ₗ Nat} {record : MemtableRecord} (hget : memtable[other]? = some record) :
    ¬ Unvisited range last other := by
  intro hunvisited
  rw [nextEntry, List.find?_eq_none] at h
  exact h (other, record) ((OrdMap.mem_toList_iff memtable other record).mpr hget)
    ((unvisited_iff _ _ _).mpr hunvisited)

/-- The entries behind the last one visited. -/
def behind (memtable : Memtable) (last : Option (Key ×ₗ Nat)) :
    List ((Key ×ₗ Nat) × MemtableRecord) :=
  memtable.toList.filter fun entry => match last with
    | some last => decide (last < entry.1)
    | none => true

theorem length_behind_lt {memtable : Memtable} {entry : (Key ×ₗ Nat) × MemtableRecord}
    (h : nextEntry memtable range last = some entry) :
    (behind memtable (some entry.1)).length < (behind memtable last).length := by
  obtain ⟨hget, ⟨-, hlast⟩, -⟩ := nextEntry_eq_some h
  have hmem : entry ∈ memtable.toList := (OrdMap.mem_toList_iff memtable _ _).mpr hget
  have hsub : (behind memtable (some entry.1)).Sublist (behind memtable last) := by
    refine List.monotone_filter_right memtable.toList ?_
    intro other hother
    cases last with
    | none => rfl
    | some visited =>
      have hlt : entry.1 < other.1 := of_decide_eq_true hother
      exact decide_eq_true ((hlast visited rfl).trans hlt)
  refine lt_of_le_of_ne hsub.length_le fun hlength => ?_
  -- the entry itself is behind the last one, but not behind itself
  have hin : entry ∈ behind memtable last := by
    refine List.mem_filter.mpr ⟨hmem, ?_⟩
    cases last with
    | none => rfl
    | some visited => exact decide_eq_true (hlast visited rfl)
  rw [← hsub.eq_of_length hlength] at hin
  exact lt_irrefl _ (of_decide_eq_true (List.mem_filter.mp hin).2)

theorem get?_scanEntry (watermark : Nat) (merged : Merged)
    (entry : (Key ×ₗ Nat) × MemtableRecord) (key : Key) :
    (scanEntry watermark merged entry)[key]? =
      if (ofLex entry.1).2 ≤ watermark ∧ (ofLex entry.1).1 = key then
        better MemtableRecord.rank merged[key]? (some entry.2)
      else merged[key]? := by
  rw [scanEntry]
  by_cases hle : (ofLex entry.1).2 ≤ watermark
  · rw [if_neg (not_lt.mpr hle), get?_keepNewer]
    by_cases hkey : (ofLex entry.1).1 = key
    · rw [if_pos hkey, if_pos ⟨hle, hkey⟩]
    · rw [if_neg hkey, if_neg fun hboth => hkey hboth.2]
  · rw [if_pos (not_le.mp hle), if_neg fun hboth => hle hboth.1]

/-! ### What a walk has collected -/

/-- The entries up to a sequence number that a walk has passed. -/
def visited (memtable : Memtable) (range : KeyRange) (watermark : Nat)
    (last : Option (Key ×ₗ Nat)) : List ((Key ×ₗ Nat) × MemtableRecord) :=
  memtable.toList.filter fun entry =>
    withinBounds (collectRangeBounds range) entry.1 && decide ((ofLex entry.1).2 ≤ watermark) &&
      match last with
      | some last => decide (entry.1 ≤ last)
      | none => false

@[simp] theorem visited_none : visited memtable range watermark none = [] := by
  simp [visited]

theorem mem_visited {entry : (Key ×ₗ Nat) × MemtableRecord} :
    entry ∈ visited memtable range watermark last ↔
      memtable[entry.1]? = some entry.2 ∧
        withinBounds (collectRangeBounds range) entry.1 = true ∧
        (ofLex entry.1).2 ≤ watermark ∧ ¬ Unvisited range last entry.1 := by
  rw [visited, List.mem_filter, OrdMap.mem_toList_iff]
  cases last with
  | none => simp +contextual [Unvisited]
  | some last =>
    simp only [Bool.and_eq_true, decide_eq_true_eq, Unvisited, Option.mem_def,
      Option.some.injEq, forall_eq']
    refine and_congr_right fun _ => ?_
    constructor
    · rintro ⟨⟨hbounds, hle⟩, hlast⟩
      exact ⟨hbounds, hle, fun hnot => absurd hnot.2 (not_lt.mpr hlast)⟩
    · rintro ⟨hbounds, hle, hnot⟩
      exact ⟨⟨hbounds, hle⟩, not_lt.mp fun hlt => hnot ⟨hbounds, hlt⟩⟩

theorem sorted_visited : (visited memtable range watermark last).Pairwise fun a b => a.1 < b.1 :=
  (OrdMap.sorted_toList memtable).sublist List.filter_sublist

/-- Two memtables with the same entries up to a sequence number. -/
def SameUpTo (watermark : Nat) (memtable memtable' : Memtable) : Prop :=
  ∀ entry : Key ×ₗ Nat, (ofLex entry).2 ≤ watermark → memtable'[entry]? = memtable[entry]?

theorem SameUpTo.visited_eq {memtable' : Memtable} (h : SameUpTo watermark memtable memtable') :
    visited memtable' range watermark last = visited memtable range watermark last := by
  refine OrdMap.filter_toList_congr fun entry hentry => h entry.1 ?_
  simp only [Bool.and_eq_true, decide_eq_true_eq] at hentry
  exact hentry.1.2

/-- The walk passes the next entry. Nothing else of the range lies between the two places. -/
theorem mem_visited_next {entry other : (Key ×ₗ Nat) × MemtableRecord}
    (hnext : nextEntry memtable range last = some entry) :
    other ∈ visited memtable range watermark (some entry.1) ↔
      other ∈ visited memtable range watermark last ∨
        other = entry ∧ (ofLex entry.1).2 ≤ watermark := by
  obtain ⟨hget, hunvisited, hfirst⟩ := nextEntry_eq_some hnext
  rw [mem_visited, mem_visited]
  constructor
  · rintro ⟨hother, hbounds, hle, hpassed⟩
    by_cases hbefore : Unvisited range last other.1
    · have hnot : ¬ entry.1 < other.1 := fun hlt =>
        hpassed ⟨hbounds, fun place hplace => Option.some.inj hplace ▸ hlt⟩
      have hplace : other.1 = entry.1 :=
        le_antisymm (not_lt.mp hnot) (hfirst other.1 other.2 hother hbefore)
      rw [hplace, hget] at hother
      exact .inr ⟨Prod.ext hplace (Option.some.inj hother).symm, hplace ▸ hle⟩
    · exact .inl ⟨hother, hbounds, hle, hbefore⟩
  · rintro (⟨hother, hbounds, hle, hpassed⟩ | ⟨rfl, hle⟩)
    · refine ⟨hother, hbounds, hle, fun hlater => hpassed ⟨hbounds, fun place hplace => ?_⟩⟩
      exact (hunvisited.2 place hplace).trans (hlater.2 entry.1 rfl)
    · exact ⟨hget, hunvisited.1, hle, fun hlater => lt_irrefl _ (hlater.2 other.1 rfl)⟩

/-- What a walk collected grows by the next entry. -/
theorem foldl_visited_next {entry : (Key ×ₗ Nat) × MemtableRecord}
    (hnext : nextEntry memtable range last = some entry) :
    (visited memtable range watermark (some entry.1)).foldl (scanEntry watermark) ∅
      = scanEntry watermark
          ((visited memtable range watermark last).foldl (scanEntry watermark) ∅) entry := by
  by_cases hle : (ofLex entry.1).2 ≤ watermark
  · have hsnoc : visited memtable range watermark (some entry.1)
        = visited memtable range watermark last ++ [entry] := by
      refine OrdMap.entries_eq sorted_visited (List.pairwise_append.mpr ⟨sorted_visited, List.pairwise_singleton _ _,
        fun before hbefore other hother => ?_⟩) fun other => ?_
      · -- what the walk passed before lies before an entry it had not passed
        rw [List.mem_singleton.mp hother]
        obtain ⟨-, hunvisited, -⟩ := nextEntry_eq_some hnext
        obtain ⟨-, hbounds, -, hpassed⟩ := mem_visited.mp hbefore
        by_contra hlt
        exact hpassed ⟨hbounds, fun place hplace =>
          (hunvisited.2 place hplace).trans_le (not_lt.mp hlt)⟩
      · rw [mem_visited_next hnext, List.mem_append, List.mem_singleton, and_iff_left hle]
    rw [hsnoc, List.foldl_append]
    rfl
  · have hsame : visited memtable range watermark (some entry.1)
        = visited memtable range watermark last := by
      refine OrdMap.entries_eq sorted_visited sorted_visited fun other => ?_
      rw [mem_visited_next hnext]
      exact or_iff_left fun hnew => hle hnew.2
    rw [hsame, scanEntry, if_pos (not_le.mp hle)]

/-- A scan skips the entries above its sequence number. -/
theorem foldl_scanEntry_upTo (entries : List ((Key ×ₗ Nat) × MemtableRecord)) (merged : Merged) :
    (entries.filter fun entry => decide ((ofLex entry.1).2 ≤ watermark)).foldl
      (scanEntry watermark) merged = entries.foldl (scanEntry watermark) merged := by
  rw [List.foldl_filter]
  congr 1
  funext merged entry
  rw [scanEntry]
  by_cases hle : (ofLex entry.1).2 ≤ watermark
  · rw [if_pos (decide_eq_true hle)]
  · rw [if_neg (by simpa using hle), if_pos (not_le.mp hle)]

/-- A walk that ends has collected what a scan of the memtable collects. -/
theorem foldl_visited_of_end (hend : nextEntry memtable range last = none) :
    (visited memtable range watermark last).foldl (scanEntry watermark) ∅
      = scanMemtable memtable range watermark := by
  have hall : visited memtable range watermark last = (memtable.toList.filter fun entry =>
      withinBounds (collectRangeBounds range) entry.1).filter
        fun entry => decide ((ofLex entry.1).2 ≤ watermark) := by
    refine OrdMap.entries_eq sorted_visited (((OrdMap.sorted_toList memtable).sublist List.filter_sublist).sublist
      List.filter_sublist) fun entry => ?_
    rw [mem_visited, List.mem_filter, List.mem_filter, OrdMap.mem_toList_iff, decide_eq_true_eq,
      and_assoc]
    exact and_congr_right fun hget => and_congr_right fun _ =>
      and_iff_left (nextEntry_eq_none hend hget)
  rw [hall, foldl_scanEntry_upTo, scanMemtable]

theorem SameUpTo.scanMemtable_eq {memtable' : Memtable} (h : SameUpTo watermark memtable memtable') :
    scanMemtable memtable' range watermark = scanMemtable memtable range watermark := by
  have hupTo : (memtable'.toList.filter fun entry =>
        withinBounds (collectRangeBounds range) entry.1).filter
          (fun entry => decide ((ofLex entry.1).2 ≤ watermark))
      = (memtable.toList.filter fun entry =>
        withinBounds (collectRangeBounds range) entry.1).filter
          fun entry => decide ((ofLex entry.1).2 ≤ watermark) := by
    rw [List.filter_filter, List.filter_filter]
    refine OrdMap.filter_toList_congr fun entry hentry => h entry.1 ?_
    exact of_decide_eq_true (Bool.and_eq_true_iff.mp hentry).1
  rw [scanMemtable, ← foldl_scanEntry_upTo, hupTo, foldl_scanEntry_upTo, scanMemtable]

theorem SameUpTo.getFromMemtable_eq {memtable' : Memtable}
    (h : SameUpTo watermark memtable memtable') (key : Key) :
    getFromMemtable memtable' key watermark = getFromMemtable memtable key watermark := by
  rw [Storage.getFromMemtable_eq, Storage.getFromMemtable_eq, Memtable.versions, Memtable.versions]
  congr 2
  refine OrdMap.filter_toList_congr fun entry hentry => h entry.1 ?_
  exact of_decide_eq_true (Bool.and_eq_true_iff.mp hentry).2

end Engine

end CereDB.Storage
