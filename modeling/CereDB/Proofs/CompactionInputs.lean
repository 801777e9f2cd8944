import CereDB.Proofs.LevelOrder
import CereDB.Proofs.TableBuild
import CereDB.Storage.Compaction

/-!
# `CereDB.Proofs.CompactionInputs`: which tables a compaction replaces

`Written` says that a table file holds some records and that its manifest entry is that of a table
written by a flush or a compaction: the key range is exactly that of its blocks.

`CloseStep` says what one candidate can do to the selection of the closing loop. From it follow what
the loop keeps (`Selection.Within`), that it ends (`closeOverlaps_stable`) and how
(`closeOverlaps_ok`). `selectInputs_closed` is the result for any files: the inputs lie in the two
levels, and their hull meets no other table of the two levels. On written tables every range is that
of the manifest (`Written.computeMetaRange_eq`), which gives `selectInputs_ok`.
-/

set_option autoImplicit false

namespace CereDB.Storage

open CereDB.Lib

/-- A table as a flush or a compaction leaves it in the manifest and in its file. -/
structure SSTableMeta.Written (fastbloom : FastBloom) (files : String → Option Bytes)
    (sstable : SSTableMeta) (records : List MemtableRecord) : Prop where
  file : ∃ codec : SSTableCodec, codec.Good fastbloom ∧ codec.records = records ∧
    files sstable.path = some codec.encoded ∧
    rangeFromBlocks codec.blocks = some (sstable.smallestKey, sstable.largestKey)
  recordCount : sstable.recordCount = records.length

/-- The files hold the tables of the manifest. -/
def TablesWritten (fastbloom : FastBloom) (files : String → Option Bytes) (contents : Contents)
    (sstables : List SSTableMeta) : Prop :=
  ∀ sstable ∈ sstables, sstable.Written fastbloom files (contents sstable)

/-- The first and the last block of a range. -/
theorem exists_of_rangeFromBlocks {blocks : List Block} {range : Key × Key}
    (h : rangeFromBlocks blocks = some range) :
    ∃ first last, blocks.head? = some first ∧ blocks.getLast? = some last ∧
      range = (first.firstKey, last.lastKey) := by
  rw [rangeFromBlocks] at h
  split at h
  · rename_i first last hfirst hlast
    exact ⟨first, last, hfirst, hlast, (Option.some.inj h).symm⟩
  · cases h

namespace SSTableMeta.Written

variable {fastbloom : FastBloom} {files : String → Option Bytes} {sstable : SSTableMeta}
  {records : List MemtableRecord}

theorem stores (h : sstable.Written fastbloom files records) :
    sstable.Stores fastbloom files records := by
  obtain ⟨codec, hgood, rfl, hfile, hrange⟩ := h.file
  refine ⟨⟨codec, hgood, rfl, hfile⟩, ?_⟩
  intro record hmem
  obtain ⟨first, last, hfirst, hlast, hkeys⟩ := exists_of_rangeFromBlocks hrange
  rw [Prod.mk.injEq] at hkeys
  rw [hkeys.1, hkeys.2]
  exact hgood.bounds hfirst hlast hmem

/-- Both ends of the range are keys of the table. -/
theorem exists_bounds (h : sstable.Written fastbloom files records) :
    (∃ record ∈ records, record.key = sstable.smallestKey) ∧
      ∃ record ∈ records, record.key = sstable.largestKey := by
  obtain ⟨codec, hgood, rfl, -, hrange⟩ := h.file
  obtain ⟨first, last, hfirst, hlast, hkeys⟩ := exists_of_rangeFromBlocks hrange
  rw [Prod.mk.injEq] at hkeys
  have hfirstMem := List.mem_of_head? hfirst
  have hlastMem := List.mem_of_getLast? hlast
  rw [hkeys.1, hkeys.2]
  obtain ⟨record, hrecord, hkey⟩ := (hgood.blocks first hfirstMem).exists_first
  obtain ⟨record', hrecord', hkey'⟩ := (hgood.blocks last hlastMem).exists_last
  exact ⟨⟨record, List.mem_flatMap.mpr ⟨first, hfirstMem, hrecord⟩, hkey⟩,
    ⟨record', List.mem_flatMap.mpr ⟨last, hlastMem, hrecord'⟩, hkey'⟩⟩

theorem rangeFromIndex_indexEntries (blocks : List Block) :
    SSTableCodec.rangeFromIndex (SSTableCodec.indexEntries 0 blocks) = rangeFromBlocks blocks := by
  rcases List.eq_nil_or_concat blocks with rfl | ⟨init, last, rfl⟩
  · rfl
  · rw [List.concat_eq_append, SSTableCodec.rangeFromIndex, rangeFromBlocks,
      SSTableCodec.indexEntries_append, List.getLast?_append, List.getLast?_append]
    cases init with
    | nil => rfl
    | cons first init => rfl

/-- The range is found in the manifest or in the index of the file. -/
theorem computeMetaRange_eq (h : sstable.Written fastbloom files records) :
    computeMetaRange files sstable = .ok (some (sstable.smallestKey, sstable.largestKey)) := by
  rw [computeMetaRange]
  split
  · rfl
  · obtain ⟨codec, hgood, rfl, hfile, hrange⟩ := h.file
    obtain ⟨pos, hsections⟩ := hgood.run_deserializeSections files 0
    have hindex : FileProg.run fileErrors files (readIndex sstable) ([], 0)
        = .ok (SSTableCodec.indexEntries 0 codec.blocks, (codec.encoded, pos)) :=
      (FileProg.run_bind_ok (FileProg.run_open hfile _)).trans (FileProg.run_bind_ok hsections)
    have hresult : FileProg.result fileErrors files (readIndex sstable)
        = .ok (SSTableCodec.indexEntries 0 codec.blocks) := by
      rw [FileProg.result, hindex]
      rfl
    rw [hresult]
    show Except.ok (SSTableCodec.rangeFromIndex _) = _
    rw [rangeFromIndex_indexEntries, hrange]

end SSTableMeta.Written

/-! ### The closing loop -/

/-- The key range of the manifest. -/
def SSTableMeta.range (sstable : SSTableMeta) : Key × Key :=
  (sstable.smallestKey, sstable.largestKey)

/-- The range that `compute_meta_range` finds for a table. -/
def HasRange (files : String → Option Bytes) (sstable : SSTableMeta) (range : Key × Key) : Prop :=
  computeMetaRange files sstable = .ok (some range)

theorem HasRange.unique {files : String → Option Bytes} {sstable : SSTableMeta}
    {range other : Key × Key} (h : HasRange files sstable range)
    (hother : HasRange files sstable other) : other = range :=
  Option.some.inj (Except.ok.inj (hother.symm.trans h))

/-- The candidate is one of the selected files. -/
def Selection.has (selection : Selection) (sstable : SSTableMeta) : Bool :=
  selection.1.any fun selected => selected.fileId == sstable.fileId

section Loop
variable {files : String → Option Bytes} {sstables : List SSTableMeta} {sstable : SSTableMeta}
  {selection next : Selection}

/-- What one candidate does to the selection. -/
inductive CloseStep (files : String → Option Bytes) (selection : Selection)
    (sstable : SSTableMeta) : Selection → Prop where
  | selected (h : selection.has sstable = true) : CloseStep files selection sstable selection
  | apart {range : Key × Key} (hnew : selection.has sstable = false)
      (hrange : HasRange files sstable range) (h : rangesOverlap selection.2 range = false) :
      CloseStep files selection sstable selection
  | added {range : Key × Key} (hnew : selection.has sstable = false)
      (hrange : HasRange files sstable range) (h : rangesOverlap selection.2 range = true) :
      CloseStep files selection sstable (selection.1 ++ [sstable], widen selection.2 range)

theorem closeCandidate_ok (h : closeCandidate files selection sstable = .ok next) :
    CloseStep files selection sstable next := by
  rw [closeCandidate] at h
  split at h
  · rename_i hhas
    obtain rfl := Except.ok.inj h
    exact .selected hhas
  · rename_i hnew
    obtain ⟨found, hfound, h⟩ := Exec.bind_eq_ok h
    cases found with
    | none => cases h
    | some range =>
      simp only at h
      split at h
      · rename_i hoverlap
        obtain rfl := Except.ok.inj h
        exact .added (Bool.eq_false_iff.mpr hnew) hfound hoverlap
      · rename_i hoverlap
        obtain rfl := Except.ok.inj h
        exact .apart (Bool.eq_false_iff.mpr hnew) hfound (Bool.eq_false_iff.mpr hoverlap)

theorem CloseStep.length_le (h : CloseStep files selection sstable next) :
    selection.1.length ≤ next.1.length := by
  cases h with
  | selected h => exact le_rfl
  | apart hnew hrange h => exact le_rfl
  | added hnew hrange h =>
    rw [List.length_append]
    exact Nat.le_add_right _ _

theorem CloseStep.subset (h : CloseStep files selection sstable next) :
    selection.1 ⊆ next.1 := by
  cases h with
  | selected h => exact List.Subset.refl _
  | apart hnew hrange h => exact List.Subset.refl _
  | added hnew hrange h => exact List.subset_append_left _ _

theorem Selection.has_of_subset (h : selection.1 ⊆ next.1) {selected : SSTableMeta}
    (hselected : selection.has selected = true) : next.has selected = true := by
  obtain ⟨found, hfound, hid⟩ := List.any_eq_true.mp hselected
  exact List.any_eq_true.mpr ⟨found, h hfound, hid⟩

/-- A pass that returned: it keeps what was selected. -/
theorem foldlM_closeCandidate_subset
    (h : sstables.foldlM (closeCandidate files) selection = .ok next) :
    selection.1.length ≤ next.1.length ∧ selection.1 ⊆ next.1 := by
  induction sstables generalizing selection with
  | nil =>
    obtain rfl := Except.ok.inj h
    exact ⟨le_rfl, List.Subset.refl _⟩
  | cons sstable sstables ih =>
    rw [List.foldlM_cons] at h
    obtain ⟨middle, hmiddle, h⟩ := Exec.bind_eq_ok h
    have hstep := closeCandidate_ok hmiddle
    obtain ⟨hlength, hsub⟩ := ih h
    exact ⟨hstep.length_le.trans hlength, List.Subset.trans hstep.subset hsub⟩

/-- A pass adds nothing, and leaves every file selected or apart, or it selects a new file. -/
theorem foldlM_closeCandidate_cases
    (h : sstables.foldlM (closeCandidate files) selection = .ok next) :
    (next = selection ∧ ∀ sstable ∈ sstables, selection.has sstable = true ∨
      ∃ range, HasRange files sstable range ∧ rangesOverlap selection.2 range = false) ∨
    (selection.1.length < next.1.length ∧ ∃ sstable ∈ sstables,
      selection.has sstable = false ∧ next.has sstable = true) := by
  induction sstables generalizing selection with
  | nil =>
    obtain rfl := Except.ok.inj h
    exact .inl ⟨rfl, fun _ hmem => absurd hmem List.not_mem_nil⟩
  | cons sstable sstables ih =>
    rw [List.foldlM_cons] at h
    obtain ⟨middle, hmiddle, h⟩ := Exec.bind_eq_ok h
    cases closeCandidate_ok hmiddle with
    | added hnew hrange hoverlap =>
      obtain ⟨hlength, hsub⟩ := foldlM_closeCandidate_subset h
      rw [List.length_append, List.length_singleton] at hlength
      refine .inr ⟨hlength, sstable, List.mem_cons_self, hnew, List.any_eq_true.mpr ?_⟩
      exact ⟨sstable, hsub (List.mem_append_right _ List.mem_cons_self), beq_self_eq_true _⟩
    | selected hhere =>
      rcases ih h with ⟨rfl, hrest⟩ | ⟨hlength, added, hmem, hadded⟩
      · exact .inl ⟨rfl, List.forall_mem_cons.mpr ⟨.inl hhere, hrest⟩⟩
      · exact .inr ⟨hlength, added, List.mem_cons_of_mem sstable hmem, hadded⟩
    | apart hnew hrange hoverlap =>
      rcases ih h with ⟨rfl, hrest⟩ | ⟨hlength, added, hmem, hadded⟩
      · exact .inl ⟨rfl, List.forall_mem_cons.mpr ⟨.inr ⟨_, hrange, hoverlap⟩, hrest⟩⟩
      · exact .inr ⟨hlength, added, List.mem_cons_of_mem sstable hmem, hadded⟩

/-- The number of files that are not selected yet. -/
def unselected (sstables : List SSTableMeta) (selection : Selection) : Nat :=
  (sstables.filter fun sstable => !selection.has sstable).length

theorem unselected_lt (hkeeps : selection.1 ⊆ next.1)
    (hadded : ∃ sstable ∈ sstables, selection.has sstable = false ∧ next.has sstable = true) :
    unselected sstables next < unselected sstables selection := by
  obtain ⟨added, hmem, hnew, hadded⟩ := hadded
  have hsub : (sstables.filter fun sstable => !next.has sstable).Sublist
      (sstables.filter fun sstable => !selection.has sstable) := by
    apply List.monotone_filter_right
    intro sstable hout
    rw [Bool.not_eq_true'] at hout ⊢
    cases hhas : selection.has sstable with
    | false => rfl
    | true =>
      rw [Selection.has_of_subset hkeeps hhas] at hout
      cases hout
  refine lt_of_le_of_ne hsub.length_le ?_
  intro hlength
  have heq := hsub.eq_of_length hlength
  have hbefore : added ∈ sstables.filter fun sstable => !selection.has sstable :=
    List.mem_filter.mpr ⟨hmem, by rw [hnew]; rfl⟩
  rw [← heq] at hbefore
  have hout := (List.mem_filter.mp hbefore).2
  rw [hadded] at hout
  cases hout

/-! ### The range of the selection -/

/-- The smallest range around the ranges of some tables. -/
structure Hull (files : String → Option Bytes) (sstables : List SSTableMeta)
    (range : Key × Key) : Prop where
  covers : ∀ sstable ∈ sstables, ∀ found, HasRange files sstable found →
    range.1 ≤ found.1 ∧ found.2 ≤ range.2
  low : ∃ sstable ∈ sstables, ∃ found, HasRange files sstable found ∧ found.1 = range.1
  high : ∃ sstable ∈ sstables, ∃ found, HasRange files sstable found ∧ found.2 = range.2

theorem Hull.single {range : Key × Key} {front : List SSTableMeta}
    (hfront : ∀ other ∈ front, ∀ found, ¬ HasRange files other found)
    (h : HasRange files sstable range) : Hull files (front ++ [sstable]) range where
  covers other hother found hfound := by
    rcases List.mem_append.mp hother with hother | hother
    · exact absurd hfound (hfront other hother found)
    · rw [List.mem_singleton.mp hother] at hfound
      rw [h.unique hfound]
      exact ⟨le_rfl, le_rfl⟩
  low := ⟨sstable, List.mem_append_right _ List.mem_cons_self, range, h, rfl⟩
  high := ⟨sstable, List.mem_append_right _ List.mem_cons_self, range, h, rfl⟩

theorem Hull.add {range found : Key × Key} (h : Hull files sstables range)
    (hrange : HasRange files sstable found) :
    Hull files (sstables ++ [sstable]) (widen range found) where
  covers other hother inner hinner := by
    show min _ _ ≤ _ ∧ _ ≤ max _ _
    rcases List.mem_append.mp hother with hother | hother
    · have hcovers := h.covers other hother inner hinner
      exact ⟨(min_le_left _ _).trans hcovers.1, hcovers.2.trans (le_max_left _ _)⟩
    · rw [List.mem_singleton.mp hother] at hinner
      rw [hrange.unique hinner]
      exact ⟨min_le_right _ _, le_max_right _ _⟩
  low := by
    rcases min_choice range.1 found.1 with hmin | hmin
    · obtain ⟨other, hother, inner, hinner, heq⟩ := h.low
      exact ⟨other, List.mem_append_left _ hother, inner, hinner, heq.trans hmin.symm⟩
    · exact ⟨sstable, List.mem_append_right _ List.mem_cons_self, found, hrange, hmin.symm⟩
  high := by
    rcases max_choice range.2 found.2 with hmax | hmax
    · obtain ⟨other, hother, inner, hinner, heq⟩ := h.high
      exact ⟨other, List.mem_append_left _ hother, inner, hinner, heq.trans hmax.symm⟩
    · exact ⟨sstable, List.mem_append_right _ List.mem_cons_self, found, hrange, hmax.symm⟩

/-- A table without a range does not count. -/
theorem Hull.skip {range : Key × Key} (h : Hull files sstables range)
    (hnone : computeMetaRange files sstable = .ok none) :
    Hull files (sstables ++ [sstable]) range where
  covers other hother found hfound := by
    rcases List.mem_append.mp hother with hother | hother
    · exact h.covers other hother found hfound
    · rw [List.mem_singleton.mp hother, HasRange, hnone] at hfound
      cases hfound
  low := by
    obtain ⟨other, hother, hfound⟩ := h.low
    exact ⟨other, List.mem_append_left _ hother, hfound⟩
  high := by
    obtain ⟨other, hother, hfound⟩ := h.high
    exact ⟨other, List.mem_append_left _ hother, hfound⟩

/-- The loop of `compute_level_range` behind `front`, from a range it found. -/
theorem computeLevelRange_some {front : List SSTableMeta} {before range : Key × Key}
    (hbefore : Hull files front before)
    (h : computeLevelRange files sstables (some before) = .ok (some range)) :
    Hull files (front ++ sstables) range := by
  induction sstables generalizing front before with
  | nil =>
    obtain rfl := Option.some.inj (Except.ok.inj h)
    rw [List.append_nil]
    exact hbefore
  | cons sstable sstables ih =>
    obtain ⟨found, hfound, h⟩ := Exec.bind_eq_ok h
    rw [← List.singleton_append, ← List.append_assoc]
    cases found with
    | some found => exact ih (hbefore.add hfound) h
    | none => exact ih (hbefore.skip hfound) h

/-- `compute_level_range` returns the hull of the ranges it finds. -/
theorem computeLevelRange_none {front : List SSTableMeta} {range : Key × Key}
    (hfront : ∀ other ∈ front, ∀ found, ¬ HasRange files other found)
    (h : computeLevelRange files sstables none = .ok (some range)) :
    Hull files (front ++ sstables) range := by
  induction sstables generalizing front with
  | nil => cases h
  | cons sstable sstables ih =>
    obtain ⟨found, hfound, h⟩ := Exec.bind_eq_ok h
    rw [← List.singleton_append, ← List.append_assoc]
    cases found with
    | some found => exact computeLevelRange_some (Hull.single hfront hfound) h
    | none =>
      refine ih (fun other hother inner hinner => ?_) h
      rcases List.mem_append.mp hother with hother | hother
      · exact hfront other hother inner hinner
      · rw [List.mem_singleton.mp hother, HasRange, hfound] at hinner
        cases hinner

/-- What the selection keeps: its files are distinct candidates, and its range is their hull. -/
structure Selection.Within (files : String → Option Bytes) (sstables : List SSTableMeta)
    (selection : Selection) : Prop where
  subset : ∀ sstable ∈ selection.1, sstable ∈ sstables
  distinct : selection.1.Pairwise fun a b => a.fileId ≠ b.fileId
  hull : Hull files selection.1 selection.2

theorem Selection.Within.closeStep (h : selection.Within files sstables)
    (hmem : sstable ∈ sstables) (hstep : CloseStep files selection sstable next) :
    next.Within files sstables := by
  cases hstep with
  | selected hhas => exact h
  | apart hnew hrange hoverlap => exact h
  | added hnew hrange hoverlap =>
    refine ⟨fun selected hselected => ?_, ?_, h.hull.add hrange⟩
    · rcases List.mem_append.mp hselected with hold | hadded
      · exact h.subset selected hold
      · rw [List.mem_singleton.mp hadded]
        exact hmem
    · refine List.pairwise_append.mpr ⟨h.distinct, List.pairwise_singleton _ _, ?_⟩
      intro selected hselected added hadded hid
      rw [List.mem_singleton.mp hadded] at hid
      rw [Selection.has, List.any_eq_false] at hnew
      exact hnew selected hselected (beq_iff_eq.mpr hid)

theorem Selection.Within.foldlM {todo : List SSTableMeta} (h : selection.Within files sstables)
    (hsub : ∀ sstable ∈ todo, sstable ∈ sstables)
    (hpass : todo.foldlM (closeCandidate files) selection = .ok next) :
    next.Within files sstables := by
  induction todo generalizing selection with
  | nil =>
    obtain rfl := Except.ok.inj hpass
    exact h
  | cons sstable todo ih =>
    rw [List.foldlM_cons] at hpass
    obtain ⟨middle, hmiddle, hpass⟩ := Exec.bind_eq_ok hpass
    exact ih (h.closeStep (hsub sstable List.mem_cons_self) (closeCandidate_ok hmiddle))
      (fun t ht => hsub t (List.mem_cons_of_mem sstable ht)) hpass

/-! ### The end of the loop -/

/-- With enough passes the loop ends in a selection that every other file is apart from. -/
theorem closeOverlaps_ok {passes : Nat} {closed : Selection}
    (hpasses : unselected sstables selection < passes)
    (hwithin : selection.Within files sstables)
    (h : closeOverlaps files sstables passes selection = .ok closed) :
    closed.Within files sstables ∧ selection.1 ⊆ closed.1 ∧
      ∀ sstable ∈ sstables, closed.has sstable = true ∨
        ∃ range, HasRange files sstable range ∧ rangesOverlap closed.2 range = false := by
  induction passes generalizing selection with
  | zero => omega
  | succ passes ih =>
    obtain ⟨next, hnext, h⟩ := Exec.bind_eq_ok h
    have hsub := (foldlM_closeCandidate_subset hnext).2
    rcases foldlM_closeCandidate_cases hnext with ⟨rfl, hclosed⟩ | ⟨hlength, hadded⟩
    · rw [if_pos rfl] at h
      obtain rfl := Except.ok.inj h
      exact ⟨hwithin, List.Subset.refl _, hclosed⟩
    · rw [if_neg hlength.ne'] at h
      have hless := unselected_lt hsub hadded
      obtain ⟨hin, hkeeps, hclosed⟩ := ih (by omega) (hwithin.foldlM (fun _ hmem => hmem) hnext) h
      exact ⟨hin, List.Subset.trans hsub hkeeps, hclosed⟩

/-- The loop ends: further passes change nothing. -/
theorem closeOverlaps_stable {passes : Nat} (extra : Nat)
    (hpasses : unselected sstables selection < passes) :
    closeOverlaps files sstables (passes + extra) selection
      = closeOverlaps files sstables passes selection := by
  induction passes generalizing selection with
  | zero => omega
  | succ passes ih =>
    rw [Nat.add_right_comm, closeOverlaps, closeOverlaps]
    cases hpass : sstables.foldlM (closeCandidate files) selection with
    | error halt => rfl
    | ok next =>
      rw [Exec.ok_bind, Exec.ok_bind]
      rcases foldlM_closeCandidate_cases hpass with ⟨rfl, -⟩ | ⟨hlength, hadded⟩
      · rw [if_pos rfl, if_pos rfl]
      · have hless := unselected_lt (foldlM_closeCandidate_subset hpass).2 hadded
        rw [if_neg hlength.ne', if_neg hlength.ne', ih (by omega)]

theorem unselected_le_length : unselected sstables selection ≤ sstables.length :=
  List.length_filter_le _ _

end Loop

/-! ### The inputs -/

theorem seedCandidates_ok {files : String → Option Bytes} {level target : Nat}
    {sstables candidates seeds : List SSTableMeta} {inputBytes : Nat}
    (h : seedCandidates files level target sstables candidates inputBytes = .ok seeds) :
    seeds.Sublist (candidates ++ sstables) ∧
      (candidates ++ sstables ≠ [] → seeds ≠ []) := by
  induction sstables generalizing candidates inputBytes with
  | nil =>
    obtain rfl := Except.ok.inj h
    rw [List.append_nil]
    exact ⟨List.Sublist.refl _, fun hne => hne⟩
  | cons sstable sstables ih =>
    rw [seedCandidates] at h
    split at h
    · rename_i hbreak
      obtain rfl := Except.ok.inj h
      exact ⟨List.sublist_append_left _ _, fun _ => hbreak.1⟩
    · obtain ⟨length, -, h⟩ := Exec.bind_eq_ok h
      have hrest := ih h
      rw [List.append_assoc] at hrest
      exact hrest

/-- The two ranges share no key. -/
def RangesApart (range other : Key × Key) : Prop := other.2 < range.1 ∨ range.2 < other.1

theorem rangesApart_of_not_overlap {range other : Key × Key}
    (h : rangesOverlap range other = false) : RangesApart range other := by
  rw [rangesOverlap, Bool.and_eq_false_iff, decide_eq_false_iff_not, decide_eq_false_iff_not,
    not_le, not_le] at h
  exact h

/-- The selection of a compaction of `level`: tables of it and the next level, whose hull meets no
other table of the two levels. -/
structure ClosedSelection (files : String → Option Bytes) (levels : Levels) (level : Nat)
    (inputs : List SSTableMeta) (range : Key × Key) : Prop where
  seed : ∃ sstable ∈ levels.files level, sstable ∈ inputs
  subset : ∀ sstable ∈ inputs,
    sstable ∈ levels.files level ∨ sstable ∈ levels.files (level + 1)
  distinct : inputs.Pairwise fun a b => a.fileId ≠ b.fileId
  hull : Hull files inputs range
  apart : ∀ sstable, sstable ∈ levels.files level ∨ sstable ∈ levels.files (level + 1) →
    (∀ input ∈ inputs, input.fileId ≠ sstable.fileId) →
      ∃ found, HasRange files sstable found ∧ RangesApart range found

theorem selectInputs_closed {files : String → Option Bytes} {config : StorageConfig}
    {levels : Levels} {level : Nat} {inputs : List SSTableMeta}
    (hdistinct : (levels.files level).Pairwise fun a b => a.fileId ≠ b.fileId)
    (h : selectInputs files config levels level = .ok inputs) :
    ∃ range, ClosedSelection files levels level inputs range := by
  rw [selectInputs] at h
  simp only at h
  split at h
  · cases h
  · rename_i hcurrent
    split at h
    · cases h
    · obtain ⟨seeds, hseeds, h⟩ := Exec.bind_eq_ok h
      obtain ⟨found, hfound, h⟩ := Exec.bind_eq_ok h
      obtain ⟨hsub, hne⟩ := seedCandidates_ok hseeds
      rw [List.nil_append] at hsub hne
      split at h
      · cases h
      · rename_i range
        obtain ⟨selection, hselection, h⟩ := Exec.bind_eq_ok h
        obtain rfl := Except.ok.inj h
        have hstart : Selection.Within files (levels.files level ++ levels.files (level + 1))
            (seeds, range) :=
          ⟨fun t ht => List.mem_append_left _ (hsub.subset ht), hdistinct.sublist hsub,
            computeLevelRange_none (fun _ hmem => absurd hmem List.not_mem_nil) hfound⟩
        obtain ⟨hwithin, hkeeps, hclosed⟩ := closeOverlaps_ok
          (Nat.lt_succ_of_le unselected_le_length) hstart hselection
        obtain ⟨seed, hseed⟩ := List.exists_mem_of_ne_nil seeds (hne hcurrent)
        refine ⟨selection.2, ⟨seed, hsub.subset hseed, hkeeps hseed⟩,
          fun sstable hmem => List.mem_append.mp (hwithin.subset sstable hmem), hwithin.distinct,
          hwithin.hull, fun sstable hmem hother => ?_⟩
        rcases hclosed sstable (List.mem_append.mpr hmem) with hhas | ⟨found, hrange, hapart⟩
        · obtain ⟨input, hinput, heq⟩ := List.any_eq_true.mp hhas
          exact absurd (beq_iff_eq.mp heq) (hother input hinput)
        · exact ⟨found, hrange, rangesApart_of_not_overlap hapart⟩

/-- The inputs of a compaction of `level`: tables of it and the next level, with a range that covers
them and meets no other table of the two levels. -/
structure ClosedInputs (levels : Levels) (level : Nat) (inputs : List SSTableMeta)
    (range : Key × Key) : Prop where
  nonempty : inputs ≠ []
  subset : ∀ sstable ∈ inputs,
    sstable ∈ levels.files level ∨ sstable ∈ levels.files (level + 1)
  distinct : inputs.Pairwise fun a b => a.fileId ≠ b.fileId
  covered : ∀ sstable ∈ inputs, range.1 ≤ sstable.smallestKey ∧ sstable.largestKey ≤ range.2
  apart : ∀ sstable, sstable ∈ levels.files level ∨ sstable ∈ levels.files (level + 1) →
    (∀ input ∈ inputs, input.fileId ≠ sstable.fileId) →
      sstable.largestKey < range.1 ∨ range.2 < sstable.smallestKey

section Written
variable {fastbloom : FastBloom} {files : String → Option Bytes} {contents : Contents}
  {levels : Levels} {level : Nat} {inputs : List SSTableMeta} {range : Key × Key}

theorem hasRange_of_mem_files (hwritten : TablesWritten fastbloom files contents levels.all)
    {sstable : SSTableMeta}
    (hmem : sstable ∈ levels.files level ∨ sstable ∈ levels.files (level + 1)) :
    HasRange files sstable sstable.range := by
  refine (hwritten sstable (mem_all.mpr ?_)).computeMetaRange_eq
  rcases hmem with hmem | hmem
  · exact ⟨level, mem_files.mp hmem⟩
  · exact ⟨level + 1, mem_files.mp hmem⟩

/-- On written tables the ranges are those of the manifest. -/
theorem ClosedSelection.closedInputs
    (hwritten : TablesWritten fastbloom files contents levels.all)
    (h : ClosedSelection files levels level inputs range) : ClosedInputs levels level inputs range := by
  obtain ⟨seed, -, hseed⟩ := h.seed
  refine ⟨List.ne_nil_of_mem hseed, h.subset, h.distinct, fun sstable hmem => ?_,
    fun sstable hmem hother => ?_⟩
  · exact h.hull.covers sstable hmem sstable.range
      (hasRange_of_mem_files hwritten (h.subset sstable hmem))
  · obtain ⟨found, hrange, hapart⟩ := h.apart sstable hmem hother
    rw [(hasRange_of_mem_files hwritten hmem).unique hrange] at hapart
    exact hapart

theorem selectInputs_ok {config : StorageConfig}
    (hwritten : TablesWritten fastbloom files contents levels.all)
    (hdistinct : (levels.files level).Pairwise fun a b => a.fileId ≠ b.fileId)
    (h : selectInputs files config levels level = .ok inputs) :
    ∃ range, ClosedInputs levels level inputs range := by
  obtain ⟨range, hclosed⟩ := selectInputs_closed hdistinct h
  exact ⟨range, hclosed.closedInputs hwritten⟩

end Written

end CereDB.Storage
