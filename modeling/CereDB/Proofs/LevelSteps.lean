import CereDB.Proofs.CompactionMerge

/-!
# `CereDB.Proofs.LevelSteps`: what a flush and a compaction do to the levels

`TableInvariant` is what the tables of an engine keep: every table stands under its level and id, no
two share an id or a path, the files hold what the manifest says, the levels below level 0 have
disjoint ranges, and every version of a key is at least as new as the versions in deeper levels.

`TableInvariant.add` is the step of a flush and `TableInvariant.publish` that of a compaction.
`Shows` is what the tables answer for a key. A flush makes them show the flushed version
(`shows_add`), and a compaction changes no answer (`shows_publish`), although it may drop a tombstone
with everything it covers.
-/

set_option autoImplicit false

namespace CereDB.Storage

open CereDB.Lib ReadManager

/-- A version of a key in one of the tables. -/
def HasVersion (contents : Contents) (levels : Levels) (key : Key) (record : MemtableRecord) :
    Prop :=
  ∃ sstable ∈ levels.all, tableGet (contents sstable) key = some record

theorem mem_tableVersions_tables {contents : Contents} {levels : Levels} {key : Key}
    {record : MemtableRecord} :
    record ∈ tableVersions contents levels.tables key ↔ HasVersion contents levels key record := by
  rw [mem_tableVersions, HasVersion]
  simp only [mem_tables]

/-- What the tables of an engine keep. -/
structure TableInvariant (fastbloom : FastBloom) (files : String → Option Bytes)
    (contents : Contents) (levels : Levels) (nextFileId : Nat) : Prop where
  placed : ∀ (level id : Nat) (sstable : SSTableMeta),
    levels[toLex (level, id)]? = some sstable → sstable.level = level ∧ sstable.fileId = id
  fileIds : ∀ a ∈ levels.all, ∀ b ∈ levels.all, a.fileId = b.fileId → a = b
  paths : ∀ a ∈ levels.all, ∀ b ∈ levels.all, a.path = b.path → a = b
  fresh : ∀ sstable ∈ levels.all, sstable.fileId < nextFileId
  written : TablesWritten fastbloom files contents levels.all
  disjoint : ∀ a ∈ levels.all, ∀ b ∈ levels.all, a ≠ b → a.level = b.level → a.level ≠ 0 → a.Apart b
  ordered : ∀ a ∈ levels.all, ∀ b ∈ levels.all, a.level < b.level →
    ∀ (key : Key) (newer older : MemtableRecord), tableGet (contents a) key = some newer →
      tableGet (contents b) key = some older → older.lsn ≤ newer.lsn

namespace TableInvariant

variable {fastbloom : FastBloom} {files : String → Option Bytes} {contents : Contents}
  {levels : Levels} {nextFileId : Nat}

theorem mem_files_iff (h : TableInvariant fastbloom files contents levels nextFileId)
    {level : Nat} {sstable : SSTableMeta} :
    sstable ∈ levels.files level ↔ sstable ∈ levels.all ∧ sstable.level = level := by
  rw [mem_files, mem_all]
  constructor
  · rintro ⟨id, hget⟩
    exact ⟨⟨level, id, hget⟩, (h.placed level id sstable hget).1⟩
  · rintro ⟨⟨level', id, hget⟩, rfl⟩
    rw [(h.placed level' id sstable hget).1]
    exact ⟨id, hget⟩

theorem get?_iff (h : TableInvariant fastbloom files contents levels nextFileId)
    {level id : Nat} {sstable : SSTableMeta} :
    levels[toLex (level, id)]? = some sstable ↔
      sstable ∈ levels.all ∧ sstable.level = level ∧ sstable.fileId = id := by
  constructor
  · intro hget
    exact ⟨mem_all.mpr ⟨level, id, hget⟩, h.placed level id sstable hget⟩
  · rintro ⟨hmem, rfl, rfl⟩
    obtain ⟨level, id, hget⟩ := mem_all.mp hmem
    obtain ⟨hlevel, hid⟩ := h.placed level id sstable hget
    rw [hlevel, hid]
    exact hget

theorem stored (h : TableInvariant fastbloom files contents levels nextFileId) :
    TablesStored fastbloom files contents levels.tables :=
  fun sstable hmem => (h.written sstable (mem_tables.mp hmem)).stores

/-- A table stands under its level and id. -/
theorem key_of_mem_toList (h : TableInvariant fastbloom files contents levels nextFileId)
    {entry : (Nat ×ₗ Nat) × SSTableMeta} (hmem : entry ∈ levels.toList) :
    entry.1 = toLex (entry.2.level, entry.2.fileId) := by
  have hplaced := h.placed (ofLex entry.1).1 (ofLex entry.1).2 entry.2
    ((OrdMap.mem_toList_iff levels _ _).mp hmem)
  rw [hplaced.1, hplaced.2]
  rfl

/-- The order of the levels that reads rely on. -/
theorem levelInvariant (h : TableInvariant fastbloom files contents levels nextFileId) :
    LevelInvariant contents levels := by
  refine ⟨?_, ?_, ?_⟩
  · -- the entries are distinct, and so are the ids of their tables
    rw [Levels.all, List.map_map, List.nodup_iff_pairwise_ne, List.pairwise_map]
    refine (OrdMap.sorted_toList levels).imp_of_mem ?_
    intro a b ha hb hlt hid
    have hamem : a.2 ∈ levels.all := List.mem_map_of_mem ha
    have hbmem : b.2 ∈ levels.all := List.mem_map_of_mem hb
    have heq := h.fileIds a.2 hamem b.2 hbmem hid
    rw [h.key_of_mem_toList ha, h.key_of_mem_toList hb, heq] at hlt
    exact lt_irrefl _ hlt
  · intro level hne
    have hnodup : (levels.files level).Pairwise (· ≠ ·) := by
      rw [Levels.files, List.pairwise_map]
      refine ((OrdMap.sorted_toList levels).sublist List.filter_sublist).imp_of_mem ?_
      intro a b ha hb hlt heq
      rw [h.key_of_mem_toList (List.mem_of_mem_filter ha),
        h.key_of_mem_toList (List.mem_of_mem_filter hb), heq] at hlt
      exact lt_irrefl _ hlt
    refine hnodup.imp_of_mem ?_
    intro a b ha hb hdistinct
    obtain ⟨ha, halevel⟩ := h.mem_files_iff.mp ha
    obtain ⟨hb, hblevel⟩ := h.mem_files_iff.mp hb
    exact h.disjoint a ha b hb hdistinct (halevel.trans hblevel.symm) (by rw [halevel]; exact hne)
  · intro shallow deep hlt key record hrecord older holder
    obtain ⟨a, ha, hnewer⟩ := mem_tableVersions.mp (List.argmax_mem hrecord)
    obtain ⟨b, hb, holder⟩ := mem_tableVersions.mp holder
    obtain ⟨ha, halevel⟩ := h.mem_files_iff.mp ha
    obtain ⟨hb, hblevel⟩ := h.mem_files_iff.mp hb
    exact h.ordered a ha b hb (by rw [halevel, hblevel]; exact hlt) key record older hnewer holder

end TableInvariant

/-! ### Adding and removing tables -/

/-- What `publish_compaction` makes of the levels. -/
def Levels.publish (levels : Levels) (inputs outputs : List SSTableMeta) : Levels :=
  outputs.foldl Levels.add
    (inputs.foldl (fun levels input => levels.remove input.level input.fileId) levels)

theorem get?_add (levels : Levels) (added : SSTableMeta) (level id : Nat) :
    (levels.add added)[toLex (level, id)]? =
      if added.level = level ∧ added.fileId = id then some added
      else levels[toLex (level, id)]? := by
  rw [Levels.add, OrdMap.get?_insert]
  simp only [toLex_inj, Prod.mk.injEq]

theorem get?_foldl_remove (levels : Levels) (inputs : List SSTableMeta) (level id : Nat) :
    (inputs.foldl (fun levels input => levels.remove input.level input.fileId)
        levels)[toLex (level, id)]? =
      if ∃ input ∈ inputs, input.level = level ∧ input.fileId = id then none
      else levels[toLex (level, id)]? := by
  induction inputs generalizing levels with
  | nil => simp
  | cons input inputs ih =>
    rw [List.foldl_cons, ih, Levels.remove, OrdMap.get?_erase]
    simp only [toLex_inj, Prod.mk.injEq, List.exists_mem_cons_iff]
    by_cases hhere : input.level = level ∧ input.fileId = id
    · simp [hhere]
    · simp [hhere]

theorem get?_foldl_add {outputs : List SSTableMeta}
    (hids : outputs.Pairwise fun a b => a.fileId ≠ b.fileId) (levels : Levels) (level id : Nat)
    (sstable : SSTableMeta) :
    (outputs.foldl Levels.add levels)[toLex (level, id)]? = some sstable ↔
      (sstable ∈ outputs ∧ sstable.level = level ∧ sstable.fileId = id) ∨
        ((∀ output ∈ outputs, ¬ (output.level = level ∧ output.fileId = id)) ∧
          levels[toLex (level, id)]? = some sstable) := by
  induction outputs generalizing levels with
  | nil => simp
  | cons output outputs ih =>
    obtain ⟨hhead, htail⟩ := List.pairwise_cons.mp hids
    rw [List.foldl_cons, ih htail, get?_add, List.mem_cons, List.forall_mem_cons]
    by_cases hhere : output.level = level ∧ output.fileId = id
    · -- no later output has the same id
      have hlater : ∀ other ∈ outputs, ¬ (other.level = level ∧ other.fileId = id) := by
        intro other hother hsame
        exact hhead other hother (hhere.2.trans hsame.2.symm)
      rw [if_pos hhere]
      constructor
      · rintro (⟨hmem, hplace⟩ | ⟨-, heq⟩)
        · exact absurd hplace (hlater sstable hmem)
        · obtain rfl := Option.some.inj heq
          exact .inl ⟨.inl rfl, hhere⟩
      · rintro (⟨rfl | hmem, hplace⟩ | ⟨⟨hnot, -⟩, -⟩)
        · exact .inr ⟨hlater, rfl⟩
        · exact absurd hplace (hlater sstable hmem)
        · exact absurd hhere hnot
    · rw [if_neg hhere]
      constructor
      · rintro (⟨hmem, hplace⟩ | ⟨hnot, hget⟩)
        · exact .inl ⟨.inr hmem, hplace⟩
        · exact .inr ⟨⟨hhere, hnot⟩, hget⟩
      · rintro (⟨rfl | hmem, hplace⟩ | ⟨⟨-, hnot⟩, hget⟩)
        · exact absurd hplace hhere
        · exact .inl ⟨hmem, hplace⟩
        · exact .inr ⟨hnot, hget⟩

/-- The tables that a publication leaves in place. -/
def Kept (levels : Levels) (inputs : List SSTableMeta) (sstable : SSTableMeta) : Prop :=
  sstable ∈ levels.all ∧ sstable ∉ inputs

section Members
variable {fastbloom : FastBloom} {files : String → Option Bytes} {contents : Contents}
  {levels : Levels} {nextFileId : Nat}

/-- The tables after a publication. -/
theorem TableInvariant.mem_publish (h : TableInvariant fastbloom files contents levels nextFileId)
    {inputs outputs : List SSTableMeta} (hinputs : ∀ input ∈ inputs, input ∈ levels.all)
    (hids : outputs.Pairwise fun a b => a.fileId ≠ b.fileId)
    (hfresh : ∀ output ∈ outputs, ∀ sstable, Kept levels inputs sstable →
      output.fileId ≠ sstable.fileId) {level id : Nat} {sstable : SSTableMeta} :
    (levels.publish inputs outputs)[toLex (level, id)]? = some sstable ↔
      (sstable ∈ outputs ∨ Kept levels inputs sstable) ∧
        sstable.level = level ∧ sstable.fileId = id := by
  rw [Levels.publish, get?_foldl_add hids, get?_foldl_remove]
  constructor
  · rintro (⟨hmem, hplace⟩ | ⟨-, hget⟩)
    · exact ⟨.inl hmem, hplace⟩
    · split at hget
      · cases hget
      · rename_i hnone
        obtain ⟨hmem, hplace⟩ := h.get?_iff.mp hget
        exact ⟨.inr ⟨hmem, fun hinput => hnone ⟨sstable, hinput, hplace⟩⟩, hplace⟩
  · rintro ⟨hmem | ⟨hmem, hnot⟩, hplace⟩
    · exact .inl ⟨hmem, hplace⟩
    · refine .inr ⟨?_, ?_⟩
      · intro output houtput hsame
        exact hfresh output houtput sstable ⟨hmem, hnot⟩ (hsame.2.trans hplace.2.symm)
      · rw [if_neg]
        · exact h.get?_iff.mpr ⟨hmem, hplace⟩
        · rintro ⟨input, hinput, hlevel, hid⟩
          have heq := h.fileIds input (hinputs input hinput) sstable hmem (hid.trans hplace.2.symm)
          exact hnot (heq ▸ hinput)

theorem TableInvariant.mem_all_publish
    (h : TableInvariant fastbloom files contents levels nextFileId)
    {inputs outputs : List SSTableMeta} (hinputs : ∀ input ∈ inputs, input ∈ levels.all)
    (hids : outputs.Pairwise fun a b => a.fileId ≠ b.fileId)
    (hfresh : ∀ output ∈ outputs, ∀ sstable, Kept levels inputs sstable →
      output.fileId ≠ sstable.fileId) {sstable : SSTableMeta} :
    sstable ∈ (levels.publish inputs outputs).all ↔
      sstable ∈ outputs ∨ Kept levels inputs sstable := by
  rw [mem_all]
  constructor
  · rintro ⟨level, id, hget⟩
    exact ((h.mem_publish hinputs hids hfresh).mp hget).1
  · intro hmem
    exact ⟨sstable.level, sstable.fileId, (h.mem_publish hinputs hids hfresh).mpr ⟨hmem, rfl, rfl⟩⟩

end Members

/-! ### Steps -/

/-- The order between two tables: the versions of the first one are at least as new. -/
def NewerThan (contents : Contents) (a b : SSTableMeta) : Prop :=
  ∀ (key : Key) (newer older : MemtableRecord), tableGet (contents a) key = some newer →
    tableGet (contents b) key = some older → older.lsn ≤ newer.lsn

/-- What the tables of a publication must satisfy to keep the invariant. -/
structure PublishStep (fastbloom : FastBloom) (files files' : String → Option Bytes)
    (contents contents' : Contents) (levels : Levels) (nextFileId nextFileId' : Nat)
    (inputs outputs : List SSTableMeta) : Prop where
  registered : ∀ input ∈ inputs, input ∈ levels.all
  ids : outputs.Pairwise fun a b => a.fileId ≠ b.fileId
  newIds : ∀ output ∈ outputs, ∀ sstable, Kept levels inputs sstable →
    output.fileId ≠ sstable.fileId
  fresh : ∀ output ∈ outputs, output.fileId < nextFileId'
  next : nextFileId ≤ nextFileId'
  paths : outputs.Pairwise fun a b => a.path ≠ b.path
  newPaths : ∀ output ∈ outputs, ∀ sstable, Kept levels inputs sstable →
    output.path ≠ sstable.path
  kept : ∀ sstable, Kept levels inputs sstable →
    contents' sstable = contents sstable ∧ files' sstable.path = files sstable.path
  written : ∀ output ∈ outputs, output.Written fastbloom files' (contents' output)
  /-- All outputs go to one level. -/
  level : ∀ a ∈ outputs, ∀ b ∈ outputs, a.level = b.level
  apart : ∀ output ∈ outputs, output.level ≠ 0 → ∀ sstable, Kept levels inputs sstable →
    sstable.level = output.level → output.Apart sstable
  outputsApart : (∀ output ∈ outputs, output.level ≠ 0) → outputs.Pairwise SSTableMeta.Apart
  newer : ∀ output ∈ outputs, ∀ sstable, Kept levels inputs sstable →
    output.level < sstable.level → NewerThan contents' output sstable
  older : ∀ output ∈ outputs, ∀ sstable, Kept levels inputs sstable →
    sstable.level < output.level → NewerThan contents' sstable output

theorem SSTableMeta.Apart.symm {a b : SSTableMeta} (h : a.Apart b) : b.Apart a := Or.symm h

instance : Std.Symm SSTableMeta.Apart := ⟨fun _ _ => SSTableMeta.Apart.symm⟩

instance : Std.Symm fun a b : SSTableMeta => a.fileId ≠ b.fileId := ⟨fun _ _ => Ne.symm⟩

instance : Std.Symm fun a b : SSTableMeta => a.path ≠ b.path := ⟨fun _ _ => Ne.symm⟩

theorem TableInvariant.publish {fastbloom : FastBloom} {files files' : String → Option Bytes}
    {contents contents' : Contents} {levels : Levels} {nextFileId nextFileId' : Nat}
    {inputs outputs : List SSTableMeta}
    (h : TableInvariant fastbloom files contents levels nextFileId)
    (hstep : PublishStep fastbloom files files' contents contents' levels nextFileId nextFileId'
      inputs outputs) :
    TableInvariant fastbloom files' contents' (levels.publish inputs outputs) nextFileId' := by
  have hmem : ∀ sstable, sstable ∈ (levels.publish inputs outputs).all ↔
      sstable ∈ outputs ∨ Kept levels inputs sstable := fun sstable =>
    h.mem_all_publish hstep.registered hstep.ids hstep.newIds
  refine {
    placed := fun level id sstable hget =>
      ((h.mem_publish hstep.registered hstep.ids hstep.newIds).mp hget).2
    fileIds := ?_, paths := ?_, fresh := ?_, written := ?_, disjoint := ?_, ordered := ?_ }
  · intro a ha b hb hid
    rcases (hmem a).mp ha with ha | ha <;> rcases (hmem b).mp hb with hb | hb
    · by_contra hne
      exact hstep.ids.forall ha hb hne hid
    · exact absurd hid (hstep.newIds a ha b hb)
    · exact absurd hid.symm (hstep.newIds b hb a ha)
    · exact h.fileIds a ha.1 b hb.1 hid
  · intro a ha b hb hpath
    rcases (hmem a).mp ha with ha | ha <;> rcases (hmem b).mp hb with hb | hb
    · by_contra hne
      exact hstep.paths.forall ha hb hne hpath
    · exact absurd hpath (hstep.newPaths a ha b hb)
    · exact absurd hpath.symm (hstep.newPaths b hb a ha)
    · exact h.paths a ha.1 b hb.1 hpath
  · intro sstable hsstable
    rcases (hmem sstable).mp hsstable with hnew | hkept
    · exact hstep.fresh sstable hnew
    · exact (h.fresh sstable hkept.1).trans_le hstep.next
  · intro sstable hsstable
    rcases (hmem sstable).mp hsstable with hnew | hkept
    · exact hstep.written sstable hnew
    · obtain ⟨hcontents, hfile⟩ := hstep.kept sstable hkept
      have hwritten := h.written sstable hkept.1
      rw [hcontents]
      refine ⟨?_, hwritten.recordCount⟩
      rw [hfile]
      exact hwritten.file
  · intro a ha b hb hne hlevel hdeep
    rcases (hmem a).mp ha with ha | ha <;> rcases (hmem b).mp hb with hb | hb
    · refine (hstep.outputsApart ?_).forall ha hb hne
      intro output houtput
      rw [hstep.level output houtput a ha]
      exact hdeep
    · exact hstep.apart a ha hdeep b hb hlevel.symm
    · exact (hstep.apart b hb (by rw [← hlevel]; exact hdeep) a ha hlevel).symm
    · exact h.disjoint a ha.1 b hb.1 hne hlevel hdeep
  · intro a ha b hb hlevel
    rcases (hmem a).mp ha with ha | ha <;> rcases (hmem b).mp hb with hb | hb
    · rw [hstep.level a ha b hb] at hlevel
      exact absurd hlevel (lt_irrefl _)
    · exact hstep.newer a ha b hb hlevel
    · exact hstep.older b hb a ha hlevel
    · intro key newer older hnewer holder
      rw [(hstep.kept a ha).1] at hnewer
      rw [(hstep.kept b hb).1] at holder
      exact h.ordered a ha.1 b hb.1 hlevel key newer older hnewer holder

/-! ### The contents after a step -/

/-- The contents with those of new tables. -/
def Contents.assign (contents : Contents) : List SSTableMeta → List (List MemtableRecord) → Contents
  | output :: outputs, part :: parts =>
    Function.update (Contents.assign contents outputs parts) output part
  | _, _ => contents

theorem Contents.assign_of_not_mem (contents : Contents) {outputs : List SSTableMeta}
    (parts : List (List MemtableRecord)) {sstable : SSTableMeta} (h : sstable ∉ outputs) :
    contents.assign outputs parts sstable = contents sstable := by
  induction outputs generalizing parts with
  | nil => rfl
  | cons output outputs ih =>
    rw [List.mem_cons, not_or] at h
    cases parts with
    | nil => rfl
    | cons part parts =>
      rw [Contents.assign, Function.update_of_ne h.1]
      exact ih parts h.2

/-- Every new table has its part. -/
theorem Contents.assign_forall₂ (contents : Contents) {outputs : List SSTableMeta}
    {parts : List (List MemtableRecord)} (hids : outputs.Pairwise fun a b => a.fileId ≠ b.fileId)
    {R : List MemtableRecord → SSTableMeta → Prop} (h : List.Forall₂ R parts outputs) :
    List.Forall₂ (fun part output => R part output ∧ contents.assign outputs parts output = part)
      parts outputs := by
  induction h with
  | nil => exact .nil
  | @cons part output parts outputs hR _ ih =>
    obtain ⟨hhead, htail⟩ := List.pairwise_cons.mp hids
    refine .cons ⟨hR, Function.update_self _ _ _⟩ ?_
    -- the later tables differ from the first one
    refine List.forall₂_iff_get.mpr ⟨(ih htail).length_eq, ?_⟩
    intro i hi hi'
    have hpair := (List.forall₂_iff_get.mp (ih htail)).2 i hi hi'
    refine ⟨hpair.1, ?_⟩
    rw [Contents.assign, Function.update_of_ne]
    · exact hpair.2
    · intro heq
      exact hhead _ (List.get_mem outputs ⟨i, hi'⟩) (congrArg SSTableMeta.fileId heq).symm

/-- Tables of related parts are related. -/
theorem pairwise_of_forall₂ {R : List MemtableRecord → SSTableMeta → Prop}
    {S : List MemtableRecord → List MemtableRecord → Prop} {T : SSTableMeta → SSTableMeta → Prop}
    {parts : List (List MemtableRecord)} {outputs : List SSTableMeta}
    (h : List.Forall₂ R parts outputs) (hS : parts.Pairwise S)
    (hT : ∀ part part' output output', R part output → R part' output' → S part part' →
      T output output') : outputs.Pairwise T := by
  induction h with
  | nil => exact .nil
  | @cons part output parts outputs hR hrest ih =>
    obtain ⟨hhead, htail⟩ := List.pairwise_cons.mp hS
    refine List.pairwise_cons.mpr ⟨?_, ih htail⟩
    intro output' houtput'
    obtain ⟨part', hpart', hR'⟩ := exists_left_of_forall₂ hrest houtput'
    exact hT part part' output output' hR hR' (hhead part' hpart')

section Steps
variable {fastbloom : FastBloom} {files files' : String → Option Bytes} {contents : Contents}
  {levels : Levels} {nextFileId nextFileId' : Nat}

/-- The step of a flush: a table of level 0 whose versions are the newest of their keys. -/
theorem PublishStep.flush {added : SSTableMeta}
    {records : List MemtableRecord} (hlevel : added.level = 0)
    (hids : ∀ sstable ∈ levels.all, added.fileId ≠ sstable.fileId)
    (hfresh : added.fileId < nextFileId') (hnext : nextFileId ≤ nextFileId')
    (hpath : ∀ sstable ∈ levels.all, added.path ≠ sstable.path)
    (hfiles : ∀ sstable ∈ levels.all, files' sstable.path = files sstable.path)
    (hwritten : added.Written fastbloom files' records)
    (hnewest : ∀ (key : Key) (newer older : MemtableRecord), tableGet records key = some newer →
      HasVersion contents levels key older → older.lsn ≤ newer.lsn) :
    PublishStep fastbloom files files' contents (contents.assign [added] [records]) levels
      nextFileId nextFileId' [] [added] := by
  have hnotMem : ∀ sstable ∈ levels.all, sstable ∉ [added] := by
    intro sstable hmem hadded
    exact hpath sstable hmem (by rw [List.mem_singleton.mp hadded])
  have hadded : contents.assign [added] [records] added = records := Function.update_self _ _ _
  refine {
    registered := fun _ hmem => absurd hmem List.not_mem_nil
    ids := List.pairwise_singleton _ _
    newIds := ?_
    fresh := ?_
    next := hnext
    paths := List.pairwise_singleton _ _
    newPaths := ?_
    kept := ?_
    written := ?_
    level := ?_
    apart := ?_
    outputsApart := fun _ => List.pairwise_singleton _ _
    newer := ?_
    older := ?_ }
  · intro output houtput sstable hkept
    rw [List.mem_singleton.mp houtput]
    exact hids sstable hkept.1
  · intro output houtput
    rw [List.mem_singleton.mp houtput]
    exact hfresh
  · intro output houtput sstable hkept
    rw [List.mem_singleton.mp houtput]
    exact hpath sstable hkept.1
  · intro sstable hkept
    exact ⟨contents.assign_of_not_mem _ (hnotMem sstable hkept.1), hfiles sstable hkept.1⟩
  · intro output houtput
    rw [List.mem_singleton.mp houtput, hadded]
    exact hwritten
  · intro a ha b hb
    rw [List.mem_singleton.mp ha, List.mem_singleton.mp hb]
  · intro output houtput hdeep
    rw [List.mem_singleton.mp houtput, hlevel] at hdeep
    exact absurd rfl hdeep
  · intro output houtput sstable hkept _ key newer older hnewer holder
    rw [List.mem_singleton.mp houtput, hadded] at hnewer
    rw [contents.assign_of_not_mem _ (hnotMem sstable hkept.1)] at holder
    exact hnewest key newer older hnewer ⟨sstable, hkept.1, holder⟩
  · intro output houtput sstable _ hlt
    rw [List.mem_singleton.mp houtput, hlevel] at hlt
    exact absurd hlt (Nat.not_lt_zero _)

variable {config : StorageConfig} {plan : CompactionPlan} {level : Nat} {range : Key × Key}
  {winners : List MemtableRecord}

/-- A winner comes from an input, so its key lies in the range of the inputs. -/
theorem CompactionPlan.Merges.exists_input
    (hmerges : plan.Merges fastbloom config contents levels winners) {winner : MemtableRecord}
    (hmem : winner ∈ winners) :
    ∃ input ∈ plan.inputs, tableGet (contents input) winner.key = some winner :=
  mem_tableVersions.mp (List.argmax_mem (hmerges.newest winner hmem))

theorem ClosedInputs.mem_all (h : TableInvariant fastbloom files contents levels nextFileId)
    (hclosed : ClosedInputs levels level plan.inputs range) {input : SSTableMeta}
    (hmem : input ∈ plan.inputs) :
    input ∈ levels.all ∧ (input.level = level ∨ input.level = level + 1) := by
  rcases hclosed.subset input hmem with hin | hin
  · obtain ⟨hall, hlevel⟩ := h.mem_files_iff.mp hin
    exact ⟨hall, .inl hlevel⟩
  · obtain ⟨hall, hlevel⟩ := h.mem_files_iff.mp hin
    exact ⟨hall, .inr hlevel⟩

theorem ClosedInputs.key_mem (h : TableInvariant fastbloom files contents levels nextFileId)
    (hclosed : ClosedInputs levels level plan.inputs range) {input : SSTableMeta}
    (hmem : input ∈ plan.inputs) {key : Key} {record : MemtableRecord}
    (hfound : tableGet (contents input) key = some record) : range.1 ≤ key ∧ key ≤ range.2 := by
  obtain ⟨hrecord, hkey⟩ := tableGet_some hfound
  have hbounds := (h.written input (hclosed.mem_all h hmem).1).stores.bounds record hrecord
  have hcovered := hclosed.covered input hmem
  rw [hkey] at hbounds
  exact ⟨hcovered.1.trans hbounds.1, hbounds.2.trans hcovered.2⟩

/-- A table of the two levels that stays holds no key of the range. -/
theorem ClosedInputs.kept_apart (h : TableInvariant fastbloom files contents levels nextFileId)
    (hclosed : ClosedInputs levels level plan.inputs range) {sstable : SSTableMeta}
    (hkept : Kept levels plan.inputs sstable)
    (hlevel : sstable.level = level ∨ sstable.level = level + 1) :
    sstable.largestKey < range.1 ∨ range.2 < sstable.smallestKey := by
  apply hclosed.apart sstable
  · rcases hlevel with hlevel | hlevel
    · exact .inl (h.mem_files_iff.mpr ⟨hkept.1, hlevel⟩)
    · exact .inr (h.mem_files_iff.mpr ⟨hkept.1, hlevel⟩)
  · intro input hinput hid
    have heq := h.fileIds input (hclosed.mem_all h hinput).1 sstable hkept.1 hid
    exact hkept.2 (heq ▸ hinput)

/-- The step of a compaction. -/
theorem PublishStep.compaction (h : TableInvariant fastbloom files contents levels nextFileId)
    (hclosed : ClosedInputs levels level plan.inputs range)
    (hmerges : plan.Merges fastbloom config contents levels winners)
    {parts : List (List MemtableRecord)} (hparts : parts.flatten = winners)
    {outputs : List SSTableMeta}
    (houtputs : List.Forall₂ (fun part output => output.level = level + 1 ∧
      output.Written fastbloom files' part) parts outputs)
    (hids : outputs.Pairwise fun a b => a.fileId ≠ b.fileId)
    (hnewIds : ∀ output ∈ outputs, ∀ sstable ∈ levels.all, output.fileId ≠ sstable.fileId)
    (hfresh : ∀ output ∈ outputs, output.fileId < nextFileId')
    (hnext : nextFileId ≤ nextFileId') (hpaths : outputs.Pairwise fun a b => a.path ≠ b.path)
    (hnewPaths : ∀ output ∈ outputs, ∀ sstable ∈ levels.all, output.path ≠ sstable.path)
    (hfiles : ∀ sstable, Kept levels plan.inputs sstable →
      files' sstable.path = files sstable.path) :
    PublishStep fastbloom files files' contents (contents.assign outputs parts) levels nextFileId
      nextFileId' plan.inputs outputs := by
  have hassigned := contents.assign_forall₂ hids houtputs
  have hold : ∀ sstable ∈ levels.all, contents.assign outputs parts sstable = contents sstable := by
    intro sstable hmem
    exact contents.assign_of_not_mem _ fun hout => hnewPaths sstable hout sstable hmem rfl
  have hlevel : ∀ output ∈ outputs, output.level = level + 1 := by
    intro output hmem
    obtain ⟨part, -, hR, -⟩ := exists_left_of_forall₂ houtputs hmem
    exact hR
  -- a version in an output is a winner, which an input holds
  have hversion : ∀ output ∈ outputs, ∀ (key : Key) (record : MemtableRecord),
      tableGet (contents.assign outputs parts output) key = some record →
        ∃ input ∈ plan.inputs, tableGet (contents input) key = some record := by
    intro output hmem key record hfound
    obtain ⟨part, hpart, -, heq⟩ := exists_left_of_forall₂ hassigned hmem
    rw [heq] at hfound
    obtain ⟨hrecord, rfl⟩ := tableGet_some hfound
    exact hmerges.exists_input (hparts ▸ List.mem_flatten_of_mem hpart hrecord)
  have hbounds : ∀ output ∈ outputs,
      range.1 ≤ output.smallestKey ∧ output.largestKey ≤ range.2 := by
    intro output hmem
    obtain ⟨part, hpart, ⟨-, hwritten⟩, heq⟩ := exists_left_of_forall₂ hassigned hmem
    obtain ⟨⟨first, hfirst, hfirstKey⟩, ⟨last, hlast, hlastKey⟩⟩ := hwritten.exists_bounds
    have hinRange : ∀ record ∈ part, range.1 ≤ record.key ∧ record.key ≤ range.2 := by
      intro record hrecord
      obtain ⟨input, hinput, hfound⟩ := hmerges.exists_input
        (hparts ▸ List.mem_flatten_of_mem hpart hrecord)
      exact hclosed.key_mem h hinput hfound
    rw [← hfirstKey, ← hlastKey]
    exact ⟨(hinRange first hfirst).1, (hinRange last hlast).2⟩
  refine {
    registered := fun input hinput => (hclosed.mem_all h hinput).1
    ids := hids
    newIds := fun output houtput sstable hkept => hnewIds output houtput sstable hkept.1
    fresh := hfresh
    next := hnext
    paths := hpaths
    newPaths := fun output houtput sstable hkept => hnewPaths output houtput sstable hkept.1
    kept := fun sstable hkept => ⟨hold sstable hkept.1, hfiles sstable hkept⟩
    written := ?_
    level := fun a ha b hb => (hlevel a ha).trans (hlevel b hb).symm
    apart := ?_
    outputsApart := ?_
    newer := ?_
    older := ?_ }
  · intro output hmem
    obtain ⟨part, -, ⟨-, hwritten⟩, heq⟩ := exists_left_of_forall₂ hassigned hmem
    rw [heq]
    exact hwritten
  · intro output houtput _ sstable hkept hsame
    have hin := hbounds output houtput
    rcases hclosed.kept_apart h hkept (.inr (hsame.trans (hlevel output houtput))) with hlt | hlt
    · exact .inr (hlt.trans_le hin.1)
    · exact .inl (hin.2.trans_lt hlt)
  · intro _
    have hsorted := hmerges.sorted
    rw [← hparts, KeySorted, List.pairwise_flatten] at hsorted
    refine pairwise_of_forall₂ houtputs hsorted.2 ?_
    intro part part' output output' hR hR' hlt
    obtain ⟨-, ⟨last, hlast, hlastKey⟩⟩ := hR.2.exists_bounds
    obtain ⟨⟨first, hfirst, hfirstKey⟩, -⟩ := hR'.2.exists_bounds
    left
    rw [← hlastKey, ← hfirstKey]
    exact hlt last hlast first hfirst
  · intro output houtput sstable hkept hdeeper key newer older hnewer holder
    rw [hold sstable hkept.1] at holder
    obtain ⟨input, hinput, hfound⟩ := hversion output houtput key newer hnewer
    obtain ⟨hall, hinputLevel⟩ := hclosed.mem_all h hinput
    rw [hlevel output houtput] at hdeeper
    exact h.ordered input hall sstable hkept.1 (by omega) key newer older hfound holder
  · intro output houtput sstable hkept hshallower key newer older hnewer holder
    rw [hold sstable hkept.1] at hnewer
    obtain ⟨input, hinput, hfound⟩ := hversion output houtput key older holder
    obtain ⟨hall, hinputLevel⟩ := hclosed.mem_all h hinput
    rw [hlevel output houtput] at hshallower
    by_cases hsame : sstable.level = level
    · -- a table of the compacted level that stays does not hold the key
      have hkey := hclosed.key_mem h hinput hfound
      obtain ⟨hrecord, hrecordKey⟩ := tableGet_some hnewer
      have hin := (h.written sstable hkept.1).stores.bounds newer hrecord
      rw [hrecordKey] at hin
      rcases hclosed.kept_apart h hkept (.inl hsame) with hlt | hlt
      · exact absurd (hin.2.trans_lt hlt) (not_lt.mpr hkey.1)
      · exact absurd (hlt.trans_le hin.1) (not_lt.mpr hkey.2)
    · exact h.ordered sstable hkept.1 input hall (by omega) key newer older hnewer hfound

end Steps

/-! ### What the tables answer -/

/-- A key and a sequence number determine the version. -/
def Determined (contents : Contents) (levels : Levels) : Prop :=
  ∀ (key : Key) (a b : MemtableRecord), HasVersion contents levels key a →
    HasVersion contents levels key b → a.lsn = b.lsn → a = b

/-- The newest version of a key in the tables. -/
def newest (contents : Contents) (levels : Levels) (key : Key) : Option MemtableRecord :=
  newestIn contents levels.tables key

section Answers
variable {contents contents' : Contents} {levels levels' : Levels} {key : Key}

theorem newest_eq_none_iff :
    newest contents levels key = none ↔ ∀ record, ¬ HasVersion contents levels key record := by
  rw [newest, newestIn, List.argmax_eq_none, List.eq_nil_iff_forall_not_mem]
  simp only [mem_tableVersions_tables]

theorem of_newest_eq_some {record : MemtableRecord} (h : newest contents levels key = some record) :
    HasVersion contents levels key record ∧
      ∀ other, HasVersion contents levels key other → other.lsn ≤ record.lsn := by
  refine ⟨mem_tableVersions_tables.mp (List.argmax_mem h), ?_⟩
  intro other hother
  exact List.le_of_mem_argmax (mem_tableVersions_tables.mpr hother) h

theorem newest_eq_some (hdetermined : Determined contents levels) {record : MemtableRecord}
    (hversion : HasVersion contents levels key record)
    (hmax : ∀ other, HasVersion contents levels key other → other.lsn ≤ record.lsn) :
    newest contents levels key = some record := by
  cases hnewest : newest contents levels key with
  | none => exact absurd hversion (newest_eq_none_iff.mp hnewest record)
  | some best =>
    obtain ⟨hbest, hbestMax⟩ := of_newest_eq_some hnewest
    rw [hdetermined key best record hbest hversion
      (le_antisymm (hmax best hbest) (hbestMax record hversion))]

/-- Tables with the same versions of a key have the same newest one. -/
theorem newest_congr (hdetermined : Determined contents levels)
    (h : ∀ record, HasVersion contents' levels' key record ↔ HasVersion contents levels key record) :
    newest contents' levels' key = newest contents levels key := by
  cases hnewest : newest contents' levels' key with
  | none =>
    refine (newest_eq_none_iff.mpr fun record hversion => ?_).symm
    exact newest_eq_none_iff.mp hnewest record ((h record).mpr hversion)
  | some record =>
    obtain ⟨hversion, hmax⟩ := of_newest_eq_some hnewest
    exact (newest_eq_some hdetermined ((h record).mp hversion)
      fun other hother => hmax other ((h other).mpr hother)).symm

end Answers

section Steps
variable {fastbloom : FastBloom} {files files' : String → Option Bytes}
  {contents contents' : Contents} {levels : Levels} {nextFileId nextFileId' : Nat}
  {inputs outputs : List SSTableMeta}

/-- The versions after a publication: those of the outputs and those of the tables that stay. -/
theorem TableInvariant.hasVersion_publish
    (h : TableInvariant fastbloom files contents levels nextFileId)
    (hstep : PublishStep fastbloom files files' contents contents' levels nextFileId nextFileId'
      inputs outputs) {key : Key} {record : MemtableRecord} :
    HasVersion contents' (levels.publish inputs outputs) key record ↔
      (∃ output ∈ outputs, tableGet (contents' output) key = some record) ∨
        ∃ sstable, Kept levels inputs sstable ∧ tableGet (contents sstable) key = some record := by
  have hmem : ∀ sstable, sstable ∈ (levels.publish inputs outputs).all ↔
      sstable ∈ outputs ∨ Kept levels inputs sstable := fun sstable =>
    h.mem_all_publish hstep.registered hstep.ids hstep.newIds
  constructor
  · rintro ⟨sstable, hsstable, hfound⟩
    rcases (hmem sstable).mp hsstable with hout | hkept
    · exact .inl ⟨sstable, hout, hfound⟩
    · rw [(hstep.kept sstable hkept).1] at hfound
      exact .inr ⟨sstable, hkept, hfound⟩
  · rintro (⟨output, houtput, hfound⟩ | ⟨sstable, hkept, hfound⟩)
    · exact ⟨output, (hmem output).mpr (.inl houtput), hfound⟩
    · rw [← (hstep.kept sstable hkept).1] at hfound
      exact ⟨sstable, (hmem sstable).mpr (.inr hkept), hfound⟩

/-- After a flush the versions are the old ones and the flushed ones. -/
theorem TableInvariant.hasVersion_flush
    (h : TableInvariant fastbloom files contents levels nextFileId) {added : SSTableMeta}
    {records : List MemtableRecord}
    (hstep : PublishStep fastbloom files files' contents (contents.assign [added] [records]) levels
      nextFileId nextFileId' [] [added]) {key : Key} {record : MemtableRecord} :
    HasVersion (contents.assign [added] [records]) (levels.publish [] [added]) key record ↔
      tableGet records key = some record ∨ HasVersion contents levels key record := by
  have hadded : contents.assign [added] [records] added = records := Function.update_self _ _ _
  rw [h.hasVersion_publish hstep]
  refine or_congr ?_ ?_
  · constructor
    · rintro ⟨output, houtput, hfound⟩
      rw [List.mem_singleton.mp houtput, hadded] at hfound
      exact hfound
    · intro hfound
      exact ⟨added, List.mem_singleton_self added, by rw [hadded]; exact hfound⟩
  · constructor
    · rintro ⟨sstable, hkept, hfound⟩
      exact ⟨sstable, hkept.1, hfound⟩
    · rintro ⟨sstable, hmem, hfound⟩
      exact ⟨sstable, ⟨hmem, List.not_mem_nil⟩, hfound⟩

variable {config : StorageConfig} {plan : CompactionPlan} {level : Nat} {range : Key × Key}
  {winners : List MemtableRecord} {parts : List (List MemtableRecord)}

/-- After a compaction the versions are the winners and those of the tables that stay. -/
theorem TableInvariant.hasVersion_compaction
    (h : TableInvariant fastbloom files contents levels nextFileId)
    (hmerges : plan.Merges fastbloom config contents levels winners)
    (hparts : parts.flatten = winners)
    (houtputs : List.Forall₂ (fun part output => output.level = level + 1 ∧
      output.Written fastbloom files' part) parts outputs)
    (hstep : PublishStep fastbloom files files' contents (contents.assign outputs parts) levels
      nextFileId nextFileId' plan.inputs outputs) {key : Key} {record : MemtableRecord} :
    HasVersion (contents.assign outputs parts) (levels.publish plan.inputs outputs) key record ↔
      (record ∈ winners ∧ record.key = key) ∨
        ∃ sstable, Kept levels plan.inputs sstable ∧ tableGet (contents sstable) key = some record := by
  have hassigned := contents.assign_forall₂ hstep.ids houtputs
  rw [h.hasVersion_publish hstep]
  refine or_congr_left ?_
  constructor
  · rintro ⟨output, houtput, hfound⟩
    obtain ⟨part, hpart, -, heq⟩ := exists_left_of_forall₂ hassigned houtput
    rw [heq] at hfound
    obtain ⟨hrecord, hkey⟩ := tableGet_some hfound
    exact ⟨hparts ▸ List.mem_flatten_of_mem hpart hrecord, hkey⟩
  · rintro ⟨hrecord, rfl⟩
    rw [← hparts] at hrecord
    obtain ⟨part, hpart, hrecord⟩ := List.mem_flatten.mp hrecord
    obtain ⟨output, houtput, -, heq⟩ := exists_right_of_forall₂ hassigned hpart
    refine ⟨output, houtput, ?_⟩
    rw [heq]
    refine tableGet_of_mem ?_ hrecord
    have hsorted := hmerges.sorted
    rw [← hparts, KeySorted, List.pairwise_flatten] at hsorted
    exact hsorted.1 part hpart

/-- A compaction changes no answer of the tables. -/
theorem TableInvariant.live_newest_compaction
    (h : TableInvariant fastbloom files contents levels nextFileId)
    (hdetermined : Determined contents levels)
    (hclosed : ClosedInputs levels level plan.inputs range)
    (hmerges : plan.Merges fastbloom config contents levels winners)
    (hparts : parts.flatten = winners)
    (houtputs : List.Forall₂ (fun part output => output.level = level + 1 ∧
      output.Written fastbloom files' part) parts outputs)
    (hstep : PublishStep fastbloom files files' contents (contents.assign outputs parts) levels
      nextFileId nextFileId' plan.inputs outputs) (key : Key) :
    live (newest (contents.assign outputs parts) (levels.publish plan.inputs outputs) key)
      = live (newest contents levels key) := by
  have hiff : ∀ record, HasVersion (contents.assign outputs parts)
      (levels.publish plan.inputs outputs) key record ↔ (record ∈ winners ∧ record.key = key) ∨
        ∃ sstable, Kept levels plan.inputs sstable ∧
          tableGet (contents sstable) key = some record :=
    fun record => h.hasVersion_compaction hmerges hparts houtputs hstep
  -- every old version is one of the inputs or stays
  have hold : ∀ record, HasVersion contents levels key record ↔
      record ∈ tableVersions contents plan.inputs key ∨
        ∃ sstable, Kept levels plan.inputs sstable ∧ tableGet (contents sstable) key = some record := by
    intro record
    constructor
    · rintro ⟨sstable, hmem, hfound⟩
      by_cases hinput : sstable ∈ plan.inputs
      · exact .inl (mem_tableVersions.mpr ⟨sstable, hinput, hfound⟩)
      · exact .inr ⟨sstable, ⟨hmem, hinput⟩, hfound⟩
    · rintro (hinput | ⟨sstable, hkept, hfound⟩)
      · obtain ⟨sstable, hinput, hfound⟩ := mem_tableVersions.mp hinput
        exact ⟨sstable, (hclosed.mem_all h hinput).1, hfound⟩
      · exact ⟨sstable, hkept.1, hfound⟩
  cases hwinner : (tableVersions contents plan.inputs key).argmax MemtableRecord.rank with
  | none =>
    -- no input holds the key
    have hnil := List.argmax_eq_none.mp hwinner
    refine congrArg live (newest_congr hdetermined ?_)
    intro record
    rw [hiff, hold, hnil]
    refine or_congr_left ⟨?_, fun hmem => absurd hmem List.not_mem_nil⟩
    rintro ⟨hrecord, rfl⟩
    have hnewest := hmerges.newest record hrecord
    rw [hwinner] at hnewest
    cases hnewest
  | some winner =>
    have hwinnerMem := List.argmax_mem hwinner
    have hwinnerOld : HasVersion contents levels key winner := (hold winner).mpr (.inl hwinnerMem)
    have hwinnerKey : winner.key = key := by
      obtain ⟨input, -, hfound⟩ := mem_tableVersions.mp hwinnerMem
      exact (tableGet_some hfound).2
    have hinputLe : ∀ record ∈ tableVersions contents plan.inputs key, record.lsn ≤ winner.lsn :=
      fun record hmem => lsn_le_of_rank_le (List.le_of_mem_argmax hmem hwinner)
    rcases hmerges.complete key winner hwinner with hkeep | hreclaimed
    · -- the winner stands for the inputs
      have hnew : ∀ record, HasVersion (contents.assign outputs parts)
          (levels.publish plan.inputs outputs) key record →
            HasVersion contents levels key record := by
        intro record hversion
        rcases (hiff record).mp hversion with ⟨hrecord, hrecordKey⟩ | hkept
        · have hnewest := hmerges.newest record hrecord
          rw [hrecordKey, hwinner] at hnewest
          rw [← Option.some.inj hnewest]
          exact hwinnerOld
        · exact (hold record).mpr (.inr hkept)
      have hwinnerNew := (hiff winner).mpr (.inl ⟨hkeep, hwinnerKey⟩)
      cases hnewest : newest (contents.assign outputs parts)
          (levels.publish plan.inputs outputs) key with
      | none => exact absurd hwinnerNew (newest_eq_none_iff.mp hnewest winner)
      | some best =>
        obtain ⟨hbest, hmax⟩ := of_newest_eq_some hnewest
        rw [newest_eq_some hdetermined (hnew best hbest)]
        intro other hother
        rcases (hold other).mp hother with hinput | hkept
        · exact (hinputLe other hinput).trans (hmax winner hwinnerNew)
        · exact hmax other ((hiff other).mpr (.inr hkept))
    · -- a tombstone goes with everything it covers
      have hnoKept : ∀ sstable, Kept levels plan.inputs sstable →
          tableGet (contents sstable) key = none := by
        intro sstable hkept
        cases hfound : tableGet (contents sstable) key with
        | none => rfl
        | some record =>
          obtain ⟨hrecord, hrecordKey⟩ := tableGet_some hfound
          have hin := (h.written sstable hkept.1).stores.bounds record hrecord
          have hout := hreclaimed.2 sstable hkept.1 fun input hinput hid =>
            hkept.2 (h.fileIds input (hclosed.mem_all h hinput).1 sstable hkept.1 hid ▸ hinput)
          rw [hwinnerKey] at hout
          rw [hrecordKey] at hin
          rcases hout with hlt | hlt
          · exact absurd hin.1 (not_le.mpr hlt)
          · exact absurd hin.2 (not_le.mpr hlt)
      have hbefore : newest contents levels key = some winner := by
        refine newest_eq_some hdetermined hwinnerOld ?_
        intro other hother
        rcases (hold other).mp hother with hinput | ⟨sstable, hkept, hfound⟩
        · exact hinputLe other hinput
        · rw [hnoKept sstable hkept] at hfound
          cases hfound
      have hafter : live (newest (contents.assign outputs parts)
          (levels.publish plan.inputs outputs) key) = none := by
        cases hnewest : newest (contents.assign outputs parts)
            (levels.publish plan.inputs outputs) key with
        | none => rfl
        | some best =>
          rcases (hiff best).mp (of_newest_eq_some hnewest).1 with ⟨hrecord, hbestKey⟩ | hkept
          · have hbest := hmerges.newest best hrecord
            rw [hbestKey, hwinner] at hbest
            rw [← Option.some.inj hbest, live, Option.filter_some, hreclaimed.1]
            rfl
          · obtain ⟨sstable, hkept, hfound⟩ := hkept
            rw [hnoKept sstable hkept] at hfound
            cases hfound
      rw [hafter, hbefore, live, Option.filter_some, hreclaimed.1]
      rfl

end Steps

end CereDB.Storage
