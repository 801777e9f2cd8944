import CereDB.Proofs.LevelSteps

/-!
# `CereDB.Proofs.CompactionStep`: a compaction from its plan to its publication

`CompactionReady` collects what is known once the outputs of a compaction are written: the inputs
are closed, the outputs hold the winners in consecutive parts, and their ids and paths are new.
`planned` gets it from a plan, `mono` keeps it while other tasks write files, and `publish` says
that publishing then keeps the order of the levels and every answer.
-/

set_option autoImplicit false

namespace CereDB.Storage

open CereDB.Lib ReadManager

variable {fastbloom : FastBloom} {config : StorageConfig} {files files' : String → Option Bytes}
  {contents contents' : Contents} {levels : Levels} {nextFileId nextFileId' : Nat}
  {inputs outputs : List SSTableMeta}

theorem TableInvariant.distinct_files
    (h : TableInvariant fastbloom files contents levels nextFileId) (level : Nat) :
    (levels.files level).Pairwise fun a b => a.fileId ≠ b.fileId := by
  have hnodup := h.levelInvariant.fileIds
  rw [List.nodup_iff_pairwise_ne, List.pairwise_map] at hnodup
  exact hnodup.sublist (List.filter_sublist.map Prod.snd)

/-- Files that are added and ids that are handed out do not matter. -/
theorem TableInvariant.mono (h : TableInvariant fastbloom files contents levels nextFileId)
    (hfiles : ∀ name bytes, files name = some bytes → files' name = some bytes)
    (hnext : nextFileId ≤ nextFileId') :
    TableInvariant fastbloom files' contents levels nextFileId' := by
  refine { h with fresh := fun t ht => (h.fresh t ht).trans_le hnext, written := ?_ }
  intro sstable hmem
  obtain ⟨codec, hgood, hrecords, hfile, hrange⟩ := (h.written sstable hmem).file
  exact ⟨⟨codec, hgood, hrecords, hfiles _ _ hfile, hrange⟩, (h.written sstable hmem).recordCount⟩

/-- The file of a table exists. -/
theorem TableInvariant.exists_file (h : TableInvariant fastbloom files contents levels nextFileId)
    {sstable : SSTableMeta} (hmem : sstable ∈ levels.all) :
    ∃ bytes, files sstable.path = some bytes := by
  obtain ⟨codec, -, -, hfile, -⟩ := (h.written sstable hmem).file
  exact ⟨_, hfile⟩

/-- The records of a written table can be stored again. -/
theorem SSTableMeta.Written.storable {sstable : SSTableMeta} {records : List MemtableRecord}
    (h : sstable.Written fastbloom files records) : ∀ record ∈ records, record.Storable := by
  obtain ⟨codec, hgood, rfl, -, -⟩ := h.file
  intro record hrecord
  obtain ⟨block, hblock, hmem⟩ := List.mem_flatMap.mp hrecord
  have hblockGood := hgood.blocks block hblock
  exact ⟨(recordLength_le_recordsSize hmem).trans_lt hblockGood.small, hblockGood.lsn record hmem⟩

/-- A compaction whose outputs are written. -/
structure CompactionReady (fastbloom : FastBloom) (config : StorageConfig)
    (files : String → Option Bytes) (contents : Contents) (levels : Levels) (nextFileId : Nat)
    (inputs outputs : List SSTableMeta) : Prop where
  merge : ∃ (level : Nat) (plan : CompactionPlan) (range : Key × Key)
    (winners : List MemtableRecord) (parts : List (List MemtableRecord)),
    plan.inputs = inputs ∧ ClosedInputs levels level inputs range ∧
      plan.Merges fastbloom config contents levels winners ∧ parts.flatten = winners ∧
      List.Forall₂ (fun part output => output.level = level + 1 ∧
        output.Written fastbloom files part) parts outputs
  ids : outputs.Pairwise fun a b => a.fileId ≠ b.fileId
  newIds : ∀ output ∈ outputs, ∀ sstable ∈ levels.all, output.fileId ≠ sstable.fileId
  fresh : ∀ output ∈ outputs, output.fileId < nextFileId
  paths : outputs.Pairwise fun a b => a.path ≠ b.path
  newPaths : ∀ output ∈ outputs, ∀ sstable ∈ levels.all, output.path ≠ sstable.path

/-- An output whose file is written. -/
def OutputWritten (files : String → Option Bytes) (level : Nat) (codec : SSTableCodec)
    (output : SSTableMeta) : Prop :=
  ∃ fileId encoded footer, codec.serialize = .ok (encoded, footer) ∧
    outputMeta level fileId codec footer = .ok output ∧
    files (tablePath level fileId) = some encoded

/-- The outputs hold the parts they were built from. -/
theorem written_of_outputWritten {level : Nat} {parts : List (List MemtableRecord)}
    {codecs : List SSTableCodec}
    (hsorted : ∀ part ∈ parts, KeySorted part)
    (hstorable : ∀ part ∈ parts, ∀ record ∈ part, record.Storable)
    (hbuild : List.Forall₂ (fun part codec => buildOutput fastbloom part config = .ok codec)
      parts codecs)
    (hwrite : List.Forall₂ (OutputWritten files level) codecs outputs) :
    List.Forall₂ (fun part output => output.level = level ∧
      output.Written fastbloom files part) parts outputs := by
  induction hbuild generalizing outputs with
  | nil =>
    cases hwrite
    exact .nil
  | @cons part codec parts codecs hpart _ ih =>
    cases hwrite with
    | cons hhead hrest =>
      obtain ⟨fileId, encoded, footer, hserialize, hmeta, hfile⟩ := hhead
      obtain ⟨⟨hlevel, -, -⟩, hwritten⟩ := written_outputMeta
        (hsorted part List.mem_cons_self) (hstorable part List.mem_cons_self) hpart hserialize
        hmeta
      exact .cons ⟨hlevel, hwritten files hfile⟩
        (ih (fun p hp => hsorted p (List.mem_cons_of_mem part hp))
          (fun p hp => hstorable p (List.mem_cons_of_mem part hp)) hrest)

namespace CompactionReady

/-- A plan whose outputs are written under new ids and paths. -/
theorem planned (htables : TableInvariant fastbloom files contents levels nextFileId)
    {level : Nat} {plan : CompactionPlan}
    (hplan : planCompaction files fastbloom config levels level = .ok plan)
    (hwrite : List.Forall₂ (OutputWritten files' (level + 1)) plan.outputs outputs)
    (hids : outputs.Pairwise fun a b => a.fileId ≠ b.fileId)
    (hnewIds : ∀ output ∈ outputs, ∀ sstable ∈ levels.all, output.fileId ≠ sstable.fileId)
    (hfresh : ∀ output ∈ outputs, output.fileId < nextFileId')
    (hpaths : outputs.Pairwise fun a b => a.path ≠ b.path)
    (hnewPaths : ∀ output ∈ outputs, ∀ sstable ∈ levels.all, output.path ≠ sstable.path) :
    CompactionReady fastbloom config files' contents levels nextFileId' plan.inputs outputs := by
  obtain ⟨⟨range, hclosed⟩, winners, hmerges⟩ :=
    planCompaction_ok htables.written (htables.distinct_files level) hplan
  obtain ⟨parts, hparts, -, hbuild⟩ := hmerges.parts
  refine {
    merge := ⟨level, plan, range, winners, parts, rfl, hclosed, hmerges, hparts, ?_⟩
    ids := hids, newIds := hnewIds, fresh := hfresh, paths := hpaths, newPaths := hnewPaths }
  refine written_of_outputWritten ?_ ?_ hbuild hwrite
  · have hsorted := hmerges.sorted
    rw [← hparts, KeySorted, List.pairwise_flatten] at hsorted
    exact hsorted.1
  · intro part hpart record hrecord
    obtain ⟨input, hinput, hfound⟩ := hmerges.exists_input
      (hparts ▸ List.mem_flatten_of_mem hpart hrecord)
    exact (htables.written input (hclosed.mem_all htables hinput).1).storable record
      (tableGet_some hfound).1

/-- Files that are added and contents of other tables do not matter. -/
theorem mono (h : CompactionReady fastbloom config files contents levels nextFileId inputs outputs)
    (hfiles : ∀ name bytes, files name = some bytes → files' name = some bytes)
    (hcontents : ∀ sstable ∈ levels.all, contents' sstable = contents sstable)
    (hnext : nextFileId ≤ nextFileId') :
    CompactionReady fastbloom config files' contents' levels nextFileId' inputs outputs := by
  refine { h with merge := ?_, fresh := fun o ho => (h.fresh o ho).trans_le hnext }
  obtain ⟨level, plan, range, winners, parts, hinputs, hclosed, hmerges, hparts, houtputs⟩ := h.merge
  have hall : ∀ input ∈ plan.inputs, input ∈ levels.all := by
    intro input hinput
    rw [hinputs] at hinput
    rcases hclosed.subset input hinput with hin | hin
    · exact mem_all.mpr ⟨level, mem_files.mp hin⟩
    · exact mem_all.mpr ⟨level + 1, mem_files.mp hin⟩
  have hversions : ∀ key, tableVersions contents' plan.inputs key
      = tableVersions contents plan.inputs key := by
    intro key
    exact List.filterMap_congr fun input hinput => by rw [hcontents input (hall input hinput)]
  refine ⟨level, plan, range, winners, parts, hinputs, hclosed, ?_, hparts, ?_⟩
  · exact {
      sorted := hmerges.sorted
      newest := fun winner hwinner => by
        rw [hversions]
        exact hmerges.newest winner hwinner
      complete := fun key winner hwinner => by
        rw [hversions] at hwinner
        exact hmerges.complete key winner hwinner
      parts := hmerges.parts }
  · refine houtputs.imp fun part output hout => ⟨hout.1, ?_⟩
    obtain ⟨codec, hgood, hrecords, hfile, hrange⟩ := hout.2.file
    exact ⟨⟨codec, hgood, hrecords, hfiles _ _ hfile, hrange⟩, hout.2.recordCount⟩

/-- The inputs are tables of the manifest. -/
theorem mem_all
    (h : CompactionReady fastbloom config files contents levels nextFileId inputs outputs)
    {input : SSTableMeta} (hinput : input ∈ inputs) : input ∈ levels.all := by
  obtain ⟨level, plan, range, winners, parts, -, hclosed, -⟩ := h.merge
  rcases hclosed.subset input hinput with hin | hin
  · exact Storage.mem_all.mpr ⟨level, mem_files.mp hin⟩
  · exact Storage.mem_all.mpr ⟨level + 1, mem_files.mp hin⟩

theorem distinct
    (h : CompactionReady fastbloom config files contents levels nextFileId inputs outputs) :
    inputs.Pairwise fun a b => a.fileId ≠ b.fileId := by
  obtain ⟨level, plan, range, winners, parts, -, hclosed, -⟩ := h.merge
  exact hclosed.distinct

/-- Publishing keeps the order of the levels, adds no version and changes no answer. -/
theorem publish
    (h : CompactionReady fastbloom config files contents levels nextFileId inputs outputs)
    (htables : TableInvariant fastbloom files contents levels nextFileId)
    (hdetermined : Determined contents levels) :
    ∃ contents', TableInvariant fastbloom files contents' (levels.publish inputs outputs)
        nextFileId ∧
      (∀ sstable, sstable ∈ (levels.publish inputs outputs).all ↔
        sstable ∈ outputs ∨ Kept levels inputs sstable) ∧
      (∀ key record, HasVersion contents' (levels.publish inputs outputs) key record →
        HasVersion contents levels key record) ∧
      ∀ key, live (newest contents' (levels.publish inputs outputs) key)
        = live (newest contents levels key) := by
  obtain ⟨level, plan, range, winners, parts, rfl, hclosed, hmerges, hparts, houtputs⟩ := h.merge
  have hstep := PublishStep.compaction htables hclosed hmerges hparts houtputs h.ids h.newIds
    h.fresh le_rfl h.paths h.newPaths fun _ _ => rfl
  refine ⟨contents.assign outputs parts, htables.publish hstep, ?_, ?_, ?_⟩
  · intro sstable
    exact htables.mem_all_publish hstep.registered hstep.ids hstep.newIds
  · intro key record hversion
    rcases (htables.hasVersion_compaction hmerges hparts houtputs hstep).mp hversion with
      ⟨hwinner, rfl⟩ | ⟨sstable, hkept, hfound⟩
    · obtain ⟨input, hinput, hfound⟩ := hmerges.exists_input hwinner
      exact ⟨input, (hclosed.mem_all htables hinput).1, hfound⟩
    · exact ⟨sstable, hkept.1, hfound⟩
  · exact htables.live_newest_compaction hdetermined hclosed hmerges hparts houtputs hstep

/-- A removed input shares its file with no table that is left. -/
theorem path_ne
    (h : CompactionReady fastbloom config files contents levels nextFileId inputs outputs)
    (htables : TableInvariant fastbloom files contents levels nextFileId) {input : SSTableMeta}
    (hinput : input ∈ inputs) {sstable : SSTableMeta}
    (hsstable : sstable ∈ outputs ∨ Kept levels inputs sstable) : input.path ≠ sstable.path := by
  rcases hsstable with hout | hkept
  · exact (h.newPaths sstable hout input (h.mem_all hinput)).symm
  · intro heq
    exact hkept.2 (htables.paths input (h.mem_all hinput) sstable hkept.1 heq ▸ hinput)

end CompactionReady

end CereDB.Storage
