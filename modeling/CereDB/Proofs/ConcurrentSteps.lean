import CereDB.Proofs.CompactionStep
import CereDB.Proofs.StoreReads
import CereDB.Storage.Concurrent

/-!
# `CereDB.Proofs.ConcurrentSteps`: what the tasks of an engine keep

`Engine.Invariant` holds in every state a run passes through: the tables are in order, the memtable
and the tables hold the log, and each task is where its phase says. `Engine.Change` is what a step of
another task means for a read in progress. The published commands stay. The files stay while the
lease is held. A published entry leaves the memtable only when the tables answer for its key with the
current value, and an answer of the tables changes only to the current value.

Each event has a lemma that gives both, and `Invariant.next` puts them together.
-/

set_option autoImplicit false

namespace CereDB.Storage

open CereDB.Lib ReadManager

/-- The value of a key at an instant: what the published commands leave. -/
def Engine.value (engine : Engine) (key : Key) : Option Bytes :=
  (commandMap (publishedCommands engine.log engine.sequenceNumber))[key]?

theorem Engine.value_eq (engine : Engine) (key : Key) :
    engine.value key = publishedValue engine.log engine.sequenceNumber key :=
  get?_commandMap_published engine.log engine.sequenceNumber key

/-! ### The phases -/

section Phases
variable (fastbloom : FastBloom) (config : StorageConfig) (contents : Contents)

/-- What the holder of the writer lock relies on. While a flush holds it, everything logged is
published. -/
def WriterPhase.Ok (log : List LogCommand) (sequenceNumber : Nat) (memtable : Memtable)
    (levels : Levels) : WriterPhase → Prop
  | .free => ∀ command ∈ log, command.lsn ≤ sequenceNumber
  | .publishing pending nextLsn =>
    (∃ inserted, log = inserted ++ pending ∧
      ∀ command ∈ inserted, sequenceNumber < command.lsn → memtable.Holds command) ∧
    (∀ command ∈ pending, sequenceNumber < command.lsn) ∧
    (∀ command ∈ log, command.lsn ≤ nextLsn) ∧ sequenceNumber ≤ nextLsn ∧ nextLsn < u64Limit
  | .flushing snapshot table =>
    (∀ command ∈ log, command.lsn ≤ sequenceNumber) ∧ memtable = snapshot ∧
      flushTable fastbloom config snapshot = .ok table
  | .registered snapshot =>
    (∀ command ∈ log, command.lsn ≤ sequenceNumber) ∧ memtable = snapshot ∧
      ∀ entry, memtable.contains entry →
        tableAnswer contents levels (ofLex entry).1
          = publishedValue log sequenceNumber (ofLex entry).1
  | .removing snapshot entries =>
    (∀ command ∈ log, command.lsn ≤ sequenceNumber) ∧ entries.Pairwise (· < ·) ∧
      (∀ entry, memtable.contains entry ↔ entry ∈ entries) ∧
      ∀ entry ∈ entries,
        tableAnswer contents levels (ofLex entry).1
          = publishedValue log sequenceNumber (ofLex entry).1 ∧
        ∃ command, latest log sequenceNumber (ofLex entry).1 = some command ∧
          snapshot.contains (toLex (command.key, command.lsn))

/-- What a compaction relies on. -/
def CompactionPhase.Ok (files : OrdMap String Bytes) (levels : Levels) (nextFileId : Nat) :
    CompactionPhase → Prop
  | .idle => True
  | .merged expected inputs outputs =>
    CompactionReady fastbloom config (files[·]?) contents expected nextFileId inputs outputs ∧
      ∀ sstable ∈ expected.all, sstable.fileId < nextFileId
  | .deleting inputs =>
    (inputs.Pairwise fun a b => a.path ≠ b.path) ∧
      ∀ input ∈ inputs, (∃ bytes, files[input.path]? = some bytes) ∧
        ∀ sstable ∈ levels.all, input.path ≠ sstable.path

end Phases

/-- What every state of a run satisfies. -/
structure Engine.Invariant (fastbloom : FastBloom) (config : StorageConfig) (contents : Contents)
    (engine : Engine) : Prop where
  tables : TableInvariant fastbloom (engine.files[·]?) contents engine.levels engine.nextFileId
  store : StoreInvariant contents engine.log engine.sequenceNumber engine.memtable engine.levels
  sequence : engine.sequenceNumber < u64Limit
  writer : engine.writer.Ok fastbloom config contents engine.log engine.sequenceNumber
    engine.memtable engine.levels
  compaction : engine.compaction.Ok fastbloom config contents engine.files engine.levels
    engine.nextFileId
  lease : engine.leaseHeld = true → engine.publicationHeld = false

/-- What a step of another task means for a read. -/
structure Engine.Change (contents contents' : Contents) (engine engine' : Engine) : Prop where
  reader : engine'.reader = engine.reader
  sequence : engine.sequenceNumber ≤ engine'.sequenceNumber
  log : ∃ extra, engine'.log = engine.log ++ extra ∧
    ∀ command ∈ extra, engine.sequenceNumber < command.lsn
  files : engine.leaseHeld = true → ∀ (name : String) (bytes : Bytes),
    engine.files[name]? = some bytes → engine'.files[name]? = some bytes
  answers : ∀ key, tableAnswer contents' engine'.levels key = tableAnswer contents engine.levels key ∨
    tableAnswer contents' engine'.levels key = engine.value key
  kept : ∀ command, command.lsn ≤ engine.sequenceNumber → engine.memtable.Holds command →
    engine'.memtable.Holds command ∨
      tableAnswer contents' engine'.levels command.key = engine.value command.key

namespace Engine

variable {fastbloom : FastBloom} {config : StorageConfig} {contents : Contents}
  {engine engine' : Engine}

/-- A step that only touches files and phases. -/
theorem Change.of_files (hreader : engine'.reader = engine.reader)
    (hsequence : engine'.sequenceNumber = engine.sequenceNumber)
    (hlog : engine'.log = engine.log) (hmemtable : engine'.memtable = engine.memtable)
    (hlevels : engine'.levels = engine.levels)
    (hfiles : engine.leaseHeld = true → ∀ (name : String) (bytes : Bytes),
      engine.files[name]? = some bytes → engine'.files[name]? = some bytes) :
    Change contents contents engine engine' where
  reader := hreader
  sequence := hsequence.ge
  log := ⟨[], by rw [hlog, List.append_nil], fun _ hmem => absurd hmem List.not_mem_nil⟩
  files := hfiles
  answers := fun key => .inl (by rw [hlevels])
  kept := fun command _ hholds => .inl (by rw [hmemtable]; exact hholds)

/-! ### The writer lock -/

theorem Invariant.beginGroup (h : engine.Invariant fastbloom config contents)
    {requests : List (List BatchOperation)} (hnext : engine.beginGroup requests = some engine') :
    engine'.Invariant fastbloom config contents ∧ Change contents contents engine engine' := by
  have hwriter := h.writer
  rw [Engine.beginGroup] at hnext
  split at hnext
  · rename_i hfree
    rw [hfree] at hwriter
    split at hnext
    · rename_i hadmissible
      split at hnext
      · rename_i groups nextLsn hbuild
        obtain rfl := Option.some.inj hnext
        obtain ⟨hgroups, hlast, hlimit⟩ := buildGroups_ok hbuild
        have hlsn : ∀ command ∈ groups.flatten, engine.sequenceNumber < command.lsn ∧
            command.lsn ≤ nextLsn ∧ command.record.Storable := by
          intro command hmem
          rw [hgroups] at hmem
          obtain ⟨hlt, hle, operation, hoperation, heq⟩ := lsn_numbered hmem
          refine ⟨hlt, hlast ▸ hle, ?_⟩
          obtain ⟨request, hrequest, hin⟩ := List.mem_flatten.mp hoperation
          have hvalid := List.all_eq_true.mp hadmissible request hrequest
          rw [admissible, Bool.and_eq_true] at hvalid
          cases hbatch : validateBatch request with
          | error e =>
            rw [hbatch] at hvalid
            exact absurd hvalid.2 Bool.false_ne_true
          | ok bytes =>
            rw [heq]
            refine storable_toCommand (validateBatch_ok hbatch operation hin) ?_
            have := hlimit h.sequence
            omega
        refine ⟨{ h with store := ?_, writer := ?_ }, ?_⟩
        · refine h.store.log_append hwriter ?_ (fun c hc => (hlsn c hc).2.2)
            fun c hc => (hlsn c hc).1
          rw [hgroups]
          exact lsnSorted_numbered _ _
        · refine ⟨⟨engine.log, rfl, ?_⟩, fun c hc => (hlsn c hc).1, ?_, ?_, hlimit h.sequence⟩
          · intro command hmem hlt
            exact absurd (hwriter command hmem) (not_le.mpr hlt)
          · intro command hmem
            rcases List.mem_append.mp hmem with hold | hnew
            · rw [hlast]
              exact (hwriter command hold).trans (Nat.le_add_right _ _)
            · exact (hlsn command hnew).2.1
          · rw [hlast]
            exact Nat.le_add_right _ _
        · exact {
            reader := rfl
            sequence := le_rfl
            log := ⟨groups.flatten, rfl, fun c hc => (hlsn c hc).1⟩
            files := fun _ _ _ hfile => hfile
            answers := fun _ => .inl rfl
            kept := fun _ _ hholds => .inl hholds }
      · cases hnext
    · cases hnext
  · cases hnext

theorem Invariant.insertNext (h : engine.Invariant fastbloom config contents)
    (hnext : engine.insertNext = some engine') :
    engine'.Invariant fastbloom config contents ∧ Change contents contents engine engine' := by
  have hwriter := h.writer
  rw [Engine.insertNext] at hnext
  split at hnext
  · rename_i command pending nextLsn hphase
    obtain rfl := Option.some.inj hnext
    rw [hphase] at hwriter
    obtain ⟨⟨inserted, hlog, hholds⟩, hpending, hbound, hle, hlimit⟩ := hwriter
    have hmem : command ∈ engine.log := by
      rw [hlog]
      exact List.mem_append_right inserted List.mem_cons_self
    have hlsn := hpending command List.mem_cons_self
    -- the insertion does not touch the other commands
    have hkeep : ∀ other ∈ engine.log, engine.memtable.Holds other →
        (engine.memtable.append command.key command.value command.recordType command.lsn).Holds
          other := by
      intro other hother hold
      rw [StoreInvariant.holds_append]
      split
      · rename_i hsame
        rw [h.store.sorted.eq_of_lsn hmem hother hsame.2]
      · exact hold
    refine ⟨{ h with store := h.store.insert hmem hlsn, writer := ?_ }, ?_⟩
    · refine ⟨⟨inserted ++ [command], ?_, ?_⟩,
        fun c hc => hpending c (List.mem_cons_of_mem command hc), hbound, hle, hlimit⟩
      · rw [List.append_assoc]
        exact hlog
      · intro other hother hlt
        rcases List.mem_append.mp hother with hin | hnew
        · refine hkeep other ?_ (hholds other hin hlt)
          rw [hlog]
          exact List.mem_append_left _ hin
        · obtain rfl := List.mem_singleton.mp hnew
          rw [StoreInvariant.holds_append, if_pos ⟨rfl, rfl⟩]
    · refine {
        reader := rfl
        sequence := le_rfl
        log := ⟨[], (List.append_nil _).symm, fun _ hc => absurd hc List.not_mem_nil⟩
        files := fun _ _ _ hfile => hfile
        answers := fun _ => .inl rfl
        kept := ?_ }
      intro other hotherLe hold
      left
      rw [StoreInvariant.holds_append, if_neg]
      · exact hold
      · rintro ⟨-, heq⟩
        omega
  · cases hnext

theorem Invariant.storeSequence (h : engine.Invariant fastbloom config contents)
    (hnext : engine.storeSequence = some engine') :
    engine'.Invariant fastbloom config contents ∧ Change contents contents engine engine' := by
  have hwriter := h.writer
  rw [Engine.storeSequence] at hnext
  split at hnext
  · rename_i nextLsn hphase
    obtain rfl := Option.some.inj hnext
    rw [hphase] at hwriter
    obtain ⟨⟨inserted, hlog, hholds⟩, -, hbound, hle, hlimit⟩ := hwriter
    rw [List.append_nil] at hlog
    refine ⟨{ h with
      store := h.store.publish hle fun c hc hlt => hholds c (hlog ▸ hc) hlt
      sequence := hlimit
      writer := hbound }, ?_⟩
    exact {
      reader := rfl
      sequence := hle
      log := ⟨[], (List.append_nil _).symm, fun _ hc => absurd hc List.not_mem_nil⟩
      files := fun _ _ _ hfile => hfile
      answers := fun _ => .inl rfl
      kept := fun _ _ hold => .inl hold }
  · cases hnext

theorem Invariant.beginFlush (h : engine.Invariant fastbloom config contents)
    (hnext : engine.beginFlush fastbloom config = some engine') :
    engine'.Invariant fastbloom config contents ∧ Change contents contents engine engine' := by
  have hwriter := h.writer
  rw [Engine.beginFlush] at hnext
  split at hnext
  · rename_i hphase
    rw [hphase] at hwriter
    split at hnext
    · rename_i table htable
      obtain rfl := Option.some.inj hnext
      exact ⟨{ h with writer := ⟨hwriter, rfl, htable⟩ },
        Change.of_files rfl rfl rfl rfl rfl fun _ _ _ hfile => hfile⟩
    · cases hnext
  · cases hnext

/-- What a successful allocation says about the new id and path. -/
theorem of_allocates {files : OrdMap String Bytes} {level nextFileId fileId : Nat}
    (h : allocates files level nextFileId fileId = true) :
    nextFileId ≤ fileId ∧ files[tablePath level fileId]? = none := by
  rw [allocates, Bool.and_eq_true, Bool.and_eq_true, Bool.and_eq_true, decide_eq_true_iff,
    Bool.not_eq_true', Std.ExtTreeMap.contains_eq_isSome_getElem?, Option.isSome_eq_false_iff,
    Option.isNone_iff_eq_none] at h
  exact ⟨h.1.1.1, h.1.2⟩

/-- A file at a new path hides no other. -/
theorem get?_insert_new {files : OrdMap String Bytes} {path : String} {bytes : Bytes}
    (hnew : files[path]? = none) {name : String} {found : Bytes} (h : files[name]? = some found) :
    (files.insert path bytes)[name]? = some found := by
  rw [OrdMap.get?_insert, if_neg]
  · exact h
  · rintro rfl
    rw [hnew] at h
    cases h

/-- A compaction does not see a file at a new path, nor a table behind it. -/
theorem compaction_insert_new {files : OrdMap String Bytes} {levels : Levels}
    {nextFileId nextFileId' : Nat} {path : String} {bytes : Bytes} {phase : CompactionPhase}
    {contents' : Contents} {levels' : Levels}
    (h : phase.Ok fastbloom config contents files levels nextFileId)
    (hnew : files[path]? = none) (hnext : nextFileId ≤ nextFileId')
    (hcontents : ∀ sstable : SSTableMeta, sstable.fileId < nextFileId →
      contents' sstable = contents sstable)
    (hlevels : ∀ sstable ∈ levels'.all, sstable ∈ levels.all ∨ sstable.path = path) :
    phase.Ok fastbloom config contents' (files.insert path bytes) levels' nextFileId' := by
  cases phase with
  | idle => exact trivial
  | merged expected inputs outputs =>
    exact ⟨h.1.mono (fun _ _ hfile => get?_insert_new hnew hfile)
      (fun t ht => hcontents t (h.2 t ht)) hnext, fun t ht => (h.2 t ht).trans_le hnext⟩
  | deleting inputs =>
    refine ⟨h.1, ?_⟩
    intro input hinput
    obtain ⟨⟨found, hfile⟩, hother⟩ := h.2 input hinput
    refine ⟨⟨found, get?_insert_new hnew hfile⟩, ?_⟩
    intro sstable hmem
    rcases hlevels sstable hmem with hold | hpath
    · exact hother sstable hold
    · intro heq
      rw [heq, hpath, hnew] at hfile
      cases hfile

/-- The registration of the table a flush built from the memtable. -/
theorem publishStep_register (h : engine.Invariant fastbloom config contents)
    (hpublished : ∀ command ∈ engine.log, command.lsn ≤ engine.sequenceNumber)
    {table : FlushTable} (htable : flushTable fastbloom config engine.memtable = .ok table)
    {fileId : Nat} (hallocates : allocates engine.files 0 engine.nextFileId fileId = true) :
    PublishStep fastbloom (engine.files[·]?)
      ((engine.files.insert (tablePath 0 fileId) table.encoded)[·]?) contents
      (contents.assign [flushMeta fileId table] [flushRecords engine.memtable]) engine.levels
      engine.nextFileId (fileId + 1) [] [flushMeta fileId table] := by
  obtain ⟨hid, hnew⟩ := of_allocates hallocates
  have hpath : ∀ sstable ∈ engine.levels.all, tablePath 0 fileId ≠ sstable.path := by
    intro sstable hmem heq
    obtain ⟨bytes, hfile⟩ := h.tables.exists_file hmem
    rw [← heq] at hfile
    exact Option.some_ne_none bytes (hfile.symm.trans hnew)
  refine PublishStep.flush rfl ?_ (Nat.lt_succ_self fileId) (hid.trans (Nat.le_succ fileId)) hpath
    ?_ ?_ ?_
  · intro sstable hmem
    exact (lt_of_lt_of_le (h.tables.fresh sstable hmem) hid).ne'
  · intro sstable hmem
    show (engine.files.insert (tablePath 0 fileId) table.encoded)[sstable.path]? = _
    rw [OrdMap.get?_insert, if_neg (hpath sstable hmem)]
  · refine written_flushMeta (h.store.storable_flushRecords hpublished) htable ?_
    show (engine.files.insert (tablePath 0 fileId) table.encoded)[tablePath 0 fileId]? = _
    rw [OrdMap.get?_insert, if_pos rfl]
  · exact h.store.flush_newest hpublished

theorem Invariant.registerTable (h : engine.Invariant fastbloom config contents) {fileId : Nat}
    (hnext : engine.registerTable fileId = some engine') :
    ∃ contents', engine'.Invariant fastbloom config contents' ∧
      Change contents contents' engine engine' ∧
      ∀ key record, HasVersion contents' engine'.levels key record ↔
        tableGet (flushRecords engine.memtable) key = some record ∨
          HasVersion contents engine.levels key record := by
  have hwriter := h.writer
  rw [Engine.registerTable] at hnext
  split at hnext
  · rename_i snapshot table hphase
    rw [hphase] at hwriter
    obtain ⟨hpublished, rfl, htable⟩ := hwriter
    split at hnext
    · rename_i hallocates
      obtain rfl := Option.some.inj hnext
      obtain ⟨hid, hnew⟩ := of_allocates hallocates
      have hstep := publishStep_register h hpublished htable hallocates
      have hanswer := fun key => h.store.answer_register h.tables hpublished hstep key
      refine ⟨_, {
        tables := h.tables.publish hstep
        store := h.store.register h.tables hpublished hstep
        sequence := h.sequence
        writer := ⟨hpublished, rfl, ?_⟩
        compaction := ?_
        lease := h.lease }, ?_, fun _ _ => h.tables.hasVersion_flush hstep⟩
      · intro entry hentry
        rw [Std.ExtTreeMap.contains_eq_isSome_getElem?] at hentry
        obtain ⟨found, hget⟩ := Option.isSome_iff_exists.mp hentry
        exact h.store.answer_of_register h.tables hpublished hstep hget
      · refine compaction_insert_new h.compaction hnew (hid.trans (Nat.le_succ fileId)) ?_ ?_
        · intro sstable hlt
          refine contents.assign_of_not_mem _ ?_
          intro hmem
          rw [List.mem_singleton.mp hmem] at hlt
          exact absurd hid (not_le.mpr hlt)
        · intro sstable hmem
          rcases (h.tables.mem_all_publish hstep.registered hstep.ids hstep.newIds).mp hmem with
            hadded | hkept
          · rw [List.mem_singleton.mp hadded]
            exact .inr rfl
          · exact .inl hkept.1
      · refine {
          reader := rfl
          sequence := le_rfl
          log := ⟨[], (List.append_nil _).symm, fun _ hc => absurd hc List.not_mem_nil⟩
          files := fun _ _ _ hfile => get?_insert_new hnew hfile
          answers := ?_
          kept := fun _ _ hholds => .inl hholds }
        intro key
        rw [value_eq]
        show answer (newest _ (engine.levels.publish [] [flushMeta fileId table]) key) = _ ∨
          answer (newest _ (engine.levels.publish [] [flushMeta fileId table]) key) = _
        rw [hanswer]
        cases hflushed : tableGet (flushRecords engine.memtable) key with
        | none => exact .inl rfl
        | some record =>
          obtain ⟨command, hlatest, -, rfl⟩ := h.store.tableGet_flushRecords hpublished hflushed
          right
          rw [publishedValue, hlatest]
          exact answer_record command
    · cases hnext
  · cases hnext

theorem Invariant.commitFlush (h : engine.Invariant fastbloom config contents)
    (hnext : engine.commitFlush = some engine') :
    engine'.Invariant fastbloom config contents ∧ Change contents contents engine engine' := by
  have hwriter := h.writer
  rw [Engine.commitFlush] at hnext
  split at hnext
  · rename_i snapshot hphase
    obtain rfl := Option.some.inj hnext
    rw [hphase] at hwriter
    obtain ⟨hpublished, rfl, hanswers⟩ := hwriter
    have hmemEntries : ∀ entry, engine.memtable.contains entry ↔
        entry ∈ engine.memtable.toList.map Prod.fst := by
      intro entry
      rw [Std.ExtTreeMap.contains_eq_isSome_getElem?, Option.isSome_iff_exists, List.mem_map]
      constructor
      · rintro ⟨found, hget⟩
        exact ⟨(entry, found), (OrdMap.mem_toList_iff _ _ _).mpr hget, rfl⟩
      · rintro ⟨⟨_, found⟩, hlisted, rfl⟩
        exact ⟨found, (OrdMap.mem_toList_iff _ _ _).mp hlisted⟩
    refine ⟨{ h with writer := ⟨hpublished, ?_, hmemEntries, ?_⟩ },
      Change.of_files rfl rfl rfl rfl rfl fun _ _ _ hfile => hfile⟩
    · rw [List.pairwise_map]
      exact OrdMap.sorted_toList engine.memtable
    · intro entry hentry
      have hcontains := (hmemEntries entry).mpr hentry
      refine ⟨hanswers entry hcontains, ?_⟩
      -- the newest version is in the memtable as well, which is closed upwards
      rw [Std.ExtTreeMap.contains_eq_isSome_getElem?] at hcontains
      obtain ⟨found, hget⟩ := Option.isSome_iff_exists.mp hcontains
      obtain ⟨record, hrecord⟩ := exists_tableGet_flushRecords
        (show engine.memtable[toLex ((ofLex entry).1, (ofLex entry).2)]? = some found from hget)
      obtain ⟨command, hlatest, hholds, -⟩ := h.store.tableGet_flushRecords hpublished hrecord
      refine ⟨command, hlatest, ?_⟩
      rw [Std.ExtTreeMap.contains_eq_isSome_getElem?]
      exact Option.isSome_iff_exists.mpr ⟨_, hholds⟩
  · cases hnext

theorem Invariant.abortFlush (h : engine.Invariant fastbloom config contents)
    (hnext : engine.abortFlush = some engine') :
    engine'.Invariant fastbloom config contents ∧ Change contents contents engine engine' := by
  have hwriter := h.writer
  have hpublished : ∀ command ∈ engine.log, command.lsn ≤ engine.sequenceNumber := by
    rw [Engine.abortFlush] at hnext
    split at hnext
    · rename_i hphase
      rw [hphase] at hwriter
      exact hwriter.1
    · rename_i hphase
      rw [hphase] at hwriter
      exact hwriter.1
    · cases hnext
  have hengine : engine' = { engine with writer := .free } := by
    rw [Engine.abortFlush] at hnext
    split at hnext
    · exact (Option.some.inj hnext).symm
    · exact (Option.some.inj hnext).symm
    · cases hnext
  rw [hengine]
  exact ⟨{ h with writer := hpublished },
    Change.of_files rfl rfl rfl rfl rfl fun _ _ _ hfile => hfile⟩

theorem Invariant.removeNext (h : engine.Invariant fastbloom config contents)
    (hnext : engine.removeNext = some engine') :
    engine'.Invariant fastbloom config contents ∧ Change contents contents engine engine' := by
  have hwriter := h.writer
  rw [Engine.removeNext] at hnext
  split at hnext
  · rename_i snapshot entry entries hphase
    obtain rfl := Option.some.inj hnext
    rw [hphase] at hwriter
    obtain ⟨hpublished, hsorted, hentries, hanswers⟩ := hwriter
    obtain ⟨hhead, htail⟩ := List.pairwise_cons.mp hsorted
    have hanswer := (hanswers entry List.mem_cons_self).1
    have hfirst : ∀ other, engine.memtable.contains other → entry ≤ other := by
      intro other hother
      rcases List.mem_cons.mp ((hentries other).mp hother) with rfl | hin
      · exact le_rfl
      · exact (hhead other hin).le
    refine ⟨{ h with
      store := h.store.remove hfirst hanswer
      writer := ⟨hpublished, htail, ?_, fun e he => hanswers e (List.mem_cons_of_mem entry he)⟩ },
      ?_⟩
    · intro other
      rw [Std.ExtTreeMap.contains_erase, Bool.and_eq_true, hentries, List.mem_cons, bne_iff_ne,
        ne_eq, compare_eq_iff_eq]
      constructor
      · rintro ⟨hne, heq | hin⟩
        · exact absurd heq.symm hne
        · exact hin
      · intro hin
        exact ⟨(hhead other hin).ne, .inr hin⟩
    · refine {
        reader := rfl
        sequence := le_rfl
        log := ⟨[], (List.append_nil _).symm, fun _ hc => absurd hc List.not_mem_nil⟩
        files := fun _ _ _ hfile => hfile
        answers := fun _ => .inl rfl
        kept := ?_ }
      intro command _ hholds
      by_cases heq : entry = toLex (command.key, command.lsn)
      · right
        rw [heq] at hanswer
        rw [value_eq]
        exact hanswer
      · exact .inl (StoreInvariant.holds_erase.mpr ⟨heq, hholds⟩)
  · cases hnext

theorem Invariant.endFlush (h : engine.Invariant fastbloom config contents)
    (hnext : engine.endFlush = some engine') :
    engine'.Invariant fastbloom config contents ∧ Change contents contents engine engine' := by
  have hwriter := h.writer
  rw [Engine.endFlush] at hnext
  split at hnext
  · rename_i snapshot hphase
    obtain rfl := Option.some.inj hnext
    rw [hphase] at hwriter
    exact ⟨{ h with writer := hwriter.1 },
      Change.of_files rfl rfl rfl rfl rfl fun _ _ _ hfile => hfile⟩
  · cases hnext

/-! ### The compaction -/

theorem of_outputMeta {level fileId : Nat} {codec : SSTableCodec} {footer : SSTableFooter}
    {output : SSTableMeta} (h : outputMeta level fileId codec footer = .ok output) :
    output.fileId = fileId ∧ output.path = tablePath level fileId := by
  rw [outputMeta] at h
  split at h
  · cases h
  · obtain rfl := Except.ok.inj h
    exact ⟨rfl, rfl⟩

/-- The outputs are written under new ids and paths, and the other files stay. -/
theorem writeOutputs_ok {level : Nat} {codecs : List SSTableCodec} {fileIds : List Nat}
    {files files' : OrdMap String Bytes} {nextFileId nextFileId' : Nat}
    {outputs : List SSTableMeta}
    (h : writeOutputs level codecs fileIds (files, nextFileId)
      = some (outputs, files', nextFileId')) :
    List.Forall₂ (OutputWritten (files'[·]?) level) codecs outputs ∧
      (∀ (name : String) (bytes : Bytes), files[name]? = some bytes →
        files'[name]? = some bytes) ∧
      nextFileId ≤ nextFileId' ∧
      (∀ output ∈ outputs, nextFileId ≤ output.fileId ∧ output.fileId < nextFileId' ∧
        files[output.path]? = none) ∧
      (outputs.Pairwise fun a b => a.fileId ≠ b.fileId) ∧
      outputs.Pairwise fun a b => a.path ≠ b.path := by
  induction codecs generalizing fileIds files nextFileId outputs with
  | nil =>
    cases fileIds with
    | nil =>
      obtain ⟨rfl, hrest⟩ := Prod.mk.inj (Option.some.inj h)
      obtain ⟨rfl, rfl⟩ := Prod.mk.inj hrest
      exact ⟨.nil, fun _ _ hfile => hfile, le_rfl, fun _ hmem => absurd hmem List.not_mem_nil,
        .nil, .nil⟩
    | cons fileId fileIds => cases h
  | cons codec codecs ih =>
    cases fileIds with
    | nil => cases h
    | cons fileId fileIds =>
      rw [writeOutputs] at h
      split at h
      · rename_i hallocates
        obtain ⟨hid, hnew⟩ := of_allocates hallocates
        split at h
        · rename_i encoded footer hserialize
          split at h
          · rename_i output hmeta
            obtain ⟨⟨rest, rest'⟩, hrest, h⟩ := Option.bind_eq_some_iff.mp h
            obtain ⟨rfl, hpair⟩ := Prod.mk.inj (Option.some.inj h)
            subst hpair
            obtain ⟨hwrite, hfiles, hnext, hfresh, hids, hpaths⟩ := ih hrest
            obtain ⟨hfileId, hpath⟩ := of_outputMeta hmeta
            have hhere : (files.insert (tablePath level fileId) encoded)[
                tablePath level fileId]? = some encoded := by
              rw [OrdMap.get?_insert, if_pos rfl]
            -- the later paths are absent from the files that hold the first one
            have hlater : ∀ other ∈ rest, tablePath level fileId ≠ other.path ∧
                files[other.path]? = none := by
              intro other hother
              have habsent := (hfresh other hother).2.2
              rw [OrdMap.get?_insert] at habsent
              split at habsent
              · cases habsent
              · rename_i hne
                exact ⟨hne, habsent⟩
            refine ⟨.cons ⟨fileId, encoded, footer, hserialize, hmeta, hfiles _ _ hhere⟩ hwrite,
              fun name bytes hfile => hfiles name bytes (get?_insert_new hnew hfile),
              (hid.trans (Nat.le_succ fileId)).trans hnext, ?_,
              List.pairwise_cons.mpr ⟨?_, hids⟩, List.pairwise_cons.mpr ⟨?_, hpaths⟩⟩
            · intro other hother
              rcases List.mem_cons.mp hother with rfl | hother
              · rw [hfileId, hpath]
                exact ⟨hid, hnext, hnew⟩
              · exact ⟨(hid.trans (Nat.le_succ fileId)).trans (hfresh other hother).1,
                  (hfresh other hother).2.1, (hlater other hother).2⟩
            · intro other hother
              rw [hfileId]
              exact (Nat.lt_of_succ_le (hfresh other hother).1).ne
            · intro other hother
              rw [hpath]
              exact (hlater other hother).1
          · cases h
        · cases h
      · cases h

theorem Invariant.beginCompaction (h : engine.Invariant fastbloom config contents) {level : Nat}
    {fileIds : List Nat}
    (hnext : engine.beginCompaction fastbloom config level fileIds = some engine') :
    engine'.Invariant fastbloom config contents ∧ Change contents contents engine engine' := by
  rw [Engine.beginCompaction] at hnext
  split at hnext
  · rename_i hphase
    split at hnext
    · rename_i plan hplan
      obtain ⟨⟨outputs, files, nextFileId⟩, hwrite, hnext⟩ := Option.bind_eq_some_iff.mp hnext
      obtain rfl := Option.some.inj hnext
      obtain ⟨hwritten, hfiles, hle, hfresh, hids, hpaths⟩ := writeOutputs_ok hwrite
      refine ⟨{ h with
        tables := h.tables.mono hfiles hle
        compaction := ⟨CompactionReady.planned h.tables hplan hwritten hids ?_
          (fun o ho => (hfresh o ho).2.1) hpaths ?_,
          fun t ht => (h.tables.fresh t ht).trans_le hle⟩
        lease := fun _ => rfl }, Change.of_files rfl rfl rfl rfl rfl fun _ => hfiles⟩
      · intro output houtput sstable hmem
        exact (lt_of_lt_of_le (h.tables.fresh sstable hmem) (hfresh output houtput).1).ne'
      · intro output houtput sstable hmem heq
        obtain ⟨bytes, hfile⟩ := h.tables.exists_file hmem
        rw [← heq] at hfile
        exact Option.some_ne_none bytes (hfile.symm.trans (hfresh output houtput).2.2)
    · cases hnext
  · cases hnext

/-- Levels with the same entries are equal. -/
theorem eq_of_toList {levels expected : Levels} (h : levels.toList = expected.toList) :
    levels = expected := by
  refine OrdMap.ext fun place => ?_
  apply Option.ext
  intro sstable
  rw [← OrdMap.mem_toList_iff, h, OrdMap.mem_toList_iff]

theorem Invariant.publishCompaction (h : engine.Invariant fastbloom config contents)
    (hnext : engine.publishCompaction = some engine') :
    ∃ contents', engine'.Invariant fastbloom config contents' ∧
      Change contents contents' engine engine' := by
  have hcompaction := h.compaction
  have hwriter := h.writer
  rw [Engine.publishCompaction] at hnext
  split at hnext
  · rename_i expected inputs outputs hphase
    rw [hphase] at hcompaction
    split at hnext
    · rename_i hguard
      obtain rfl := Option.some.inj hnext
      obtain ⟨hready, -⟩ := hcompaction
      rw [← eq_of_toList hguard.2] at hready
      obtain ⟨contents', htables, hmem, hversions, hlive⟩ :=
        hready.publish h.tables h.store.determined
      have hanswer : ∀ key, answer (newest contents' (engine.levels.publish inputs outputs) key)
          = answer (newest contents engine.levels key) := by
        intro key
        rw [answer, hlive]
        rfl
      refine ⟨contents', {
        tables := htables
        store := h.store.replace hversions hanswer
        sequence := h.sequence
        writer := ?_
        compaction := ⟨?_, ?_⟩
        lease := ?_ }, ?_⟩
      · -- the flush in progress relies on answers only
        show engine.writer.Ok fastbloom config contents' engine.log engine.sequenceNumber
          engine.memtable (engine.levels.publish inputs outputs)
        cases hw : engine.writer with
        | free | publishing | flushing =>
          rw [hw] at hwriter
          exact hwriter
        | registered snapshot =>
          rw [hw] at hwriter
          refine ⟨hwriter.1, hwriter.2.1, fun entry hentry => ?_⟩
          rw [tableAnswer, hanswer]
          exact hwriter.2.2 entry hentry
        | removing snapshot entries =>
          rw [hw] at hwriter
          refine ⟨hwriter.1, hwriter.2.1, hwriter.2.2.1, fun entry hentry => ?_⟩
          rw [tableAnswer, hanswer]
          exact hwriter.2.2.2 entry hentry
      · -- distinct tables have distinct paths
        refine hready.distinct.imp_of_mem ?_
        intro a b ha hb hid hpath
        exact hid (congrArg SSTableMeta.fileId
          (h.tables.paths a (hready.mem_all ha) b (hready.mem_all hb) hpath))
      · intro input hinput
        refine ⟨h.tables.exists_file (hready.mem_all hinput), ?_⟩
        intro sstable hsstable
        exact hready.path_ne h.tables hinput ((hmem sstable).mp hsstable)
      · intro hlease
        exact absurd (hguard.1.symm.trans hlease) Bool.false_ne_true
      · exact {
          reader := rfl
          sequence := le_rfl
          log := ⟨[], (List.append_nil _).symm, fun _ hc => absurd hc List.not_mem_nil⟩
          files := fun _ _ _ hfile => hfile
          answers := fun key => .inl (hanswer key)
          kept := fun _ _ hholds => .inl hholds }
    · cases hnext
  · cases hnext

theorem Invariant.abortCompaction (h : engine.Invariant fastbloom config contents)
    (hnext : engine.abortCompaction = some engine') :
    engine'.Invariant fastbloom config contents ∧ Change contents contents engine engine' := by
  rw [Engine.abortCompaction] at hnext
  split at hnext
  · obtain rfl := Option.some.inj hnext
    exact ⟨{ h with compaction := trivial, lease := fun _ => rfl },
      Change.of_files rfl rfl rfl rfl rfl fun _ _ _ hfile => hfile⟩
  · cases hnext

theorem Invariant.deleteNext (h : engine.Invariant fastbloom config contents) {removed : Bool}
    (hnext : engine.deleteNext removed = some engine') :
    engine'.Invariant fastbloom config contents ∧ Change contents contents engine engine' := by
  have hcompaction := h.compaction
  rw [Engine.deleteNext] at hnext
  split at hnext
  · rename_i input inputs hphase
    obtain rfl := Option.some.inj hnext
    rw [hphase] at hcompaction
    obtain ⟨hpaths, hinputs⟩ := hcompaction
    obtain ⟨hhead, htail⟩ := List.pairwise_cons.mp hpaths
    -- the file that goes is the one of the input
    have hkeep : ∀ name, input.path ≠ name →
        (if removed then engine.files.erase input.path else engine.files)[name]?
          = engine.files[name]? := by
      intro name hne
      split
      · rw [OrdMap.get?_erase, if_neg hne]
      · rfl
    have hheld : engine.publicationHeld = true := by
      rw [publicationHeld, hphase]
    refine ⟨{ h with
      tables := ?_
      compaction := ⟨htail, ?_⟩
      lease := fun hlease => ?_ }, Change.of_files rfl rfl rfl rfl rfl fun hlease => ?_⟩
    · refine { h.tables with written := ?_ }
      intro sstable hmem
      obtain ⟨codec, hgood, hrecords, hfile, hrange⟩ := (h.tables.written sstable hmem).file
      refine ⟨⟨codec, hgood, hrecords, ?_, hrange⟩, (h.tables.written sstable hmem).recordCount⟩
      exact (hkeep _ ((hinputs input List.mem_cons_self).2 sstable hmem)).trans hfile
    · intro other hother
      obtain ⟨⟨bytes, hfile⟩, hne⟩ := hinputs other (List.mem_cons_of_mem input hother)
      exact ⟨⟨bytes, (hkeep _ (hhead other hother)).trans hfile⟩, hne⟩
    · exact absurd (hheld.symm.trans (h.lease hlease)) Bool.true_eq_false.mp
    · exact absurd (hheld.symm.trans (h.lease hlease)) Bool.true_eq_false.mp
  · cases hnext

theorem Invariant.endCompaction (h : engine.Invariant fastbloom config contents)
    (hnext : engine.endCompaction = some engine') :
    engine'.Invariant fastbloom config contents ∧ Change contents contents engine engine' := by
  rw [Engine.endCompaction] at hnext
  split at hnext
  · obtain rfl := Option.some.inj hnext
    exact ⟨{ h with compaction := trivial, lease := fun _ => rfl },
      Change.of_files rfl rfl rfl rfl rfl fun _ _ _ hfile => hfile⟩
  · cases hnext

theorem Invariant.leaveFile (h : engine.Invariant fastbloom config contents) {level fileId : Nat}
    {bytes : Bytes} (hnext : engine.leaveFile level fileId bytes = some engine') :
    engine'.Invariant fastbloom config contents ∧ Change contents contents engine engine' := by
  rw [Engine.leaveFile] at hnext
  split at hnext
  · rename_i hallocates
    obtain rfl := Option.some.inj hnext
    obtain ⟨hid, hnew⟩ := of_allocates hallocates
    have hle : engine.nextFileId ≤ fileId + 1 := hid.trans (Nat.le_succ fileId)
    exact ⟨{ h with
      tables := h.tables.mono (fun _ _ hfile => get?_insert_new hnew hfile) hle
      compaction := compaction_insert_new h.compaction hnew hle (fun _ _ => rfl)
        fun _ hmem => .inl hmem },
      Change.of_files rfl rfl rfl rfl rfl fun _ _ _ hfile => get?_insert_new hnew hfile⟩
  · cases hnext

/-! ### The read -/

/-- A step of the read changes its phase only. -/
theorem readNext_eq (hnext : engine.readNext fastbloom = some engine') :
    engine' = { engine with reader := engine'.reader } ∧
      (engine.leaseHeld = true ∨ engine.publicationHeld = false) := by
  rw [Engine.readNext] at hnext
  rw [leaseHeld]
  split at hnext
  · cases hnext
  · cases hnext
  · rename_i hphase
    split at hnext
    · cases hnext
    · rename_i hheld
      obtain rfl := Option.some.inj hnext
      exact ⟨rfl, .inr (Bool.eq_false_iff.mpr hheld)⟩
  · rename_i hphase
    rw [hphase]
    split at hnext <;> (obtain rfl := Option.some.inj hnext; exact ⟨rfl, .inl rfl⟩)
  · rename_i hphase
    rw [hphase]
    split at hnext <;> (obtain rfl := Option.some.inj hnext; exact ⟨rfl, .inl rfl⟩)
  all_goals
    rename_i hphase
    rw [hphase]
    obtain rfl := Option.some.inj hnext
    exact ⟨rfl, .inl rfl⟩

theorem Invariant.readNext (h : engine.Invariant fastbloom config contents)
    (hnext : engine.readNext fastbloom = some engine') :
    engine'.Invariant fastbloom config contents := by
  obtain ⟨heq, hlease⟩ := readNext_eq hnext
  rw [heq]
  refine { h with lease := fun _ => ?_ }
  rcases hlease with hheld | hfree
  · exact h.lease hheld
  · exact hfree

theorem Invariant.startRead (h : engine.Invariant fastbloom config contents)
    {call : Nat → ReadCall} (hnext : engine.startRead call = some engine') :
    engine'.Invariant fastbloom config contents := by
  rw [Engine.startRead] at hnext
  split at hnext
  · obtain rfl := Option.some.inj hnext
    exact { h with lease := fun hlease => absurd hlease Bool.false_ne_true }
  · cases hnext

/-! ### Runs -/

/-- The events of the read. -/
def isRead : Event → Bool
  | .startGet _ | .startScan _ | .readNext => true
  | _ => false

/-- Every event keeps the invariant, and an event of another task changes only what a read
tolerates. -/
theorem Invariant.next (h : engine.Invariant fastbloom config contents) {event : Event}
    (hnext : engine.next fastbloom config event = some engine') :
    ∃ contents', engine'.Invariant fastbloom config contents' ∧
      (isRead event = false → Change contents contents' engine engine') := by
  have same : (engine'.Invariant fastbloom config contents ∧
      Change contents contents engine engine') → ∃ contents',
        engine'.Invariant fastbloom config contents' ∧
          (isRead event = false → Change contents contents' engine engine') :=
    fun hboth => ⟨contents, hboth.1, fun _ => hboth.2⟩
  have moved : (∃ contents', engine'.Invariant fastbloom config contents' ∧
      Change contents contents' engine engine') → ∃ contents',
        engine'.Invariant fastbloom config contents' ∧
          (isRead event = false → Change contents contents' engine engine') :=
    fun ⟨contents', hinv, hchange⟩ => ⟨contents', hinv, fun _ => hchange⟩
  cases event with
  | beginGroup requests => exact same (h.beginGroup hnext)
  | insertNext => exact same (h.insertNext hnext)
  | storeSequence => exact same (h.storeSequence hnext)
  | beginFlush => exact same (h.beginFlush hnext)
  | registerTable fileId =>
    obtain ⟨contents', hinv, hchange, -⟩ := h.registerTable hnext
    exact moved ⟨contents', hinv, hchange⟩
  | commitFlush => exact same (h.commitFlush hnext)
  | abortFlush => exact same (h.abortFlush hnext)
  | removeNext => exact same (h.removeNext hnext)
  | endFlush => exact same (h.endFlush hnext)
  | beginCompaction level fileIds => exact same (h.beginCompaction hnext)
  | publishCompaction => exact moved (h.publishCompaction hnext)
  | abortCompaction => exact same (h.abortCompaction hnext)
  | deleteNext removed => exact same (h.deleteNext hnext)
  | endCompaction => exact same (h.endCompaction hnext)
  | leaveFile level fileId bytes => exact same (h.leaveFile hnext)
  | startGet key => exact ⟨contents, h.startRead hnext, fun hread => by cases hread⟩
  | startScan range => exact ⟨contents, h.startRead hnext, fun hread => by cases hread⟩
  | readNext => exact ⟨contents, h.readNext hnext, fun hread => by cases hread⟩

/-- The invariant holds in every state of a run. -/
theorem Invariant.run (h : engine.Invariant fastbloom config contents) (events : List Event) :
    ∃ contents', (engine.run fastbloom config events).Invariant fastbloom config contents' := by
  induction events generalizing engine contents with
  | nil => exact ⟨contents, h⟩
  | cons event events ih =>
    show ∃ contents',
      ((engine.step fastbloom config event).run fastbloom config events).Invariant _ _ contents'
    rw [step]
    cases hnext : engine.next fastbloom config event with
    | none => exact ih h
    | some engine' =>
      obtain ⟨contents', hinv, -⟩ := h.next hnext
      exact ih hinv

/-- An engine that was just opened: no task is running, and the memtable and the tables hold what
was published. -/
structure Opened (fastbloom : FastBloom) (contents : Contents) (engine : Engine) : Prop where
  tables : TableInvariant fastbloom (engine.files[·]?) contents engine.levels engine.nextFileId
  store : StoreInvariant contents engine.log engine.sequenceNumber engine.memtable engine.levels
  sequence : engine.sequenceNumber < u64Limit
  published : ∀ command ∈ engine.log, command.lsn ≤ engine.sequenceNumber
  writer : engine.writer = .free
  compaction : engine.compaction = .idle
  reader : engine.reader = .idle

theorem Opened.invariant (h : engine.Opened fastbloom contents) (config : StorageConfig) :
    engine.Invariant fastbloom config contents where
  tables := h.tables
  store := h.store
  sequence := h.sequence
  writer := by
    rw [h.writer]
    exact h.published
  compaction := by
    rw [h.compaction]
    exact trivial
  lease := fun hlease => by
    rw [leaseHeld, h.reader] at hlease
    cases hlease

/-- The empty engine is an opened one. -/
theorem opened_empty (fastbloom : FastBloom) (contents : Contents) :
    empty.Opened fastbloom contents where
  tables := tableInvariant_empty fastbloom _ contents _
  store := storeInvariant_empty contents _
  sequence := by decide
  published := fun _ hmem => absurd hmem List.not_mem_nil
  writer := rfl
  compaction := rfl
  reader := rfl

end Engine

end CereDB.Storage
