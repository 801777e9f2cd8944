import CereDB.Proofs.CommandLog
import CereDB.Proofs.LevelSteps

/-!
# `CereDB.Proofs.StoreInvariant`: where the commands of a log are

`StoreInvariant` relates a log to the memtable and the tables. Every version anywhere is a command
of the log. The memtable is closed upwards: with a version of a key it holds every newer published
one. Every key is readable: the memtable holds its latest published command, or the tables answer
with it.

The rest of the module says how the steps of the engine keep the invariant: a command is logged,
inserted and published (`log_append`, `insert`, `publish`), a flush registers a table and removes
entries (`register`, `remove`), and a compaction replaces tables (`replace`).
-/

set_option autoImplicit false

namespace CereDB.Storage

open CereDB.Lib ReadManager

/-- The memtable record of a command. -/
def LogCommand.inMemtable (command : LogCommand) : MemtableRecord :=
  MemtableRecord.new command.value command.recordType command.lsn

/-- The memtable holds a command. -/
def Memtable.Holds (memtable : Memtable) (command : LogCommand) : Prop :=
  memtable[toLex (command.key, command.lsn)]? = some command.inMemtable

/-- The value of a key after the published commands. -/
def publishedValue (log : List LogCommand) (sequenceNumber : Nat) (key : Key) : Option Bytes :=
  (latest log sequenceNumber key).bind LogCommand.outcome

/-- How the memtable and the tables hold a log that is published up to a sequence number. -/
structure StoreInvariant (contents : Contents) (log : List LogCommand) (sequenceNumber : Nat)
    (memtable : Memtable) (levels : Levels) : Prop where
  sorted : LsnSorted log
  storable : ∀ command ∈ log, command.record.Storable
  inserted : ∀ (key : Key) (lsn : Nat) (record : MemtableRecord),
    memtable[toLex (key, lsn)]? = some record →
      ∃ command ∈ log, command.key = key ∧ command.lsn = lsn ∧ record = command.inMemtable
  flushed : ∀ (key : Key) (record : MemtableRecord), HasVersion contents levels key record →
    ∃ command ∈ log, command.lsn ≤ sequenceNumber ∧ command.key = key ∧ record = command.record
  closed : ∀ command ∈ log, command.lsn ≤ sequenceNumber → ∀ older ∈ log,
    older.key = command.key → older.lsn < command.lsn → memtable.Holds older →
      memtable.Holds command
  readable : ∀ key, (∃ command, latest log sequenceNumber key = some command ∧
      memtable.Holds command) ∨
    answer (newest contents levels key) = publishedValue log sequenceNumber key

/-! ### The empty store -/

theorem not_hasVersion_empty (contents : Contents) (key : Key) (record : MemtableRecord) :
    ¬ HasVersion contents ∅ key record := by
  rintro ⟨sstable, hmem, -⟩
  rw [show (∅ : Levels).all = [] from rfl] at hmem
  cases hmem

theorem tableInvariant_empty (fastbloom : FastBloom) (files : String → Option Bytes)
    (contents : Contents) (nextFileId : Nat) :
    TableInvariant fastbloom files contents ∅ nextFileId := by
  have habsent : ∀ sstable, sstable ∉ (∅ : Levels).all := by
    intro sstable
    rw [show (∅ : Levels).all = [] from rfl]
    exact List.not_mem_nil
  exact {
    placed := fun level id sstable hget => by
      rw [OrdMap.get?_empty] at hget
      cases hget
    fileIds := fun a ha => absurd ha (habsent a)
    paths := fun a ha => absurd ha (habsent a)
    fresh := fun a ha => absurd ha (habsent a)
    written := fun a ha => absurd ha (habsent a)
    disjoint := fun a ha => absurd ha (habsent a)
    ordered := fun a ha => absurd ha (habsent a) }

theorem storeInvariant_empty (contents : Contents) (sequenceNumber : Nat) :
    StoreInvariant contents [] sequenceNumber ∅ ∅ where
  sorted := List.Pairwise.nil
  storable := fun _ hmem => absurd hmem List.not_mem_nil
  inserted := fun key lsn record hget => by
    rw [OrdMap.get?_empty] at hget
    cases hget
  flushed := fun key record hversion => absurd hversion (not_hasVersion_empty contents key record)
  closed := fun _ hmem => absurd hmem List.not_mem_nil
  readable := fun key => .inr (by
    rw [newest_eq_none_iff.mpr (not_hasVersion_empty contents key)]
    rfl)

namespace StoreInvariant

variable {contents : Contents} {log : List LogCommand} {sequenceNumber : Nat} {memtable : Memtable}
  {levels : Levels}

/-- A key and a sequence number determine a version in the tables. -/
theorem determined (h : StoreInvariant contents log sequenceNumber memtable levels) :
    Determined contents levels := by
  intro key a b ha hb hlsn
  obtain ⟨first, hfirst, -, -, rfl⟩ := h.flushed key a ha
  obtain ⟨second, hsecond, -, -, rfl⟩ := h.flushed key b hb
  rw [h.sorted.eq_of_lsn hfirst hsecond hlsn]

theorem valid (h : StoreInvariant contents log sequenceNumber memtable levels) :
    memtable.Valid := by
  intro entry hentry
  have hget := (OrdMap.mem_toList_iff memtable entry.1 entry.2).mp hentry
  obtain ⟨command, hmem, -, hlsn, hrecord⟩ :=
    h.inserted (ofLex entry.1).1 (ofLex entry.1).2 entry.2 hget
  rw [hrecord, ← hlsn]
  exact ⟨rfl, (h.storable command hmem).lsn⟩

/-! ### Looking into the memtable -/

/-- The newest entry of a key up to a sequence number is its latest command. -/
theorem getFromMemtable_of_holds (h : StoreInvariant contents log sequenceNumber memtable levels)
    {key : Key} {watermark : Nat} {command : LogCommand}
    (hlatest : latest log watermark key = some command) (hholds : memtable.Holds command) :
    getFromMemtable memtable key watermark = some command.inMemtable := by
  obtain ⟨⟨hmem, hkey, hle⟩, hmax⟩ := of_latest_eq_some h.sorted hlatest
  have hversion : command.inMemtable ∈ memtable.versions key watermark :=
    Memtable.mem_versions.mpr ⟨command.lsn, hle, hkey ▸ hholds⟩
  rw [h.valid.getFromMemtable_eq_argmax]
  cases hbest : (memtable.versions key watermark).argmax MemtableRecord.rank with
  | none =>
    rw [List.argmax_eq_none.mp hbest] at hversion
    cases hversion
  | some best =>
    obtain ⟨lsn, hlsn, hget⟩ := Memtable.mem_versions.mp (List.argmax_mem hbest)
    obtain ⟨found, hfound, hfoundKey, rfl, rfl⟩ := h.inserted key lsn best hget
    have hlower : command.lsn ≤ found.lsn :=
      lsn_le_of_rank_le (List.le_of_mem_argmax hversion hbest)
    rw [h.sorted.eq_of_lsn hfound hmem (le_antisymm (hmax found hfound hfoundKey hlsn) hlower)]

/-- Without the latest command up to a published sequence number the memtable holds no version up to
it: the memtable is closed upwards. -/
theorem getFromMemtable_of_not_holds
    (h : StoreInvariant contents log sequenceNumber memtable levels) {key : Key} {watermark : Nat}
    (hpublished : watermark ≤ sequenceNumber)
    (hnot : ∀ command, latest log watermark key = some command → ¬ memtable.Holds command) :
    getFromMemtable memtable key watermark = none := by
  rw [h.valid.getFromMemtable_eq_argmax, List.argmax_eq_none, List.eq_nil_iff_forall_not_mem]
  intro record hrecord
  obtain ⟨lsn, hle, hget⟩ := Memtable.mem_versions.mp hrecord
  obtain ⟨found, hfound, rfl, rfl, rfl⟩ := h.inserted key lsn record hget
  cases hlatest : latest log watermark found.key with
  | none => exact latest_eq_none_iff.mp hlatest found hfound rfl hle
  | some command =>
    obtain ⟨⟨hmem, hkey, hcommandLe⟩, hmax⟩ := of_latest_eq_some h.sorted hlatest
    refine hnot command hlatest ?_
    rcases (hmax found hfound rfl hle).lt_or_eq with hlt | heq
    · exact h.closed command hmem (hcommandLe.trans hpublished) found hfound hkey.symm hlt hget
    · rw [← h.sorted.eq_of_lsn hfound hmem heq]
      exact hget

/-! ### Writing -/

/-- Commands that are logged behind the published ones change nothing yet. -/
theorem log_append (h : StoreInvariant contents log sequenceNumber memtable levels)
    {extra : List LogCommand} (hpublished : ∀ command ∈ log, command.lsn ≤ sequenceNumber)
    (hsorted : LsnSorted extra) (hstorable : ∀ command ∈ extra, command.record.Storable)
    (hlsn : ∀ command ∈ extra, sequenceNumber < command.lsn) :
    StoreInvariant contents (log ++ extra) sequenceNumber memtable levels where
  sorted := List.pairwise_append.mpr ⟨h.sorted, hsorted, fun a ha b hb =>
    (hpublished a ha).trans_lt (hlsn b hb)⟩
  storable := fun command hmem => (List.mem_append.mp hmem).elim (h.storable command)
    (hstorable command)
  inserted := fun key lsn record hget => by
    obtain ⟨command, hmem, hrest⟩ := h.inserted key lsn record hget
    exact ⟨command, List.mem_append_left extra hmem, hrest⟩
  flushed := fun key record hversion => by
    obtain ⟨command, hmem, hrest⟩ := h.flushed key record hversion
    exact ⟨command, List.mem_append_left extra hmem, hrest⟩
  closed := fun command hmem hle older hold hkey hlt hholds => by
    have hlogged : ∀ other ∈ log ++ extra, other.lsn ≤ sequenceNumber → other ∈ log := by
      intro other hother hotherLe
      rcases List.mem_append.mp hother with hin | hin
      · exact hin
      · exact absurd hotherLe (not_le.mpr (hlsn other hin))
    exact h.closed command (hlogged command hmem hle) hle older
      (hlogged older hold (hlt.le.trans hle)) hkey hlt hholds
  readable := fun key => by
    rw [publishedValue, latest_append hlsn]
    exact h.readable key

theorem holds_append {memtable : Memtable} {added other : LogCommand} :
    (memtable.append added.key added.value added.recordType added.lsn).Holds other ↔
      if added.key = other.key ∧ added.lsn = other.lsn then
        other.inMemtable = added.inMemtable
      else memtable.Holds other := by
  rw [Memtable.Holds, Memtable.append, OrdMap.get?_insert]
  simp only [toLex_inj, Prod.mk.injEq]
  split
  · rw [Option.some.injEq, eq_comm]
    rfl
  · rfl

/-- A command that is not published yet goes into the memtable. -/
theorem insert (h : StoreInvariant contents log sequenceNumber memtable levels)
    {added : LogCommand} (hmem : added ∈ log) (hlsn : sequenceNumber < added.lsn) :
    StoreInvariant contents log sequenceNumber
      (memtable.append added.key added.value added.recordType added.lsn) levels := by
  have hother : ∀ command : LogCommand, command.lsn ≤ sequenceNumber →
      ((memtable.append added.key added.value added.recordType added.lsn).Holds command ↔
        memtable.Holds command) := by
    intro command hle
    rw [holds_append, if_neg]
    rintro ⟨-, heq⟩
    omega
  refine { h with inserted := ?_, closed := ?_, readable := ?_ }
  · intro key lsn record hget
    rw [Memtable.append, OrdMap.get?_insert] at hget
    simp only [toLex_inj, Prod.mk.injEq] at hget
    split at hget
    · rename_i hplace
      exact ⟨added, hmem, hplace.1, hplace.2, (Option.some.inj hget).symm⟩
    · exact h.inserted key lsn record hget
  · intro command hcommand hle older holder hkey hlt hholds
    rw [hother older (hlt.le.trans hle)] at hholds
    rw [hother command hle]
    exact h.closed command hcommand hle older holder hkey hlt hholds
  · intro key
    rcases h.readable key with ⟨command, hlatest, hholds⟩ | hanswer
    · have hle := (of_latest_eq_some h.sorted hlatest).1.2.2
      exact .inl ⟨command, hlatest, (hother command hle).mpr hholds⟩
    · exact .inr hanswer

/-- The store of the sequence number publishes what is in the memtable. -/
theorem publish (h : StoreInvariant contents log sequenceNumber memtable levels) {next : Nat}
    (hnext : sequenceNumber ≤ next)
    (hholds : ∀ command ∈ log, sequenceNumber < command.lsn → memtable.Holds command) :
    StoreInvariant contents log next memtable levels := by
  refine { h with flushed := ?_, closed := ?_, readable := ?_ }
  · intro key record hversion
    obtain ⟨command, hmem, hle, hrest⟩ := h.flushed key record hversion
    exact ⟨command, hmem, hle.trans hnext, hrest⟩
  · intro command hcommand _ older holder hkey hlt holdHolds
    by_cases hle : command.lsn ≤ sequenceNumber
    · exact h.closed command hcommand hle older holder hkey hlt holdHolds
    · exact hholds command hcommand (not_le.mp hle)
  · intro key
    -- the latest command is new and in the memtable, or it is the one from before
    cases hlatest : latest log next key with
    | none =>
      have hbefore : latest log sequenceNumber key = none := by
        rw [latest_eq_none_iff] at hlatest ⊢
        exact fun command hmem hkey hle => hlatest command hmem hkey (hle.trans hnext)
      rcases h.readable key with ⟨command, hsome, -⟩ | hanswer
      · rw [hbefore] at hsome
        cases hsome
      · rw [publishedValue, hbefore] at hanswer
        rw [publishedValue, hlatest]
        exact .inr hanswer
    | some command =>
      obtain ⟨⟨hmem, hkey, hle⟩, hmax⟩ := of_latest_eq_some h.sorted hlatest
      by_cases hold : command.lsn ≤ sequenceNumber
      · have hbefore : latest log sequenceNumber key = some command :=
          latest_eq_some h.sorted hmem hkey hold
            fun other hother hotherKey hotherLe => hmax other hother hotherKey
              (hotherLe.trans hnext)
        rw [publishedValue, hlatest, ← hbefore]
        exact h.readable key
      · exact .inl ⟨command, rfl, hholds command hmem (not_le.mp hold)⟩

/-! ### Flushing -/

/-- The flushed record of a key is its latest command. -/
theorem tableGet_flushRecords (h : StoreInvariant contents log sequenceNumber memtable levels)
    (hpublished : ∀ command ∈ log, command.lsn ≤ sequenceNumber) {key : Key}
    {record : MemtableRecord} (hrecord : tableGet (flushRecords memtable) key = some record) :
    ∃ command, latest log sequenceNumber key = some command ∧ memtable.Holds command ∧
      record = command.record := by
  obtain ⟨lsn, found, hget, rfl, hnewest⟩ := of_tableGet_flushRecords hrecord
  obtain ⟨command, hmem, rfl, rfl, rfl⟩ := h.inserted key lsn found hget
  refine ⟨command, latest_eq_some h.sorted hmem rfl (hpublished command hmem) ?_, hget, rfl⟩
  intro other hother hkey hle
  -- a newer command would be in the memtable too
  by_contra hlt
  have hholds := h.closed other hother hle command hmem hkey.symm (not_le.mp hlt) hget
  rw [Memtable.Holds, hkey] at hholds
  exact hlt (hnewest other.lsn other.inMemtable hholds)

/-- The records of a flush fit into a table. -/
theorem storable_flushRecords (h : StoreInvariant contents log sequenceNumber memtable levels)
    (hpublished : ∀ command ∈ log, command.lsn ≤ sequenceNumber) :
    ∀ record ∈ flushRecords memtable, record.Storable := by
  intro record hrecord
  obtain ⟨command, hlatest, -, rfl⟩ := h.tableGet_flushRecords hpublished
    (tableGet_of_mem (sorted_flushRecords memtable) hrecord)
  exact h.storable command (of_latest_eq_some h.sorted hlatest).1.1

/-- The flushed versions are the newest ones. -/
theorem flush_newest (h : StoreInvariant contents log sequenceNumber memtable levels)
    (hpublished : ∀ command ∈ log, command.lsn ≤ sequenceNumber) (key : Key)
    (newer older : MemtableRecord) (hnewer : tableGet (flushRecords memtable) key = some newer)
    (holder : HasVersion contents levels key older) : older.lsn ≤ newer.lsn := by
  obtain ⟨command, hlatest, -, rfl⟩ := h.tableGet_flushRecords hpublished hnewer
  obtain ⟨other, hother, hle, hkey, rfl⟩ := h.flushed key older holder
  exact (of_latest_eq_some h.sorted hlatest).2 other hother hkey hle

section Register
variable {fastbloom : FastBloom} {files files' : String → Option Bytes}
  {nextFileId nextFileId' : Nat} {added : SSTableMeta}

/-- After a registration the tables answer for every key of the memtable with its value, and as
before for the other keys. -/
theorem answer_register (h : StoreInvariant contents log sequenceNumber memtable levels)
    (htables : TableInvariant fastbloom files contents levels nextFileId)
    (hpublished : ∀ command ∈ log, command.lsn ≤ sequenceNumber)
    (hstep : PublishStep fastbloom files files' contents
      (contents.assign [added] [flushRecords memtable]) levels nextFileId nextFileId' [] [added])
    (key : Key) :
    newest (contents.assign [added] [flushRecords memtable]) (levels.publish [] [added]) key
      = ((tableGet (flushRecords memtable) key).or (newest contents levels key)) := by
  have hversion : ∀ record, HasVersion (contents.assign [added] [flushRecords memtable])
      (levels.publish [] [added]) key record ↔
        tableGet (flushRecords memtable) key = some record ∨ HasVersion contents levels key record :=
    fun record => htables.hasVersion_flush hstep
  have hdetermined : Determined (contents.assign [added] [flushRecords memtable])
      (levels.publish [] [added]) := by
    intro k a b ha hb hlsn
    have hcommand : ∀ record, HasVersion (contents.assign [added] [flushRecords memtable])
        (levels.publish [] [added]) k record → ∃ command ∈ log, record = command.record := by
      intro record hrecord
      rcases (htables.hasVersion_flush hstep).mp hrecord with hnew | hold
      · obtain ⟨command, hlatest, -, rfl⟩ := h.tableGet_flushRecords hpublished hnew
        exact ⟨command, (of_latest_eq_some h.sorted hlatest).1.1, rfl⟩
      · obtain ⟨command, hmem, -, -, rfl⟩ := h.flushed k record hold
        exact ⟨command, hmem, rfl⟩
    obtain ⟨first, hfirst, rfl⟩ := hcommand a ha
    obtain ⟨second, hsecond, rfl⟩ := hcommand b hb
    rw [h.sorted.eq_of_lsn hfirst hsecond hlsn]
  cases hnew : tableGet (flushRecords memtable) key with
  | none =>
    refine newest_congr h.determined fun record => ?_
    rw [hversion, hnew]
    exact or_iff_right (Option.some_ne_none record).symm
  | some record =>
    refine newest_eq_some hdetermined ((hversion record).mpr (.inl hnew)) ?_
    intro other hother
    rcases (hversion other).mp hother with hsame | hold
    · rw [Option.some.inj (hsame.symm.trans hnew)]
    · exact h.flush_newest hpublished key record other hnew hold

theorem register (h : StoreInvariant contents log sequenceNumber memtable levels)
    (htables : TableInvariant fastbloom files contents levels nextFileId)
    (hpublished : ∀ command ∈ log, command.lsn ≤ sequenceNumber)
    (hstep : PublishStep fastbloom files files' contents
      (contents.assign [added] [flushRecords memtable]) levels nextFileId nextFileId' [] [added]) :
    StoreInvariant (contents.assign [added] [flushRecords memtable]) log sequenceNumber memtable
      (levels.publish [] [added]) := by
  refine { h with flushed := ?_, readable := ?_ }
  · intro key record hversion
    rcases (htables.hasVersion_flush hstep).mp hversion with hnew | hold
    · obtain ⟨command, hlatest, -, rfl⟩ := h.tableGet_flushRecords hpublished hnew
      obtain ⟨⟨hmem, hkey, hle⟩, -⟩ := of_latest_eq_some h.sorted hlatest
      exact ⟨command, hmem, hle, hkey, rfl⟩
    · exact h.flushed key record hold
  · intro key
    rcases h.readable key with hholds | hanswer
    · exact .inl hholds
    · right
      rw [h.answer_register htables hpublished hstep]
      cases hnew : tableGet (flushRecords memtable) key with
      | none => exact hanswer
      | some record =>
        obtain ⟨command, hlatest, -, rfl⟩ := h.tableGet_flushRecords hpublished hnew
        rw [publishedValue, hlatest]
        exact answer_record command

/-- The tables then answer for every key of the memtable. -/
theorem answer_of_register (h : StoreInvariant contents log sequenceNumber memtable levels)
    (htables : TableInvariant fastbloom files contents levels nextFileId)
    (hpublished : ∀ command ∈ log, command.lsn ≤ sequenceNumber)
    (hstep : PublishStep fastbloom files files' contents
      (contents.assign [added] [flushRecords memtable]) levels nextFileId nextFileId' [] [added])
    {key : Key} {lsn : Nat} {found : MemtableRecord}
    (hget : memtable[toLex (key, lsn)]? = some found) :
    answer (newest (contents.assign [added] [flushRecords memtable]) (levels.publish [] [added])
      key) = publishedValue log sequenceNumber key := by
  obtain ⟨record, hnew⟩ := exists_tableGet_flushRecords hget
  obtain ⟨command, hlatest, -, rfl⟩ := h.tableGet_flushRecords hpublished hnew
  rw [h.answer_register htables hpublished hstep, hnew, publishedValue, hlatest]
  exact answer_record command

end Register

theorem holds_erase {memtable : Memtable} {entry : Key ×ₗ Nat} {command : LogCommand} :
    Memtable.Holds (memtable.erase entry) command ↔
      entry ≠ toLex (command.key, command.lsn) ∧ memtable.Holds command := by
  rw [Memtable.Holds, OrdMap.get?_erase]
  by_cases heq : entry = toLex (command.key, command.lsn)
  · rw [if_pos heq]
    simp [heq]
  · rw [if_neg heq]
    simp only [ne_eq, heq, not_false_eq_true, true_and]
    rfl

/-- The first entry of the memtable goes, when the tables answer for its key. -/
theorem remove (h : StoreInvariant contents log sequenceNumber memtable levels)
    {entry : Key ×ₗ Nat} (hfirst : ∀ other, memtable.contains other → entry ≤ other)
    (hanswer : answer (newest contents levels (ofLex entry).1)
      = publishedValue log sequenceNumber (ofLex entry).1) :
    StoreInvariant contents log sequenceNumber (memtable.erase entry) levels := by
  refine { h with inserted := ?_, closed := ?_, readable := ?_ }
  · intro key lsn record hget
    rw [OrdMap.get?_erase] at hget
    split at hget
    · cases hget
    · exact h.inserted key lsn record hget
  · intro command hmem hle older hold hkey hlt hholds
    rw [holds_erase] at hholds ⊢
    refine ⟨?_, h.closed command hmem hle older hold hkey hlt hholds.2⟩
    -- the older version is not before the entry that went
    rintro rfl
    have hcontains : memtable.contains (toLex (older.key, older.lsn)) = true := by
      rw [Std.ExtTreeMap.contains_eq_isSome_getElem?]
      rw [show memtable[toLex (older.key, older.lsn)]? = some _ from hholds.2]
      rfl
    have hle' := hfirst _ hcontains
    rw [hkey, Prod.Lex.toLex_le_toLex] at hle'
    rcases hle' with hlt' | ⟨-, hle'⟩
    · exact lt_irrefl _ hlt'
    · exact absurd hle' (not_le.mpr hlt)
  · intro key
    by_cases hkey : (ofLex entry).1 = key
    · rw [← hkey]
      exact .inr hanswer
    · rcases h.readable key with ⟨command, hlatest, hholds⟩ | hother
      · refine .inl ⟨command, hlatest, holds_erase.mpr ⟨?_, hholds⟩⟩
        rintro rfl
        exact hkey (of_latest_eq_some h.sorted hlatest).1.2.1
      · exact .inr hother

/-! ### Compacting -/

/-- Tables that hold no new versions and give the same answers can replace those of before. -/
theorem replace (h : StoreInvariant contents log sequenceNumber memtable levels)
    {contents' : Contents} {levels' : Levels}
    (hversions : ∀ key record, HasVersion contents' levels' key record →
      HasVersion contents levels key record)
    (hanswer : ∀ key, answer (newest contents' levels' key) = answer (newest contents levels key)) :
    StoreInvariant contents' log sequenceNumber memtable levels' := by
  refine { h with flushed := ?_, readable := ?_ }
  · intro key record hversion
    exact h.flushed key record (hversions key record hversion)
  · intro key
    rw [hanswer]
    exact h.readable key

end StoreInvariant

end CereDB.Storage
