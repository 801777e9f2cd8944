import CereDB.Proofs.Linearizable
import CereDB.Proofs.MemtableCursor

/-!
# `CereDB.Proofs.ConcurrentScan`: scans next to batches and flushes

A scan reads at the sequence number it loaded, its watermark. A flush keeps only the newest version
of a key and removes all of them from the memtable. When the newest one is above the watermark, the
version the scan needs is gone: `scan_loses_key` is such a run.

`scan_keeps_keys` says that this is the only way. In every run of batches, flushes and a scan in
which no flush removes, below the watermark of the scan, an entry of a key that its snapshot also
has above the watermark, the scan returns exactly the entries of the range at its watermark.

`Located` is the invariant, for each key. The scan has collected the latest command up to the
watermark, or will meet it in the memtable, or finds it in the tables; or neither the scan nor the
memtable has anything of the key up to the watermark, and the tables give the right answer.
-/

set_option autoImplicit false

namespace CereDB.Storage

open CereDB.Lib ReadManager

namespace Engine

variable {fastbloom : FastBloom} {config : StorageConfig} {contents contents' : Contents}
  {engine engine' : Engine} {range : KeyRange} {watermark : Nat} {last : Option (Key ×ₗ Nat)}
  {merged : Merged} {wanted : Key → Option Bytes}

/-! ### The invariant of a flush -/

/-- A flush that has registered its table: for every key it is about to remove, the tables hold the
latest command. Without compactions nothing takes it out again. -/
def FlushKept (contents : Contents) (engine : Engine) : Prop :=
  match engine.writer with
  | .registered _ | .removing _ _ => ∀ entry, engine.memtable.contains entry →
      ∃ command, latest engine.log engine.sequenceNumber (ofLex entry).1 = some command ∧
        HasVersion contents engine.levels (ofLex entry).1 command.record
  | _ => True

/-- No compaction is running. -/
structure ScanInvariant (fastbloom : FastBloom) (config : StorageConfig) (contents : Contents)
    (engine : Engine) : Prop extends engine.Invariant fastbloom config contents where
  kept : FlushKept contents engine
  idle : engine.compaction = .idle

/-- A compaction is not started. -/
def compacts : Event → Bool
  | .beginCompaction _ _ => true
  | _ => false

/-! ### The invariant of a scan -/

/-- The scan needs nothing more of a key from the memtable. -/
inductive Settled (contents : Contents) (engine : Engine) (watermark : Nat) (merged : Merged)
    (key : Key) : Prop
  /-- It has collected the latest command. -/
  | collected (command : LogCommand) (hlatest : latest engine.log watermark key = some command)
      (hmerged : merged[key]? = some command.inMemtable)
  /-- The tables hold the latest command. -/
  | stored (command : LogCommand) (hlatest : latest engine.log watermark key = some command)
      (hversion : HasVersion contents engine.levels key command.record)
  /-- Only the tables hold anything of the key. -/
  | answered (hmerged : merged[key]? = none)
      (hmemtable : ∀ lsn ≤ watermark, engine.memtable[toLex (key, lsn)]? = none)
      (hanswer : tableAnswerAt contents engine.levels watermark key
        = publishedValue engine.log watermark key)

/-- The scan will meet the latest command of a key in the memtable. -/
def Ahead (engine : Engine) (watermark : Nat) (last : Option (Key ×ₗ Nat)) (key : Key) : Prop :=
  ∃ command, latest engine.log watermark key = some command ∧ engine.memtable.Holds command ∧
    ∀ visited ∈ last, visited < toLex (key, command.lsn)

/-- What a scan has collected are commands of the range up to the watermark. -/
structure Collects (wanted : Key → Option Bytes) (range : KeyRange) (watermark : Nat)
    (merged : Merged) (engine : Engine) : Prop where
  published : watermark ≤ engine.sequenceNumber
  wanted : ∀ key, wanted key = publishedValue engine.log watermark key
  commands : ∀ key record, merged[key]? = some record → keyInRange key range = true ∧
    ∃ command ∈ engine.log, command.key = key ∧ command.lsn ≤ watermark ∧
      record = command.inMemtable

/-- A scan that goes over the memtable. -/
def Scanning (contents : Contents) (wanted : Key → Option Bytes) (range : KeyRange)
    (watermark : Nat) (last : Option (Key ×ₗ Nat)) (merged : Merged) (engine : Engine) : Prop :=
  Collects wanted range watermark merged engine ∧ ∀ key, keyInRange key range = true →
    Settled contents engine watermark merged key ∨ Ahead engine watermark last key

/-- A scan that has left the memtable. -/
def Scanned (contents : Contents) (wanted : Key → Option Bytes) (range : KeyRange)
    (watermark : Nat) (merged : Merged) (engine : Engine) : Prop :=
  Collects wanted range watermark merged engine ∧ ∀ key, keyInRange key range = true →
    Settled contents engine watermark merged key

/-- The result of a scan: the wanted entries of the range. -/
def Returns (wanted : Key → Option Bytes) (range : KeyRange) (entries : List (Key × Bytes)) :
    Prop :=
  ∀ key value, (key, value) ∈ entries ↔ keyInRange key range = true ∧ wanted key = some value

/-- A scan whose remaining file operations return the wanted entries. -/
def ScanReading (wanted : Key → Option Bytes) (range : KeyRange) (engine : Engine)
    (prog : ReadFile ReadResult) (cursor : FileProg.Cursor) : Prop :=
  ∃ (entries : List (Key × Bytes)) (last : FileProg.Cursor),
    FileProg.run fileErrors (engine.files[·]?) prog cursor = .ok (.entries entries, last) ∧
      Returns wanted range entries

/-- Where a scan is. -/
def ScanOk (contents : Contents) (wanted : Key → Option Bytes) (range : KeyRange)
    (engine : Engine) : Prop :=
  match engine.reader with
  | .loaded call => ∃ watermark, call = .scan range watermark ∧
      Scanning contents wanted range watermark none ∅ engine
  | .scanning r watermark last merged => r = range ∧
      Scanning contents wanted range watermark last merged engine
  | .scanned r watermark merged => r = range ∧
      Scanned contents wanted range watermark merged engine
  | .reading prog cursor => ScanReading wanted range engine prog cursor
  | .done result => ∃ entries, result = .ok (.entries entries) ∧ Returns wanted range entries
  | _ => False

/-! ### The condition -/

/-- A removal is safe for a scan: the entry is above the watermark, or no version of its key in the
snapshot of the flush is. -/
def removalSafe (watermark : Nat) (engine : Engine) : Event → Bool
  | .removeNext =>
    match engine.writer with
    | .removing snapshot (entry :: _) =>
      decide (watermark < (ofLex entry).2) || snapshot.toList.all fun other =>
        (ofLex other.1).1 != (ofLex entry).1 || decide ((ofLex other.1).2 ≤ watermark)
    | _ => true
  | _ => true

/-- A step is safe while a scan goes over the memtable. -/
def scanSafe (engine : Engine) (event : Event) : Bool :=
  match engine.reader with
  | .loaded (.scan _ watermark) => removalSafe watermark engine event
  | .scanning _ watermark _ _ => removalSafe watermark engine event
  | _ => true

/-! ### Steps of other tasks -/

/-- What a step of another task means for a scan. -/
structure ScanChange (contents contents' : Contents) (engine engine' : Engine) : Prop extends
    Change contents contents' engine engine' where
  versions : ∀ key record, HasVersion contents engine.levels key record →
    HasVersion contents' engine'.levels key record
  newVersions : ∀ key record, HasVersion contents' engine'.levels key record →
    HasVersion contents engine.levels key record ∨
      ∃ command : LogCommand, command.key = key ∧ record = command.record ∧
        engine.memtable.Holds command
  noOlder : ∀ (key : Key) (lsn : Nat), lsn ≤ engine.sequenceNumber →
    engine.memtable[toLex (key, lsn)]? = none → engine'.memtable[toLex (key, lsn)]? = none

/-- A command up to the watermark stays in the memtable or is found in the tables. -/
def KeepsUpTo (watermark : Nat) (contents' : Contents) (engine engine' : Engine) : Prop :=
  ∀ command, command.lsn ≤ watermark → engine.memtable.Holds command →
    engine'.memtable.Holds command ∨ ∃ newest,
      latest engine.log engine.sequenceNumber command.key = some newest ∧
        newest.lsn ≤ watermark ∧ HasVersion contents' engine'.levels command.key newest.record

theorem ScanChange.of_same (h : Change contents contents engine engine')
    (hmemtable : engine'.memtable = engine.memtable) (hlevels : engine'.levels = engine.levels) :
    ScanChange contents contents engine engine' where
  toChange := h
  versions := fun key record hversion => by
    rw [hlevels]
    exact hversion
  newVersions := fun key record hversion => by
    rw [hlevels] at hversion
    exact .inl hversion
  noOlder := fun key lsn _ hnone => by
    rw [hmemtable]
    exact hnone

theorem KeepsUpTo.of_same (hmemtable : engine'.memtable = engine.memtable) :
    KeepsUpTo watermark contents' engine engine' := by
  intro command _ hholds
  left
  rw [hmemtable]
  exact hholds

/-- A step of another task in a run without compactions. -/
structure ScanStep (fastbloom : FastBloom) (config : StorageConfig) (contents contents' : Contents)
    (event : Event) (engine engine' : Engine) : Prop where
  invariant : ScanInvariant fastbloom config contents' engine'
  change : ScanChange contents contents' engine engine'
  keeps : ∀ watermark, removalSafe watermark engine event = true →
    KeepsUpTo watermark contents' engine engine'

theorem ScanStep.of_same {event : Event}
    (h : engine'.Invariant fastbloom config contents ∧ Change contents contents engine engine')
    (hkept : FlushKept contents engine') (hidle : engine'.compaction = .idle)
    (hmemtable : engine'.memtable = engine.memtable) (hlevels : engine'.levels = engine.levels) :
    ScanStep fastbloom config contents contents event engine engine' where
  invariant := { h.1 with kept := hkept, idle := hidle }
  change := ScanChange.of_same h.2 hmemtable hlevels
  keeps := fun _ _ => KeepsUpTo.of_same hmemtable

theorem ScanInvariant.registerTable (h : ScanInvariant fastbloom config contents engine)
    {fileId : Nat} (hnext : engine.registerTable fileId = some engine') :
    ∃ contents', ScanStep fastbloom config contents contents' (.registerTable fileId) engine
      engine' := by
  obtain ⟨contents', hinv, hchange, hversions⟩ := h.toInvariant.registerTable hnext
  have hwriter := h.writer
  rw [Engine.registerTable] at hnext
  split at hnext
  · rename_i snapshot table hphase
    rw [hphase] at hwriter
    obtain ⟨hpublished, rfl, -⟩ := hwriter
    split at hnext
    · obtain rfl := Option.some.inj hnext
      have hflushed : ∀ key record, tableGet (flushRecords engine.memtable) key = some record →
          ∃ command, latest engine.log engine.sequenceNumber key = some command ∧
            engine.memtable.Holds command ∧ record = command.record :=
        fun key record => h.store.tableGet_flushRecords hpublished
      refine ⟨contents', ⟨{ hinv with kept := ?_, idle := h.idle }, {
        toChange := hchange
        versions := fun key record hversion => (hversions key record).mpr (.inr hversion)
        newVersions := ?_
        noOlder := fun _ _ _ hnone => hnone }, fun _ _ => KeepsUpTo.of_same rfl⟩⟩
      · intro entry hentry
        rw [Std.ExtTreeMap.contains_eq_isSome_getElem?] at hentry
        obtain ⟨found, hget⟩ := Option.isSome_iff_exists.mp hentry
        obtain ⟨record, hrecord⟩ := exists_tableGet_flushRecords
          (show engine.memtable[toLex ((ofLex entry).1, (ofLex entry).2)]? = some found from hget)
        obtain ⟨command, hlatest, -, rfl⟩ := hflushed _ _ hrecord
        exact ⟨command, hlatest, (hversions _ _).mpr (.inl hrecord)⟩
      · intro key record hversion
        rcases (hversions key record).mp hversion with hnew | hold
        · obtain ⟨command, hlatest, hholds, rfl⟩ := hflushed key record hnew
          exact .inr ⟨command, (of_latest_eq_some h.store.sorted hlatest).1.2.1, rfl, hholds⟩
        · exact .inl hold
    · cases hnext
  · cases hnext

theorem ScanInvariant.removeNext (h : ScanInvariant fastbloom config contents engine)
    (hnext : engine.removeNext = some engine') :
    ScanStep fastbloom config contents contents .removeNext engine engine' := by
  obtain ⟨hinv, hchange⟩ := h.toInvariant.removeNext hnext
  have hwriter := h.writer
  have hkept := h.kept
  rw [FlushKept] at hkept
  rw [Engine.removeNext] at hnext
  split at hnext
  · rename_i snapshot entry entries hphase
    obtain rfl := Option.some.inj hnext
    rw [hphase] at hwriter hkept
    obtain ⟨-, -, hentries, hanswers⟩ := hwriter
    have herase : ∀ place : Key ×ₗ Nat, engine.memtable[place]? = none →
        (engine.memtable.erase entry)[place]? = none := by
      intro place hnone
      rw [OrdMap.get?_erase]
      split
      · rfl
      · exact hnone
    refine ⟨{ hinv with kept := ?_, idle := h.idle }, {
      toChange := hchange
      versions := fun _ _ hversion => hversion
      newVersions := fun _ _ hversion => .inl hversion
      noOlder := fun key lsn _ hnone => herase _ hnone }, ?_⟩
    · intro other hother
      refine hkept other ?_
      rw [Std.ExtTreeMap.contains_erase, Bool.and_eq_true] at hother
      exact hother.2
    · intro watermark hsafe command hle hholds
      by_cases heq : entry = toLex (command.key, command.lsn)
      · right
        obtain ⟨-, newest, hlatest, hsnapshot⟩ := hanswers entry List.mem_cons_self
        have hcontains : engine.memtable.contains entry :=
          (hentries entry).mpr List.mem_cons_self
        obtain ⟨newest', hlatest', hversion⟩ := hkept entry hcontains
        obtain rfl := Option.some.inj (hlatest.symm.trans hlatest')
        have hkey : (ofLex entry).1 = command.key := by rw [heq]; rfl
        have hnewestKey := (of_latest_eq_some h.store.sorted hlatest).1.2.1
        rw [hkey] at hlatest hversion hnewestKey
        refine ⟨newest, hlatest, ?_, hversion⟩
        -- the condition bounds every version of the snapshot
        rw [removalSafe, hphase] at hsafe
        simp only [Bool.or_eq_true, decide_eq_true_iff] at hsafe
        rcases hsafe with habove | hall
        · rw [heq] at habove
          exact absurd hle (not_le.mpr habove)
        · rw [Std.ExtTreeMap.contains_eq_isSome_getElem?] at hsnapshot
          obtain ⟨found, hget⟩ := Option.isSome_iff_exists.mp hsnapshot
          have hbound := List.all_eq_true.mp hall (toLex (newest.key, newest.lsn), found)
            ((OrdMap.mem_toList_iff snapshot _ _).mpr hget)
          rw [Bool.or_eq_true, bne_iff_ne, decide_eq_true_iff] at hbound
          exact hbound.resolve_left fun hne => hne (hnewestKey.trans hkey.symm)
      · exact .inl (StoreInvariant.holds_erase.mpr ⟨heq, hholds⟩)
  · cases hnext

theorem ScanInvariant.insertNext (h : ScanInvariant fastbloom config contents engine)
    (hnext : engine.insertNext = some engine') :
    ScanStep fastbloom config contents contents .insertNext engine engine' := by
  obtain ⟨hinv, hchange⟩ := h.toInvariant.insertNext hnext
  have hwriter := h.writer
  rw [Engine.insertNext] at hnext
  split at hnext
  · rename_i command pending nextLsn hphase
    obtain rfl := Option.some.inj hnext
    rw [hphase] at hwriter
    have hlsn := hwriter.2.1 command List.mem_cons_self
    refine ⟨{ hinv with kept := trivial, idle := h.idle }, {
      toChange := hchange
      versions := fun _ _ hversion => hversion
      newVersions := fun _ _ hversion => .inl hversion
      noOlder := ?_ }, ?_⟩
    · intro key lsn hle hnone
      show (engine.memtable.append _ _ _ _)[toLex (key, lsn)]? = none
      rw [Memtable.append, OrdMap.get?_insert, if_neg]
      · exact hnone
      · rw [toLex_inj, Prod.mk.injEq]
        rintro ⟨-, heq⟩
        omega
    · intro watermark _ other hle hholds
      left
      rw [StoreInvariant.holds_append]
      split
      · rename_i hsame
        obtain ⟨found, hfound, -, hfoundLsn, hrecord⟩ := h.store.inserted _ _ _ hholds
        have hcommand : command ∈ engine.log := by
          obtain ⟨inserted, hlog, -⟩ := hwriter.1
          rw [hlog]
          exact List.mem_append_right inserted List.mem_cons_self
        rw [hrecord, h.store.sorted.eq_of_lsn hcommand hfound (hsame.2.trans hfoundLsn.symm)]
      · exact hholds
  · cases hnext

/-- Every event of another task, in a run without compactions. -/
theorem ScanInvariant.next (h : ScanInvariant fastbloom config contents engine) {event : Event}
    (hcompacts : compacts event = false) (hread : isRead event = false)
    (hnext : engine.next fastbloom config event = some engine') :
    ∃ contents', ScanStep fastbloom config contents contents' event engine engine' := by
  have hkept := h.kept
  rw [FlushKept] at hkept
  cases event with
  | beginCompaction level fileIds => cases hcompacts
  | startGet key => cases hread
  | startScan range => cases hread
  | readNext => cases hread
  | insertNext => exact ⟨contents, h.insertNext hnext⟩
  | removeNext => exact ⟨contents, h.removeNext hnext⟩
  | registerTable fileId => exact h.registerTable hnext
  | beginGroup requests =>
    have hboth := h.toInvariant.beginGroup hnext
    replace hnext : engine.beginGroup requests = some engine' := hnext
    rw [Engine.beginGroup] at hnext
    split at hnext
    · split at hnext
      · split at hnext
        · obtain rfl := Option.some.inj hnext
          exact ⟨contents, ScanStep.of_same hboth trivial h.idle rfl rfl⟩
        · cases hnext
      · cases hnext
    · cases hnext
  | storeSequence =>
    have hboth := h.toInvariant.storeSequence hnext
    replace hnext : engine.storeSequence = some engine' := hnext
    rw [Engine.storeSequence] at hnext
    split at hnext
    · obtain rfl := Option.some.inj hnext
      exact ⟨contents, ScanStep.of_same hboth trivial h.idle rfl rfl⟩
    · cases hnext
  | beginFlush =>
    have hboth := h.toInvariant.beginFlush hnext
    replace hnext : engine.beginFlush fastbloom config = some engine' := hnext
    rw [Engine.beginFlush] at hnext
    split at hnext
    · split at hnext
      · obtain rfl := Option.some.inj hnext
        exact ⟨contents, ScanStep.of_same hboth trivial h.idle rfl rfl⟩
      · cases hnext
    · cases hnext
  | commitFlush =>
    have hboth := h.toInvariant.commitFlush hnext
    replace hnext : engine.commitFlush = some engine' := hnext
    rw [Engine.commitFlush] at hnext
    split at hnext
    · rename_i hphase
      rw [hphase] at hkept
      obtain rfl := Option.some.inj hnext
      exact ⟨contents, ScanStep.of_same hboth hkept h.idle rfl rfl⟩
    · cases hnext
  | abortFlush =>
    have hboth := h.toInvariant.abortFlush hnext
    replace hnext : engine.abortFlush = some engine' := hnext
    rw [Engine.abortFlush] at hnext
    split at hnext
    · obtain rfl := Option.some.inj hnext
      exact ⟨contents, ScanStep.of_same hboth trivial h.idle rfl rfl⟩
    · obtain rfl := Option.some.inj hnext
      exact ⟨contents, ScanStep.of_same hboth trivial h.idle rfl rfl⟩
    · cases hnext
  | endFlush =>
    have hboth := h.toInvariant.endFlush hnext
    replace hnext : engine.endFlush = some engine' := hnext
    rw [Engine.endFlush] at hnext
    split at hnext
    · obtain rfl := Option.some.inj hnext
      exact ⟨contents, ScanStep.of_same hboth trivial h.idle rfl rfl⟩
    · cases hnext
  | leaveFile level fileId bytes =>
    have hboth := h.toInvariant.leaveFile hnext
    replace hnext : engine.leaveFile level fileId bytes = some engine' := hnext
    rw [Engine.leaveFile] at hnext
    split at hnext
    · obtain rfl := Option.some.inj hnext
      exact ⟨contents, ScanStep.of_same hboth h.kept h.idle rfl rfl⟩
    · cases hnext
  | publishCompaction =>
    replace hnext : engine.publishCompaction = some engine' := hnext
    rw [Engine.publishCompaction, h.idle] at hnext
    cases hnext
  | abortCompaction =>
    replace hnext : engine.abortCompaction = some engine' := hnext
    rw [Engine.abortCompaction, h.idle] at hnext
    cases hnext
  | deleteNext removed =>
    replace hnext : engine.deleteNext removed = some engine' := hnext
    rw [Engine.deleteNext, h.idle] at hnext
    cases hnext
  | endCompaction =>
    replace hnext : engine.endCompaction = some engine' := hnext
    rw [Engine.endCompaction, h.idle] at hnext
    cases hnext

theorem Collects.change (hcollects : Collects wanted range watermark merged engine)
    (h : Change contents contents' engine engine') :
    Collects wanted range watermark merged engine' := by
  obtain ⟨extra, hlog, -⟩ := h.log
  refine ⟨hcollects.published.trans h.sequence, ?_, ?_⟩
  · intro key
    rw [publishedValue, h.latest_eq hcollects.published key]
    exact hcollects.wanted key
  · intro key record hmerged
    obtain ⟨hrange, command, hmem, hrest⟩ := hcollects.commands key record hmerged
    refine ⟨hrange, command, ?_, hrest⟩
    rw [hlog]
    exact List.mem_append_left extra hmem

/-- What is settled stays settled. -/
theorem Settled.change {key : Key} (hsettled : Settled contents engine watermark merged key)
    (hpublished : watermark ≤ engine.sequenceNumber)
    (hinv : engine.Invariant fastbloom config contents)
    (h : ScanChange contents contents' engine engine') :
    Settled contents' engine' watermark merged key := by
  have hlatestEq := h.toChange.latest_eq hpublished key
  cases hsettled with
  | collected command hlatest hmerged =>
    exact .collected command (hlatestEq.trans hlatest) hmerged
  | stored command hlatest hversion =>
    exact .stored command (hlatestEq.trans hlatest) (h.versions key _ hversion)
  | answered hmerged hmemtable hanswer =>
    refine .answered hmerged (fun lsn hle => h.noOlder key lsn (hle.trans hpublished)
      (hmemtable lsn hle)) ?_
    rw [publishedValue, hlatestEq, ← publishedValue, ← hanswer]
    refine tableAnswerAt_congr hinv.store.determined fun record hle => ?_
    refine ⟨fun hversion => ?_, h.versions key record⟩
    -- a new version comes from the memtable, which has none up to the watermark
    rcases h.newVersions key record hversion with hold | ⟨command, rfl, rfl, hholds⟩
    · exact hold
    · rw [Memtable.Holds, hmemtable command.lsn hle] at hholds
      cases hholds

/-- What is ahead stays ahead or is found in the tables. -/
theorem Ahead.change {key : Key} (hahead : Ahead engine watermark last key)
    (hpublished : watermark ≤ engine.sequenceNumber)
    (hinv : engine.Invariant fastbloom config contents)
    (h : ScanChange contents contents' engine engine')
    (hkeeps : KeepsUpTo watermark contents' engine engine') :
    Settled contents' engine' watermark merged key ∨ Ahead engine' watermark last key := by
  have hlatestEq := h.toChange.latest_eq hpublished key
  obtain ⟨command, hlatest, hholds, hlast⟩ := hahead
  obtain ⟨⟨hmem, rfl, hle⟩, hmax⟩ := of_latest_eq_some hinv.store.sorted hlatest
  rcases hkeeps command hle hholds with hstill | ⟨newest, hnewest, hbelow, hversion⟩
  · exact .inr ⟨command, hlatestEq.trans hlatest, hstill, hlast⟩
  · -- the newest version is below the watermark, so it is the one the scan needs
    obtain ⟨⟨hnewestMem, hnewestKey, -⟩, hnewestMax⟩ :=
      of_latest_eq_some hinv.store.sorted hnewest
    have hsame : newest = command := hinv.store.sorted.eq_of_lsn hnewestMem hmem
      (le_antisymm (hmax newest hnewestMem hnewestKey hbelow)
        (hnewestMax command hmem rfl (hle.trans hpublished)))
    rw [hsame] at hversion
    exact .inl (.stored command (hlatestEq.trans hlatest) hversion)

theorem Scanning.change (hscanning : Scanning contents wanted range watermark last merged engine)
    (hinv : engine.Invariant fastbloom config contents)
    (h : ScanChange contents contents' engine engine')
    (hkeeps : KeepsUpTo watermark contents' engine engine') :
    Scanning contents' wanted range watermark last merged engine' := by
  have hpublished := hscanning.1.published
  refine ⟨hscanning.1.change h.toChange, fun key hrange => ?_⟩
  rcases hscanning.2 key hrange with hsettled | hahead
  · exact .inl (hsettled.change hpublished hinv h)
  · exact hahead.change hpublished hinv h hkeeps

/-- A safe step of another task does not disturb a scan. -/
theorem ScanOk.change (hscan : ScanOk contents wanted range engine)
    (hinv : engine.Invariant fastbloom config contents) {event : Event}
    (hsafe : scanSafe engine event = true)
    (h : ScanStep fastbloom config contents contents' event engine engine') :
    ScanOk contents' wanted range engine' := by
  unfold ScanOk at hscan ⊢
  rw [h.change.reader]
  rw [scanSafe] at hsafe
  cases hreader : engine.reader with
  | idle =>
    rw [hreader] at hscan
    exact hscan
  | leased =>
    rw [hreader] at hscan
    exact hscan
  | missed =>
    rw [hreader] at hscan
    exact hscan
  | loaded call =>
    rw [hreader] at hscan hsafe
    obtain ⟨watermark, rfl, hscanning⟩ := hscan
    exact ⟨watermark, rfl, hscanning.change hinv h.change (h.keeps watermark hsafe)⟩
  | scanning r watermark last merged =>
    rw [hreader] at hscan hsafe
    exact ⟨hscan.1, hscan.2.change hinv h.change (h.keeps watermark hsafe)⟩
  | scanned r watermark merged =>
    rw [hreader] at hscan
    exact ⟨hscan.1, hscan.2.1.change h.change.toChange, fun key hrange =>
      (hscan.2.2 key hrange).change hscan.2.1.published hinv h.change⟩
  | reading prog cursor =>
    rw [hreader] at hscan
    obtain ⟨entries, last, hrun, hreturns⟩ := hscan
    have hlease : engine.leaseHeld = true := by
      rw [leaseHeld, hreader]
    exact ⟨entries, last, FileProg.run_mono (h.change.files hlease) hrun, hreturns⟩
  | done result =>
    rw [hreader] at hscan
    exact hscan

/-! ### Steps of the scan -/

/-- The entry of a command lies in the bounds of a range when its key does. -/
theorem unvisited_of_lt (hinv : engine.Invariant fastbloom config contents) {command : LogCommand}
    (hmem : command ∈ engine.log) (hrange : keyInRange command.key range = true)
    (hlast : ∀ visited ∈ last, visited < toLex (command.key, command.lsn)) :
    Unvisited range last (toLex (command.key, command.lsn)) := by
  refine ⟨?_, hlast⟩
  have hlsn : (ofLex (toLex (command.key, command.lsn))).2 < u64Limit :=
    (hinv.store.storable command hmem).lsn
  rw [withinBounds_collectRangeBounds range hlsn]
  exact hrange

/-- A collected record that is not below the latest command is that command. -/
theorem better_of_latest (hcollects : Collects wanted range watermark merged engine)
    (hinv : engine.Invariant fastbloom config contents) {key : Key} {command : LogCommand}
    (hlatest : latest engine.log watermark key = some command) :
    better MemtableRecord.rank merged[key]? (some command.inMemtable)
      = some command.inMemtable := by
  obtain ⟨⟨hmem, -, -⟩, hmax⟩ := of_latest_eq_some hinv.store.sorted hlatest
  cases hmerged : merged[key]? with
  | none => rfl
  | some record =>
    obtain ⟨-, other, hother, hkey, hle, rfl⟩ := hcollects.commands key record hmerged
    rw [better]
    rcases (hmax other hother hkey hle).lt_or_eq with hlt | heq
    · rw [if_pos (rank_le_of_lsn_lt hlt)]
    · rw [hinv.store.sorted.eq_of_lsn hother hmem heq, ite_self]

/-- Nothing up to the watermark replaces the latest command. -/
theorem latest_better (hinv : engine.Invariant fastbloom config contents) {key : Key}
    {command other : LogCommand} (hlatest : latest engine.log watermark key = some command)
    (hother : other ∈ engine.log) (hkey : other.key = key) (hle : other.lsn ≤ watermark)
    {record : MemtableRecord} (hrank : record.rank = other.inMemtable.rank) :
    better MemtableRecord.rank (some command.inMemtable) (some record)
      = some command.inMemtable := by
  obtain ⟨-, hmax⟩ := of_latest_eq_some hinv.store.sorted hlatest
  obtain ⟨⟨hmem, -, -⟩, -⟩ := of_latest_eq_some hinv.store.sorted hlatest
  rw [better, if_neg]
  rw [hrank, not_lt]
  rcases (hmax other hother hkey hle).lt_or_eq with hlt | heq
  · exact (rank_le_of_lsn_lt hlt).le
  · rw [hinv.store.sorted.eq_of_lsn hother hmem heq]

/-- The scan visits the next entry. -/
theorem Scanning.visit (h : Scanning contents wanted range watermark last merged engine)
    (hinv : engine.Invariant fastbloom config contents)
    {entry : (Key ×ₗ Nat) × MemtableRecord}
    (hentry : nextEntry engine.memtable range last = some entry) :
    Scanning contents wanted range watermark (some entry.1) (scanEntry watermark merged entry)
      engine := by
  obtain ⟨hget, ⟨hbounds, hbehind⟩, hfirst⟩ := nextEntry_eq_some hentry
  obtain ⟨visited, hvisited, hkey, hlsn, hrecord⟩ :=
    hinv.store.inserted (ofLex entry.1).1 (ofLex entry.1).2 entry.2 hget
  have hrange : keyInRange visited.key range = true := by
    rw [hkey, ← withinBounds_collectRangeBounds range]
    · exact hbounds
    · rw [← hlsn]
      exact (hinv.store.storable visited hvisited).lsn
  refine ⟨⟨h.1.published, h.1.wanted, ?_⟩, ?_⟩
  · intro key record hmerged
    rw [get?_scanEntry] at hmerged
    split at hmerged
    · rename_i hhere
      -- the kept record is the old one or that of the entry
      have hcases : merged[key]? = some record ∨ record = entry.2 := by
        cases hold : merged[key]? with
        | none =>
          rw [hold] at hmerged
          exact .inr (Option.some.inj hmerged).symm
        | some old =>
          rw [hold, better] at hmerged
          split at hmerged
          · exact .inr (Option.some.inj hmerged).symm
          · exact .inl hmerged
      rcases hcases with hold | rfl
      · exact h.1.commands key record hold
      · rw [← hlsn] at hhere
        have hsameKey : visited.key = key := hkey.trans hhere.2
        exact ⟨hsameKey ▸ hrange, visited, hvisited, hsameKey, hhere.1, hrecord⟩
    · exact h.1.commands key record hmerged
  · intro key hkeyRange
    rcases h.2 key hkeyRange with hsettled | ⟨command, hlatest, hholds, hlast⟩
    · left
      cases hsettled with
      | collected command hlatest hmerged =>
        refine .collected command hlatest ?_
        rw [get?_scanEntry]
        split
        · rename_i hhere
          rw [hmerged, hrecord]
          rw [← hlsn] at hhere
          exact latest_better hinv hlatest hvisited (hkey.trans hhere.2) hhere.1 rfl
        · exact hmerged
      | stored command hlatest hversion => exact .stored command hlatest hversion
      | answered hmerged hmemtable hanswer =>
        refine .answered ?_ hmemtable hanswer
        rw [get?_scanEntry, if_neg]
        · exact hmerged
        · rintro ⟨hle, rfl⟩
          have hnone := hmemtable _ hle
          rw [show engine.memtable[toLex ((ofLex entry.1).1, (ofLex entry.1).2)]? = some entry.2
            from hget] at hnone
          cases hnone
    · obtain ⟨⟨hmem, hcommandKey, hle⟩, -⟩ := of_latest_eq_some hinv.store.sorted hlatest
      rw [← hcommandKey] at hlast hkeyRange
      have hbefore := hfirst _ _ hholds (unvisited_of_lt hinv hmem hkeyRange hlast)
      rcases hbefore.lt_or_eq with hlt | heq
      · refine .inr ⟨command, hlatest, hholds, ?_⟩
        intro passed hpassed
        rw [← Option.some.inj hpassed, ← hcommandKey]
        exact hlt
      · -- the entry is the latest command itself
        left
        refine .collected command hlatest ?_
        have hsame : entry.2 = command.inMemtable := by
          rw [heq] at hget
          exact Option.some.inj (hget.symm.trans hholds)
        rw [get?_scanEntry, if_pos, hsame]
        · exact better_of_latest h.1 hinv hlatest
        · rw [heq]
          exact ⟨hle, hcommandKey⟩

/-- At the end of the memtable every key is settled. -/
theorem Scanning.finish (h : Scanning contents wanted range watermark last merged engine)
    (hinv : engine.Invariant fastbloom config contents)
    (hend : nextEntry engine.memtable range last = none) :
    Scanned contents wanted range watermark merged engine := by
  refine ⟨h.1, fun key hrange => ?_⟩
  rcases h.2 key hrange with hsettled | ⟨command, hlatest, hholds, hlast⟩
  · exact hsettled
  · obtain ⟨⟨hmem, rfl, -⟩, -⟩ := of_latest_eq_some hinv.store.sorted hlatest
    exact absurd (unvisited_of_lt hinv hmem hrange hlast) (nextEntry_eq_none hend hholds)

/-- What the tables add to a settled key gives the wanted value. -/
theorem Settled.answer_eq {key : Key} (h : Settled contents engine watermark merged key)
    (hcollects : Collects wanted range watermark merged engine)
    (hinv : engine.Invariant fastbloom config contents) :
    answer (better MemtableRecord.rank merged[key]?
      ((versionsUpTo contents engine.levels watermark key).argmax MemtableRecord.rank))
        = wanted key := by
  rw [hcollects.wanted key]
  cases h with
  | collected command hlatest hmerged =>
    have hkeep : better MemtableRecord.rank (some command.inMemtable)
        ((versionsUpTo contents engine.levels watermark key).argmax MemtableRecord.rank)
          = some command.inMemtable := by
      cases hbest : (versionsUpTo contents engine.levels watermark key).argmax
          MemtableRecord.rank with
      | none => rfl
      | some record =>
        obtain ⟨hversion, hle⟩ := mem_versionsUpTo.mp (List.argmax_mem hbest)
        obtain ⟨other, hother, -, hkey, rfl⟩ := hinv.store.flushed key record hversion
        exact latest_better hinv hlatest hother hkey hle rfl
    rw [hmerged, hkeep, publishedValue, hlatest]
    exact answer_new command
  | stored command hlatest hversion =>
    obtain ⟨⟨hmem, hkey, hle⟩, hmax⟩ := of_latest_eq_some hinv.store.sorted hlatest
    have hbest : (versionsUpTo contents engine.levels watermark key).argmax MemtableRecord.rank
        = some command.record := by
      refine argmax_versions (mem_versionsUpTo.mpr ⟨hversion, hle⟩) ?_ ?_
      · intro other hother
        obtain ⟨hotherVersion, hotherLe⟩ := mem_versionsUpTo.mp hother
        obtain ⟨found, hfound, -, hfoundKey, rfl⟩ := hinv.store.flushed key other hotherVersion
        exact hmax found hfound hfoundKey hotherLe
      · intro other hother hlsn
        exact hinv.store.determined key other _ (mem_versionsUpTo.mp hother).1 hversion hlsn
    rw [hbest, publishedValue, hlatest]
    -- a collected record either loses against the stored one or is the same command
    cases hmerged : merged[key]? with
    | none => exact answer_record command
    | some record =>
      obtain ⟨-, other, hother, hotherKey, hotherLe, rfl⟩ :=
        hcollects.commands key record hmerged
      rw [better]
      split
      · exact answer_record command
      · rename_i hnot
        have heq : other = command := by
          refine hinv.store.sorted.eq_of_lsn hother hmem
            (le_antisymm (hmax other hother hotherKey hotherLe) ?_)
          by_contra hlt
          exact hnot (rank_le_of_lsn_lt (not_le.mp hlt))
        rw [heq]
        exact answer_new command
  | answered hmerged hmemtable hanswer =>
    rw [hmerged]
    exact hanswer

/-- The lookup in the tables completes the scan. -/
theorem Scanned.reading (h : Scanned contents wanted range watermark merged engine)
    (hinv : engine.Invariant fastbloom config contents) (cursor : FileProg.Cursor) :
    ScanReading wanted range engine (scanTables engine.levels range watermark merged) cursor := by
  obtain ⟨last, hrun⟩ := run_scanSstables hinv.tables.stored range watermark merged cursor
  refine ⟨_, last, FileProg.run_bind_ok hrun, ?_⟩
  intro key value
  show (key, value) ∈ liveEntries _ ↔ _
  rw [mem_liveEntries]
  by_cases hrange : keyInRange key range = true
  · rw [get?_foldl_scanRecord range watermark _ _ hrange,
      filter_flatMap_contents fun t ht => (hinv.tables.stored t ht).sorted, keepBest_eq]
    rw [show answer (better MemtableRecord.rank merged[key]? ((tableVersions contents
      engine.levels.tables key).filter _ |>.argmax MemtableRecord.rank)) = wanted key from
        (h.2 key hrange).answer_eq h.1 hinv]
    exact ⟨fun heq => ⟨hrange, heq⟩, fun hboth => hboth.2⟩
  · rw [get?_foldl_scanRecord_of_outside range watermark _ _ (Bool.eq_false_iff.mpr hrange)]
    have hnone : merged[key]? = none := by
      cases hmerged : merged[key]? with
      | none => rfl
      | some record => exact absurd (h.1.commands key record hmerged).1 hrange
    rw [hnone]
    constructor
    · intro heq
      cases heq
    · intro hboth
      exact absurd hboth.1 hrange

/-- The phase of the read does not matter for what is settled. -/
theorem Settled.withReader {key : Key} (h : Settled contents engine watermark merged key)
    (phase : ReaderPhase) :
    Settled contents { engine with reader := phase } watermark merged key := by
  cases h with
  | collected command hlatest hmerged => exact .collected command hlatest hmerged
  | stored command hlatest hversion => exact .stored command hlatest hversion
  | answered hmerged hmemtable hanswer => exact .answered hmerged hmemtable hanswer

theorem Scanning.withReader (h : Scanning contents wanted range watermark last merged engine)
    (phase : ReaderPhase) :
    Scanning contents wanted range watermark last merged { engine with reader := phase } :=
  ⟨⟨h.1.published, h.1.wanted, h.1.commands⟩, fun key hrange =>
    (h.2 key hrange).imp (fun hsettled => hsettled.withReader phase) id⟩

theorem Scanned.withReader (h : Scanned contents wanted range watermark merged engine)
    (phase : ReaderPhase) :
    Scanned contents wanted range watermark merged { engine with reader := phase } :=
  ⟨⟨h.1.published, h.1.wanted, h.1.commands⟩, fun key hrange =>
    (h.2 key hrange).withReader phase⟩

theorem ScanOk.readNext (hscan : ScanOk contents wanted range engine)
    (hinv : engine.Invariant fastbloom config contents)
    (hnext : engine.readNext fastbloom = some engine') : ScanOk contents wanted range engine' := by
  unfold ScanOk at hscan
  rw [Engine.readNext] at hnext
  split at hnext
  · cases hnext
  · cases hnext
  · rename_i call hreader
    rw [hreader] at hscan
    obtain ⟨watermark, rfl, hscanning⟩ := hscan
    split at hnext
    · cases hnext
    · obtain rfl := Option.some.inj hnext
      exact ⟨rfl, hscanning.withReader _⟩
  · rename_i hreader
    rw [hreader] at hscan
    cases hscan
  · rename_i r watermark last merged hreader
    rw [hreader] at hscan
    obtain ⟨rfl, hscanning⟩ := hscan
    split at hnext
    · rename_i entry hentry
      obtain rfl := Option.some.inj hnext
      exact ⟨rfl, (hscanning.visit hinv hentry).withReader _⟩
    · rename_i hend
      obtain rfl := Option.some.inj hnext
      exact ⟨rfl, (hscanning.finish hinv hend).withReader _⟩
  · rename_i hreader
    rw [hreader] at hscan
    cases hscan
  · rename_i r watermark merged hreader
    rw [hreader] at hscan
    obtain ⟨rfl, hscanned⟩ := hscan
    obtain rfl := Option.some.inj hnext
    exact hscanned.reading hinv ([], 0)
  · rename_i result cursor hreader
    rw [hreader] at hscan
    obtain ⟨entries, last, hrun, hreturns⟩ := hscan
    obtain rfl := Option.some.inj hnext
    obtain ⟨rfl, -⟩ := Prod.mk.inj (Except.ok.inj hrun)
    exact ⟨entries, rfl, hreturns⟩
  · rename_i error cursor hreader
    rw [hreader] at hscan
    obtain ⟨entries, last, hrun, -⟩ := hscan
    cases hrun
  · rename_i prog cursor hpure hthrow hreader
    rw [hreader] at hscan
    obtain ⟨entries, last, hrun, hreturns⟩ := hscan
    obtain rfl := Option.some.inj hnext
    exact ⟨entries, last, FileProg.run_next hrun, hreturns⟩

/-- A scan starts where every key is readable. -/
theorem scanOk_start (hinv : engine.Invariant fastbloom config contents)
    (hnext : engine.startRead (.scan range) = some engine') :
    ScanOk contents engine.value range engine' := by
  rw [Engine.startRead] at hnext
  split at hnext
  · obtain rfl := Option.some.inj hnext
    refine ⟨engine.sequenceNumber, rfl, ⟨le_rfl, engine.value_eq, ?_⟩, ?_⟩
    · intro key record hmerged
      rw [OrdMap.get?_empty] at hmerged
      cases hmerged
    · intro key _
      by_cases hheld : ∃ command, latest engine.log engine.sequenceNumber key = some command ∧
          engine.memtable.Holds command
      · obtain ⟨command, hlatest, hholds⟩ := hheld
        exact .inr ⟨command, hlatest, hholds, fun _ hvisited => absurd hvisited
          (Option.not_mem_none _)⟩
      · -- the memtable has no version of the key, and all table versions are published
        left
        have hempty := hinv.store.getFromMemtable_of_not_holds le_rfl
          fun command hlatest hholds => hheld ⟨command, hlatest, hholds⟩
        rw [hinv.store.valid.getFromMemtable_eq_argmax, List.argmax_eq_none,
          List.eq_nil_iff_forall_not_mem] at hempty
        refine .answered (OrdMap.get?_empty key) ?_ ?_
        · intro lsn hle
          cases hget : engine.memtable[toLex (key, lsn)]? with
          | none => rfl
          | some record =>
            exact absurd (Memtable.mem_versions.mpr ⟨lsn, hle, hget⟩) (hempty record)
        · rw [tableAnswerAt_eq hinv.store.determined]
          · exact (hinv.store.readable key).resolve_left hheld
          · intro record hversion
            obtain ⟨command, -, hle, -, rfl⟩ := hinv.store.flushed key record hversion
            exact hle
  · cases hnext

/-! ### Whole scans -/

/-- Steps of a read keep the invariant of runs without compactions. -/
theorem ScanInvariant.withReader (h : ScanInvariant fastbloom config contents engine)
    {phase : ReaderPhase}
    (hinv : ({ engine with reader := phase } : Engine).Invariant fastbloom config contents) :
    ScanInvariant fastbloom config contents { engine with reader := phase } :=
  { hinv with kept := h.kept, idle := h.idle }

theorem ScanInvariant.readNext (h : ScanInvariant fastbloom config contents engine)
    (hnext : engine.readNext fastbloom = some engine') :
    ScanInvariant fastbloom config contents engine' := by
  have hinv := h.toInvariant.readNext hnext
  rw [(readNext_eq hnext).1] at hinv ⊢
  exact h.withReader hinv

theorem ScanInvariant.startRead (h : ScanInvariant fastbloom config contents engine)
    {call : Nat → ReadCall} (hnext : engine.startRead call = some engine') :
    ScanInvariant fastbloom config contents engine' := by
  have hinv := h.toInvariant.startRead hnext
  rw [Engine.startRead] at hnext
  split at hnext
  · obtain rfl := Option.some.inj hnext
    exact h.withReader hinv
  · cases hnext

/-- Every step of a run without compactions keeps the invariant. -/
theorem ScanInvariant.step (h : ScanInvariant fastbloom config contents engine) {event : Event}
    (hcompacts : compacts event = false) :
    ∃ contents', ScanInvariant fastbloom config contents' (engine.step fastbloom config event) := by
  rw [Engine.step]
  cases hnext : engine.next fastbloom config event with
  | none => exact ⟨contents, h⟩
  | some engine' =>
    by_cases hread : isRead event = false
    · obtain ⟨contents', hstep⟩ := h.next hcompacts hread hnext
      exact ⟨contents', hstep.invariant⟩
    · cases event with
      | startGet key => exact ⟨contents, h.startRead hnext⟩
      | startScan range => exact ⟨contents, h.startRead hnext⟩
      | readNext => exact ⟨contents, h.readNext hnext⟩
      | _ => exact absurd rfl hread

theorem ScanInvariant.run (h : ScanInvariant fastbloom config contents engine)
    {events : List Event} (hevents : ∀ event ∈ events, compacts event = false) :
    ∃ contents', ScanInvariant fastbloom config contents'
      (engine.run fastbloom config events) := by
  induction events generalizing engine contents with
  | nil => exact ⟨contents, h⟩
  | cons event events ih =>
    obtain ⟨contents', hstep⟩ := h.step (hevents event List.mem_cons_self)
    exact ih hstep fun other hother => hevents other (List.mem_cons_of_mem event hother)

/-- Every step of a run is safe. -/
def SafeRun (fastbloom : FastBloom) (config : StorageConfig) (engine : Engine) :
    List Event → Prop
  | [] => True
  | event :: events => engine.scanSafe event = true ∧
      (engine.step fastbloom config event).SafeRun fastbloom config events

instance decidableSafeRun (fastbloom : FastBloom) (config : StorageConfig) :
    ∀ (engine : Engine) (events : List Event), Decidable (engine.SafeRun fastbloom config events)
  | _, [] => inferInstanceAs (Decidable True)
  | engine, event :: events =>
    have := decidableSafeRun fastbloom config (engine.step fastbloom config event) events
    inferInstanceAs (Decidable (_ ∧ _))

theorem ScanOk.run {events : List Event} (hcontinues : Continues events)
    (hcompacts : ∀ event ∈ events, compacts event = false)
    (hsafe : engine.SafeRun fastbloom config events) (hscan : ScanOk contents wanted range engine)
    (h : ScanInvariant fastbloom config contents engine) :
    ∃ contents', ScanInvariant fastbloom config contents'
        (engine.run fastbloom config events) ∧
      ScanOk contents' wanted range (engine.run fastbloom config events) := by
  induction events generalizing engine contents with
  | nil => exact ⟨contents, h, hscan⟩
  | cons event events ih =>
    have hstep : ∃ contents',
        ScanInvariant fastbloom config contents' (engine.step fastbloom config event) ∧
          ScanOk contents' wanted range (engine.step fastbloom config event) := by
      rw [Engine.step]
      cases hnext : engine.next fastbloom config event with
      | none => exact ⟨contents, h, hscan⟩
      | some engine' =>
        by_cases hread : isRead event = false
        · obtain ⟨contents', hstep⟩ := h.next (hcompacts event List.mem_cons_self) hread hnext
          exact ⟨contents', hstep.invariant, hscan.change h.toInvariant hsafe.1 hstep⟩
        · obtain rfl := hcontinues.readNext hread
          exact ⟨contents, h.readNext hnext, hscan.readNext h.toInvariant hnext⟩
    obtain ⟨contents', h', hscan'⟩ := hstep
    exact ih hcontinues.tail (fun other hother => hcompacts other
      (List.mem_cons_of_mem event hother)) hsafe.2 hscan' h'

/-! ### The end of a scan -/

/-- A scan that is not kept from its lease ends. -/
theorem ScanOk.ends (hscan : ScanOk contents wanted range engine)
    (hinv : engine.Invariant fastbloom config contents)
    (hfree : engine.publicationHeld = false) : engine.Ends fastbloom config := by
  have hreading : ∀ engine : Engine, ∀ prog cursor, engine.reader = .reading prog cursor →
      ScanOk contents wanted range engine → engine.Ends fastbloom config := by
    intro engine prog cursor hreader hscan
    unfold ScanOk at hscan
    rw [hreader] at hscan
    obtain ⟨entries, last, hrun, -⟩ := hscan
    obtain ⟨n, hn⟩ := FileProg.exists_iterate_next hrun
    exact ends_of_iterate hreader hn
  have hscanned : ∀ engine : Engine, engine.Invariant fastbloom config contents →
      ScanOk contents wanted range engine → ∀ r watermark merged,
        engine.reader = .scanned r watermark merged → engine.Ends fastbloom config := by
    intro engine hinv hscan r watermark merged hreader
    have hnext : engine.readNext fastbloom = some { engine with
        reader := .reading (scanTables engine.levels r watermark merged) ([], 0) } := by
      rw [Engine.readNext, hreader]
    exact Ends.of_readNext hnext (hreading _ _ _ rfl (hscan.readNext hinv hnext))
  -- each visit leaves fewer entries behind the last one
  have hscanning : ∀ n, ∀ engine : Engine, engine.Invariant fastbloom config contents →
      ScanOk contents wanted range engine → ∀ r watermark last merged,
        engine.reader = .scanning r watermark last merged →
          (behind engine.memtable last).length ≤ n → engine.Ends fastbloom config := by
    intro n
    induction n with
    | zero =>
      intro engine hinv hscan r watermark last merged hreader hlength
      have hend : nextEntry engine.memtable r last = none := by
        cases hentry : nextEntry engine.memtable r last with
        | none => rfl
        | some entry =>
          have hlt := length_behind_lt hentry
          omega
      have hnext : engine.readNext fastbloom
          = some { engine with reader := .scanned r watermark merged } := by
        rw [Engine.readNext, hreader]
        simp only [hend]
      exact Ends.of_readNext hnext
        (hscanned _ (hinv.readNext hnext) (hscan.readNext hinv hnext) _ _ _ rfl)
    | succ n ih =>
      intro engine hinv hscan r watermark last merged hreader hlength
      cases hentry : nextEntry engine.memtable r last with
      | none =>
        have hnext : engine.readNext fastbloom
            = some { engine with reader := .scanned r watermark merged } := by
          rw [Engine.readNext, hreader]
          simp only [hentry]
        exact Ends.of_readNext hnext
          (hscanned _ (hinv.readNext hnext) (hscan.readNext hinv hnext) _ _ _ rfl)
      | some entry =>
        have hnext : engine.readNext fastbloom = some { engine with
            reader := .scanning r watermark (some entry.1)
              (scanEntry watermark merged entry) } := by
          rw [Engine.readNext, hreader]
          simp only [hentry]
        have hlt := length_behind_lt hentry
        exact Ends.of_readNext hnext (ih _ (hinv.readNext hnext) (hscan.readNext hinv hnext)
          _ _ _ _ rfl (Nat.le_of_lt_succ (lt_of_lt_of_le hlt hlength)))
  cases hreader : engine.reader with
  | idle | leased | missed =>
    unfold ScanOk at hscan
    rw [hreader] at hscan
    cases hscan
  | done result => exact ⟨0, result, hreader⟩
  | reading prog cursor => exact hreading engine prog cursor hreader hscan
  | scanned r watermark merged => exact hscanned engine hinv hscan r watermark merged hreader
  | scanning r watermark last merged =>
    exact hscanning _ engine hinv hscan r watermark last merged hreader le_rfl
  | loaded call =>
    have hnext : engine.readNext fastbloom
        = some { engine with reader := leasePhase call } := by
      rw [Engine.readNext, hreader]
      simp only [hfree, Bool.false_eq_true, if_false]
    have hcall : ∃ watermark, call = .scan range watermark := by
      unfold ScanOk at hscan
      rw [hreader] at hscan
      exact ⟨hscan.choose, hscan.choose_spec.1⟩
    obtain ⟨watermark, rfl⟩ := hcall
    exact Ends.of_readNext hnext (hscanning _ _ (hinv.readNext hnext)
      (hscan.readNext hinv hnext) _ _ _ _ rfl le_rfl)

end Engine

/-- Scans next to batches and flushes. Take an engine that was opened, a run of batches, flushes and
reads up to a moment at which no read is in progress, a scan that starts there, and any interleaving
of it with batches and flushes in which every removal is safe for the scan. Then further steps of the
scan end it, every key of the range that is live at every instant of the scan is in the result, and
every value of the result is one its key had during the scan. -/
theorem scan_keeps_keys (fastbloom : FastBloom) (config : StorageConfig) {contents : Contents}
    {engine : Engine} (hopened : engine.Opened fastbloom contents) (range : KeyRange)
    (before during : List Event) (hduring : Engine.Continues during)
    (hcompacts : ∀ event ∈ before ++ during, Engine.compacts event = false)
    (hfree : (engine.run fastbloom config before).readerFree = true)
    (hsafe : ((engine.run fastbloom config before).step fastbloom config
      (.startScan range)).SafeRun fastbloom config during) :
    let start := (engine.run fastbloom config before).step fastbloom config (.startScan range)
    (start.run fastbloom config during).Ends fastbloom config ∧
    ∀ result, (start.run fastbloom config during).returned = some result →
      ∃ entries, result = .ok (.entries entries) ∧
        (∀ key, keyInRange key range = true →
          (∀ state ∈ start.states fastbloom config during, (state.value key).isSome = true) →
            ∃ value, (key, value) ∈ entries) ∧
        ∀ key value, (key, value) ∈ entries →
          ∃ state ∈ start.states fastbloom config during, state.value key = some value := by
  intro start
  have hopen : Engine.ScanInvariant fastbloom config contents engine :=
    { hopened.invariant config with
      kept := by
        rw [Engine.FlushKept, hopened.writer]
        exact trivial
      idle := hopened.compaction }
  obtain ⟨contents₁, hinv⟩ := hopen.run fun event hmem =>
    hcompacts event (List.mem_append_left during hmem)
  have hstart : (engine.run fastbloom config before).startRead (.scan range) = some start := by
    show _ = some (((engine.run fastbloom config before).startRead (.scan range)).getD _)
    rw [Engine.startRead, if_pos hfree]
    rfl
  have hvalue : (engine.run fastbloom config before).value = start.value := by
    rw [Engine.startRead, if_pos hfree] at hstart
    rw [← Option.some.inj hstart]
    rfl
  have hscan := Engine.scanOk_start hinv.toInvariant hstart
  rw [hvalue] at hscan
  obtain ⟨contents₂, hinv₂, hscan₂⟩ := hscan.run hduring (fun event hmem =>
    hcompacts event (List.mem_append_right before hmem)) hsafe (hinv.startRead hstart)
  have hheld : (start.run fastbloom config during).publicationHeld = false := by
    rw [Engine.publicationHeld, hinv₂.idle]
  refine ⟨hscan₂.ends hinv₂.toInvariant hheld, ?_⟩
  intro result hdone
  unfold Engine.ScanOk at hscan₂
  rw [Engine.reader_of_returned hdone] at hscan₂
  obtain ⟨entries, hresult, hreturns⟩ := hscan₂
  have hmem : start ∈ start.states fastbloom config during := Engine.self_mem_states start during
  refine ⟨entries, hresult, ?_, ?_⟩
  · intro key hrange hlive
    obtain ⟨value, hvalue⟩ := Option.isSome_iff_exists.mp (hlive start hmem)
    exact ⟨value, (hreturns key value).mpr ⟨hrange, hvalue⟩⟩
  · intro key value hentry
    exact ⟨start, hmem, ((hreturns key value).mp hentry).2⟩

/-- A flush removes the entry of the key after the scan took its lease and before it gets to the
entry. The scan finds the record in the new table. -/
theorem scan_keeps_keys_acrossFlush :
    let start := (Engine.empty.run .acceptAll .default publishedPut).step .acceptAll .default
      (.startScan (.single [97]))
    (start.run .acceptAll .default readAcrossFlush).returned
        = some (.ok (.entries [([97], [118])])) ∧
      ∃ state ∈ start.states .acceptAll .default readAcrossFlush,
        state.value [97] = some [118] := by
  intro start
  have hreturned : (start.run .acceptAll .default readAcrossFlush).returned
      = some (.ok (.entries [([97], [118])])) := by decide +kernel
  obtain ⟨entries, hentries, -, hvalues⟩ := (scan_keeps_keys .acceptAll .default
    (Engine.opened_empty .acceptAll fun _ => []) (.single [97]) publishedPut readAcrossFlush
    (by unfold Engine.Continues; decide) (by decide) (by decide +kernel)
    (by decide +kernel)).2 _ hreturned
  obtain rfl := ReadResult.entries.inj (Except.ok.inj hentries)
  exact ⟨hreturned, hvalues [97] [118] List.mem_cons_self⟩

/-- A scan at watermark 1, an overwrite above it, and a flush of both versions. -/
def overwriteAndFlush : List Event :=
  [.beginGroup [[.put [97] [119]]], .insertNext, .storeSequence, .beginFlush, .registerTable 1,
    .commitFlush, .removeNext, .removeNext] ++ List.replicate 40 .readNext

/-- The flush keeps only the version above the watermark. The key has a value at every instant, and
the scan does not return it. -/
theorem scan_loses_key :
    let start := (Engine.empty.run .acceptAll .default publishedPut).step .acceptAll .default
      (.startScan (.single [97]))
    (start.run .acceptAll .default overwriteAndFlush).returned = some (.ok (.entries [])) ∧
      ∀ state ∈ start.states .acceptAll .default overwriteAndFlush,
        (state.value [97]).isSome = true := by
  decide +kernel

end CereDB.Storage
