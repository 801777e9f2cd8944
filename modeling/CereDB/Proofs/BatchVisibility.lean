import CereDB.Proofs.GroupCommit
import CereDB.Proofs.MemtableCursor
import CereDB.Proofs.StoreReads

/-!
# `CereDB.Proofs.BatchVisibility`: a read sees whole batches

A read loads the sequence number once and then looks at a memtable that changes under it. Two facts
make it see the state at the load. What is inserted later is above the sequence number the read
loaded, so up to that number the memtable stays the same (`Reads.same`). And the sequence number
covers whole batches (`Commits.watermark`), so what it lets through is a number of whole batches
(`Commits.shows`).
-/

set_option autoImplicit false

namespace CereDB.Storage

open CereDB.Lib ReadManager

namespace GroupCommit

section
variable {contents : Contents} {log : List LogCommand} {sequenceNumber : Nat} {memtable : Memtable}
  {levels : Levels}

/-! ### Inserting many records -/

/-- Commands that are not published yet go into the memtable. -/
theorem storeInvariant_insertAll
    (h : StoreInvariant contents log sequenceNumber memtable levels) {commands : List LogCommand}
    (hcommands : ∀ command ∈ commands, command ∈ log ∧ sequenceNumber < command.lsn) :
    StoreInvariant contents log sequenceNumber (commands.foldl insertCommand memtable) levels := by
  induction commands generalizing memtable with
  | nil => exact h
  | cons command commands ih =>
    obtain ⟨hmem, hlsn⟩ := hcommands command List.mem_cons_self
    exact ih (h.insert hmem hlsn) fun other hother =>
      hcommands other (List.mem_cons_of_mem command hother)

/-- A command that was inserted, or was there before, is in the memtable. -/
theorem holds_insertAll (hsorted : LsnSorted log) {commands : List LogCommand}
    (hcommands : ∀ command ∈ commands, command ∈ log) {command : LogCommand} (hmem : command ∈ log)
    (h : command ∈ commands ∨ memtable.Holds command) :
    (commands.foldl insertCommand memtable).Holds command := by
  induction commands generalizing memtable with
  | nil => exact h.resolve_left List.not_mem_nil
  | cons added commands ih =>
    refine ih (fun other hother => hcommands other (List.mem_cons_of_mem added hother)) ?_
    by_cases htail : command ∈ commands
    · exact .inl htail
    · refine .inr (StoreInvariant.holds_append.mpr ?_)
      by_cases hplace : added.key = command.key ∧ added.lsn = command.lsn
      · rw [if_pos hplace,
          hsorted.eq_of_lsn (hcommands added List.mem_cons_self) hmem hplace.2]
      · rw [if_neg hplace]
        refine h.resolve_left fun hin => ?_
        rcases List.mem_cons.mp hin with rfl | hin
        · exact hplace ⟨rfl, rfl⟩
        · exact htail hin

end

section
variable {fastbloom : FastBloom} {store : Store} {state state' : GroupCommit}
  {winners : List Request} {published group : List CommittedBatch} {inserted : List LogCommand}
  {contents : Contents} {log : List LogCommand} {nextFileId : Nat}

/-! ### The store of a state -/

/-- The sequence numbers of the batches fit into `u64`. -/
theorem Commits.limit (h : Commits store state winners published group inserted) :
    store.component.sequenceNumber + (commandsOf state.journal.committed).length < u64Limit := by
  by_cases hidle : ∀ runner ∈ state.runners, runner.publishes = false
  · obtain ⟨-, hpublished⟩ := h.published_eq hidle
    rw [← hpublished, ← h.sequence]
    exact h.sequence_lt
  · simp only [not_forall, Bool.not_eq_false] at hidle
    obtain ⟨runner, hrunner, hpublishes⟩ := hidle
    cases runner with
    | publishing requests pending nextLsn =>
      obtain ⟨heq, hlt⟩ := h.nextLsn requests pending nextLsn hrunner
      rw [← heq]
      exact hlt
    | ready => cases hpublishes
    | drained requests => cases hpublishes
    | completing requests result => cases hpublishes

/-- The commands of the batches can be stored: `write_batch` let their requests in. -/
theorem Commits.storable (h : Commits store state winners published group inserted)
    (hline : InLine state) :
    ∀ command ∈ commandsOf state.journal.committed, command.record.Storable := by
  intro command hcommand
  have hlimit := h.limit
  rw [h.committed] at hcommand hlimit
  have hbound := (lsn_commandsOf hcommand).2
  rw [commandsOf_numberedBatches] at hcommand
  obtain ⟨-, -, operation, hoperation, heq⟩ := lsn_numbered hcommand
  obtain ⟨request, hrequest, hin⟩ := List.mem_flatMap.mp hoperation
  have hissued : request ∈ state.journal.issued :=
    h.order.subset (List.mem_append_left _ hrequest)
  obtain ⟨-, bytes, hvalid⟩ := hline.admitted request hissued
  rw [heq]
  exact storable_toCommand (validateBatch_ok hvalid operation hin) (by omega)

theorem Commits.sorted (h : Commits store state winners published group inserted) :
    LsnSorted (commandsOf state.journal.committed) := by
  rw [h.committed, commandsOf_numberedBatches]
  exact lsnSorted_numbered _ _

/-- The store of a state holds the batches behind the log from the start. -/
theorem Commits.storeInvariant (h : Commits store state winners published group inserted)
    (hline : InLine state)
    (hstore : StoreInvariant contents log store.component.sequenceNumber store.component.memtable
      store.levels)
    (hlog : ∀ command ∈ log, command.lsn ≤ store.component.sequenceNumber) :
    StoreInvariant contents (log ++ commandsOf state.journal.committed)
      state.store.component.sequenceNumber state.store.component.memtable store.levels := by
  obtain ⟨later, hinserted⟩ := h.visible
  obtain ⟨hbelow, habove⟩ := h.watermark
  have hsorted := h.sorted
  have hstorable := h.storable hline
  have hmemtable := h.memtable
  have hpending := h.pending
  have hfirst : ∀ command ∈ commandsOf state.journal.committed,
      store.component.sequenceNumber < command.lsn := by
    intro command hcommand
    rw [h.committed] at hcommand
    exact (lsn_commandsOf hcommand).1
  rw [h.split, commandsOf_append] at hsorted hstorable hpending hfirst
  rw [← hinserted, List.append_assoc, List.append_cancel_left_eq] at hpending
  rw [h.split, commandsOf_append, hmemtable, ← hinserted, List.foldl_append, ← List.append_assoc]
  -- the published batches are logged, inserted and published
  have hpublished : StoreInvariant contents (log ++ commandsOf published)
      state.store.component.sequenceNumber
      ((commandsOf published).foldl insertCommand store.component.memtable) store.levels := by
    have hlogged := hstore.log_append hlog (List.pairwise_append.mp hsorted).1
      (fun command hcommand => hstorable command (List.mem_append_left _ hcommand))
      (fun command hcommand => hfirst command (List.mem_append_left _ hcommand))
    have hin := storeInvariant_insertAll hlogged fun command hcommand =>
      ⟨List.mem_append_right log hcommand, hfirst command (List.mem_append_left _ hcommand)⟩
    refine hin.publish (by rw [h.sequence]; exact Nat.le_add_right _ _) ?_
    intro command hcommand hlsn
    refine holds_insertAll hlogged.sorted (fun other => List.mem_append_right log) hcommand ?_
    exact .inl ((List.mem_append.mp hcommand).resolve_left fun hold =>
      absurd (hlog command hold) (not_le.mpr hlsn))
  -- the group is logged, and a part of it inserted
  have hgroup : StoreInvariant contents (log ++ commandsOf published ++ commandsOf group)
      state.store.component.sequenceNumber
      ((commandsOf published).foldl insertCommand store.component.memtable) store.levels := by
    refine hpublished.log_append (fun command hcommand => ?_) (List.pairwise_append.mp hsorted).2.1
      (fun command hcommand => hstorable command (List.mem_append_right _ hcommand)) habove
    rcases List.mem_append.mp hcommand with hold | hnew
    · refine (hlog command hold).trans ?_
      rw [h.sequence]
      exact Nat.le_add_right _ _
    · exact hbelow command hnew
  refine storeInvariant_insertAll hgroup fun command hcommand => ?_
  have hin : command ∈ commandsOf group := by
    rw [← hpending]
    exact List.mem_append_left _ hcommand
  exact ⟨List.mem_append_right _ hin, habove command hin⟩

/-- A read that is not disturbed sees the batches up to the sequence number, and nothing of the
group in progress. -/
theorem Commits.shows (h : Commits store state winners published group inserted)
    (hline : InLine state)
    (hstore : StoreInvariant contents log store.component.sequenceNumber store.component.memtable
      store.levels)
    (hlog : ∀ command ∈ log, command.lsn ≤ store.component.sequenceNumber)
    (htables : TableInvariant fastbloom store.files contents store.levels nextFileId) :
    Shows fastbloom store.files state.store.component.memtable store.levels
      state.store.component.sequenceNumber (commandMap (log ++ commandsOf published)) := by
  have hshows := (h.storeInvariant hline hstore hlog).shows htables
  have hvisible : publishedCommands (log ++ commandsOf state.journal.committed)
      state.store.component.sequenceNumber = log ++ commandsOf published := by
    obtain ⟨hbelow, habove⟩ := h.watermark
    rw [publishedCommands, h.split, commandsOf_append, ← List.append_assoc, List.filter_append,
      List.filter_eq_self.mpr, List.filter_eq_nil_iff.mpr, List.append_nil]
    · intro command hcommand
      simpa using habove command hcommand
    · intro command hcommand
      rcases List.mem_append.mp hcommand with hold | hnew
      · have hle := hlog command hold
        rw [h.sequence]
        exact decide_eq_true (by omega)
      · exact decide_eq_true (hbelow command hnew)
  rw [hvisible] at hshows
  exact hshows

/-! ### The read -/

/-- The sequence number a read loaded. -/
def watermark : ReadCall → Nat
  | .get _ sequenceNumber => sequenceNumber
  | .scan _ sequenceNumber => sequenceNumber

/-- What a read returns that runs at once on the store of a state. -/
def atOnce (fastbloom : FastBloom) (state : GroupCommit) (call : ReadCall) : Exec ReadResult :=
  state.readTables (call.prog fastbloom state.store.component.memtable state.store.levels)

/-- A scan goes over the memtable and then over the tables. -/
theorem readTables_scan (origin : GroupCommit) (range : KeyRange) (sequenceNumber : Nat) :
    atOnce fastbloom origin (.scan range sequenceNumber)
      = origin.readTables (Engine.scanTables origin.store.levels range sequenceNumber
          (scanMemtable origin.store.component.memtable range sequenceNumber)) := by
  rw [atOnce, ReadCall.prog, readTables, readTables, FileProg.result, FileProg.result, scanRange,
    scanRecordsRange, Engine.scanTables]
  simp only [FileProg.run_bind]
  cases FileProg.run fileErrors origin.store.files (scanSstables range sequenceNumber
    (origin.store.levels.byLevel.flatMap fun level => level.2)
    (scanMemtable origin.store.component.memtable range sequenceNumber)) ([], 0) <;> rfl

/-- How far a read got that loaded the sequence number in the state `origin`. -/
def Phase (fastbloom : FastBloom) (origin : GroupCommit) (call : ReadCall) :
    MemtableRead → Prop
  | .idle => False
  | .loaded loaded => loaded = call
  | .scanning range sequenceNumber last merged => call = .scan range sequenceNumber ∧
      merged = (Engine.visited origin.store.component.memtable range sequenceNumber last).foldl
        (scanEntry sequenceNumber) ∅
  | .done result => result = atOnce fastbloom origin call

/-- A read that loaded the sequence number in the state `origin`, and what it still finds there. -/
structure Reads (fastbloom : FastBloom) (origin : GroupCommit) (call : ReadCall)
    (state : GroupCommit) : Prop where
  levels : state.store.levels = origin.store.levels
  files : state.store.files = origin.store.files
  below : watermark call ≤ state.store.component.sequenceNumber
  same : Engine.SameUpTo (watermark call) origin.store.component.memtable
    state.store.component.memtable
  phase : Phase fastbloom origin call state.reader

section
variable {origin : GroupCommit} {call : ReadCall}

/-- A record that is still to insert is above the sequence number. -/
theorem Commits.lt_pending (h : Commits store state winners published group inserted)
    {requests : List Request} {command : LogCommand} {pending : List LogCommand} {nextLsn : Nat}
    (hrunner : .publishing requests (command :: pending) nextLsn ∈ state.runners) :
    state.store.component.sequenceNumber < command.lsn := by
  obtain ⟨later, hinserted⟩ := h.visible
  have hpending := h.pending
  rw [h.split, commandsOf_append, ← hinserted, List.append_assoc,
    List.append_cancel_left_eq] at hpending
  refine h.watermark.2 command ?_
  rw [← hpending]
  exact List.mem_append_right _ (List.mem_flatMap.mpr ⟨_, hrunner, List.mem_cons_self⟩)

/-- The store can change under a read: up to the sequence number it loaded nothing does. -/
theorem Reads.storeChange (h : Reads fastbloom origin call state)
    (hcommits : Commits store state winners published group inserted)
    (hchange : StoreChange state state'.store)
    (hphase : Phase fastbloom origin call state'.reader) : Reads fastbloom origin call state' := by
  obtain ⟨store', queue, elected, runners, reader, journal⟩ := state'
  cases hchange with
  | same => exact { h with phase := hphase }
  | appended plan wal => exact ⟨h.levels, h.files, h.below, h.same, hphase⟩
  | inserted requests command pending nextLsn hrunner =>
    have hlt := hcommits.lt_pending hrunner
    refine ⟨h.levels, h.files, h.below, fun entry hle => ?_, hphase⟩
    show (insertCommand state.store.component.memtable command)[entry]? = _
    rw [insertCommand, Memtable.append, OrdMap.get?_insert, if_neg, h.same entry hle]
    rintro rfl
    exact absurd (h.below.trans_lt hlt) (not_lt.mpr hle)
  | stored requests nextLsn hrunner =>
    refine ⟨h.levels, h.files, h.below.trans ?_, h.same, hphase⟩
    show _ ≤ nextLsn
    rw [(hcommits.nextLsn requests [] nextLsn hrunner).1, hcommits.sequence, hcommits.split,
      commandsOf_append, List.length_append]
    omega

/-- One step of the read. -/
theorem Reads.readNext (h : Reads fastbloom origin call state)
    (hnext : state.readNext fastbloom = some state') : Reads fastbloom origin call state' := by
  obtain ⟨hlevels, hfiles, hbelow, hsame, hphase⟩ := h
  rw [GroupCommit.readNext] at hnext
  have htables (prog : ReadFile ReadResult) : state.readTables prog = origin.readTables prog := by
    rw [readTables, readTables, hfiles]
  cases hreader : state.reader with
  | idle =>
    rw [hreader] at hphase
    exact hphase.elim
  | done result =>
    rw [hreader] at hnext
    cases hnext
  | loaded loaded =>
    rw [hreader] at hnext hphase
    obtain rfl : loaded = call := hphase
    cases loaded with
    | get key sequenceNumber =>
      have hget : getFromMemtable state.store.component.memtable key sequenceNumber
          = getFromMemtable origin.store.component.memtable key sequenceNumber :=
        hsame.getFromMemtable_eq key
      cases hfound : getFromMemtable origin.store.component.memtable key sequenceNumber with
      | some record =>
        simp only [hget, hfound] at hnext
        obtain rfl := Option.some.inj hnext
        refine ⟨hlevels, hfiles, hbelow, hsame, ?_⟩
        show _ = atOnce fastbloom origin _
        rw [atOnce, ReadCall.prog, ReadManager.get, hfound]
        rfl
      | none =>
        simp only [hget, hfound] at hnext
        obtain rfl := Option.some.inj hnext
        refine ⟨hlevels, hfiles, hbelow, hsame, ?_⟩
        show state.readTables _ = atOnce fastbloom origin _
        rw [atOnce, ReadCall.prog, ReadManager.get, hfound, htables, hlevels]
        rfl
    | scan range sequenceNumber =>
      obtain rfl := Option.some.inj hnext
      exact ⟨hlevels, hfiles, hbelow, hsame, rfl, by rw [Engine.visited_none]; rfl⟩
  | scanning range sequenceNumber last merged =>
    rw [hreader] at hnext hphase
    obtain ⟨rfl, rfl⟩ := hphase
    have hvisited (last : Option (Key ×ₗ Nat)) :
        Engine.visited state.store.component.memtable range sequenceNumber last
          = Engine.visited origin.store.component.memtable range sequenceNumber last :=
      hsame.visited_eq
    have hscan : scanMemtable state.store.component.memtable range sequenceNumber
        = scanMemtable origin.store.component.memtable range sequenceNumber :=
      hsame.scanMemtable_eq
    cases hentry : Engine.nextEntry state.store.component.memtable range last with
    | some entry =>
      simp only [hentry] at hnext
      obtain rfl := Option.some.inj hnext
      refine ⟨hlevels, hfiles, hbelow, hsame, rfl, ?_⟩
      rw [← hvisited, ← hvisited, Engine.foldl_visited_next hentry]
    | none =>
      simp only [hentry] at hnext
      obtain rfl := Option.some.inj hnext
      refine ⟨hlevels, hfiles, hbelow, hsame, ?_⟩
      show state.readTables _ = atOnce fastbloom origin _
      rw [← hvisited, Engine.foldl_visited_of_end hentry, hscan, htables, hlevels]
      exact (readTables_scan origin range sequenceNumber).symm

/-- The event starts a read. -/
def startsRead : CommitEvent → Bool
  | .startGet _ | .startScan _ => true
  | _ => false

theorem Reads.next (h : Reads fastbloom origin call state) (hline : InLine state)
    (hcommits : Commits store state winners published group inserted) {event : CommitEvent}
    (hevent : startsRead event = false) (hnext : state.next fastbloom event = some state') :
    Reads fastbloom origin call state' := by
  obtain ⟨hchange, hreader⟩ := storeChange_next hline hnext
  cases hreads : reads event with
  | false =>
    refine h.storeChange hcommits hchange ?_
    rw [hreader hreads]
    exact h.phase
  | true =>
    cases event with
    | readNext => exact h.readNext hnext
    | startGet key => cases hevent
    | startScan range => cases hevent
    | _ => cases hreads

/-! ### Runs -/

theorem commits_run (fastbloom : FastBloom) (hsequence : store.component.sequenceNumber < u64Limit)
    (events : List CommitEvent) :
    InLine ((start store).run fastbloom events) ∧ ∃ winners published group inserted,
      Commits store ((start store).run fastbloom events) winners published group inserted := by
  refine run_induction (P := fun state => InLine state ∧ ∃ winners published group inserted,
    Commits store state winners published group inserted) (fun state event state' h hnext => ?_)
    ⟨inLine_start store, _, _, _, _, commits_start store hsequence⟩ events
  obtain ⟨hline, _, _, _, _, hcommits⟩ := h
  exact ⟨hline.next hnext, hcommits.next hline hnext⟩

/-- A read goes on over any events. -/
theorem Reads.run (h : Reads fastbloom origin call state) (hline : InLine state)
    (hcommits : Commits store state winners published group inserted) {events : List CommitEvent}
    (hevents : ∀ event ∈ events, startsRead event = false) :
    Reads fastbloom origin call (state.run fastbloom events) := by
  induction events generalizing state winners published group inserted with
  | nil => exact h
  | cons event events ih =>
    have hrest : ∀ other ∈ events, startsRead other = false := fun other hother =>
      hevents other (List.mem_cons_of_mem event hother)
    show Reads fastbloom origin call ((state.step fastbloom event).run fastbloom events)
    rw [step]
    cases hnext : state.next fastbloom event with
    | none => exact ih h hline hcommits hrest
    | some state' =>
      obtain ⟨_, _, _, _, hcommits'⟩ := hcommits.next hline hnext
      exact ih (h.next hline hcommits (hevents event List.mem_cons_self) hnext)
        (hline.next hnext) hcommits' hrest

/-! ### The end of a read -/

/-- The read returns after some more steps of its own. -/
def Ends (fastbloom : FastBloom) (state : GroupCommit) : Prop :=
  ∃ steps result, (state.run fastbloom (List.replicate steps .readNext)).reader = .done result

theorem ends_of_readNext (state' : GroupCommit) (hnext : state.readNext fastbloom = some state')
    (h : Ends fastbloom state') : Ends fastbloom state := by
  obtain ⟨steps, result, hdone⟩ := h
  refine ⟨steps + 1, result, ?_⟩
  show ((state.step fastbloom .readNext).run fastbloom (List.replicate steps .readNext)).reader = _
  rw [step, GroupCommit.next, hnext]
  exact hdone

theorem ends_of_done {result : Exec ReadResult} (h : state.reader = .done result) :
    Ends fastbloom state :=
  ⟨0, result, h⟩

/-- A scan gets to the end of the memtable: the entries behind it get fewer. -/
theorem ends_of_scanning {range : KeyRange} {sequenceNumber : Nat} {last : Option (Key ×ₗ Nat)}
    {merged : Merged} (h : state.reader = .scanning range sequenceNumber last merged) :
    Ends fastbloom state := by
  induction hbehind : (Engine.behind state.store.component.memtable last).length
    using Nat.strong_induction_on generalizing state last merged with
  | h n ih =>
    cases hentry : Engine.nextEntry state.store.component.memtable range last with
    | none =>
      refine ends_of_readNext { state with reader := .done (state.readTables
        (Engine.scanTables state.store.levels range sequenceNumber merged)) } ?_
        (ends_of_done rfl)
      rw [GroupCommit.readNext, h]
      simp only [hentry]
    | some entry =>
      refine ends_of_readNext { state with
        reader := .scanning range sequenceNumber (some entry.1)
          (scanEntry sequenceNumber merged entry) } ?_ ?_
      · rw [GroupCommit.readNext, h]
        simp only [hentry]
      · refine ih _ ?_ rfl rfl
        rw [← hbehind]
        exact Engine.length_behind_lt hentry

theorem Reads.ends (h : Reads fastbloom origin call state) : Ends fastbloom state := by
  have hphase := h.phase
  cases hreader : state.reader with
  | idle =>
    rw [hreader] at hphase
    exact hphase.elim
  | done result => exact ends_of_done hreader
  | scanning range sequenceNumber last merged => exact ends_of_scanning hreader
  | loaded loaded =>
    cases loaded with
    | get key sequenceNumber =>
      cases hfound : getFromMemtable state.store.component.memtable key sequenceNumber with
      | some record =>
        refine ends_of_readNext { state with
          reader := .done (.ok (.record (some record))) } ?_ (ends_of_done rfl)
        rw [GroupCommit.readNext, hreader]
        simp only [hfound]
      | none =>
        refine ends_of_readNext { state with reader := .done (state.readTables
          (Engine.getTables fastbloom state.store.levels key sequenceNumber)) } ?_
          (ends_of_done rfl)
        rw [GroupCommit.readNext, hreader]
        simp only [hfound]
    | scan range sequenceNumber =>
      refine ends_of_readNext { state with
        reader := .scanning range sequenceNumber none ∅ } ?_ (ends_of_scanning rfl)
      rw [GroupCommit.readNext, hreader]

/-! ### What a read sees -/

theorem atOnce_get {key : Key} {sequenceNumber : Nat} {map : OrdMap Key Bytes}
    (h : Shows fastbloom origin.store.files origin.store.component.memtable origin.store.levels
      sequenceNumber map) :
    ∃ found, atOnce fastbloom origin (.get key sequenceNumber) = .ok (.record found) ∧
      Store.liveValue found = map[key]? := by
  have hget := h.get key
  rw [atOnce, readTables, ReadCall.prog, FileProg.result_bind_pure]
  cases hresult : FileProg.result fileErrors origin.store.files (ReadManager.get fastbloom
      origin.store.component.memtable origin.store.levels key sequenceNumber) with
  | error halt =>
    rw [hresult] at hget
    cases hget
  | ok found =>
    rw [hresult] at hget
    exact ⟨found, rfl, Except.ok.inj hget⟩

theorem atOnce_scan {range : KeyRange} {sequenceNumber : Nat} {map : OrdMap Key Bytes}
    (h : Shows fastbloom origin.store.files origin.store.component.memtable origin.store.levels
      sequenceNumber map) :
    atOnce fastbloom origin (.scan range sequenceNumber)
      = .ok (.entries (map.toList.filter fun entry => keyInRange entry.1 range)) := by
  rw [atOnce, readTables, ReadCall.prog, FileProg.result_bind_pure, h.scan range]
  rfl

/-- The load of the sequence number starts a read. -/
theorem reads_start {start : Nat → ReadCall}
    (hstart : watermark (start origin.store.component.sequenceNumber)
      = origin.store.component.sequenceNumber)
    (h : state = { origin with
      reader := .loaded (start origin.store.component.sequenceNumber) }) :
    Reads fastbloom origin (start origin.store.component.sequenceNumber) state := by
  subst h
  exact ⟨rfl, rfl, hstart.le, fun _ _ => rfl, rfl⟩

/-- No event changes the tables. -/
theorem tables_run (fastbloom : FastBloom) (store : Store) (events : List CommitEvent) :
    ((start store).run fastbloom events).store.levels = store.levels ∧
      ((start store).run fastbloom events).store.files = store.files := by
  refine (run_induction (P := fun state => InLine state ∧ state.store.levels = store.levels ∧
    state.store.files = store.files) (fun state event state' h hnext => ?_)
    ⟨inLine_start store, rfl, rfl⟩ events).2
  obtain ⟨hline, hlevels, hfiles⟩ := h
  refine ⟨hline.next hnext, ?_⟩
  have hchange := (storeChange_next hline hnext).1
  obtain ⟨store', queue, elected, runners, reader, journal⟩ := state'
  cases hchange with
  | same => exact ⟨hlevels, hfiles⟩
  | appended plan wal => exact ⟨hlevels, hfiles⟩
  | inserted requests command pending nextLsn hrunner => exact ⟨hlevels, hfiles⟩
  | stored requests nextLsn hrunner => exact ⟨hlevels, hfiles⟩

end

end

/-- Batches become visible atomically. Take any run of clients and runners up to the moment a read
loads the sequence number. There is a number of whole batches (`published`), in ticket order and with
every batch that was acknowledged so far, such that the read returns exactly the entries of the map
they leave, whatever inserts and sequence stores come between its steps. -/
theorem batches_visible_atomically (fastbloom : FastBloom) (store : Store) (contents : Contents)
    (log : List LogCommand) (nextFileId : Nat)
    (hstore : StoreInvariant contents log store.component.sequenceNumber store.component.memtable
      store.levels)
    (hlog : ∀ command ∈ log, command.lsn ≤ store.component.sequenceNumber)
    (htables : TableInvariant fastbloom store.files contents store.levels nextFileId)
    (hsequence : store.component.sequenceNumber < u64Limit) (before : List CommitEvent) :
    let origin := (start store).run fastbloom before
    ∃ winners published group,
      origin.journal.issued.map Request.ticket = List.range' 1 origin.journal.issued.length ∧
      winners.Sublist origin.journal.issued ∧
      numberedBatches store.component.sequenceNumber winners = published ++ group ∧
      (∀ ticket, (ticket, .ok ()) ∈ origin.journal.completed →
        ∃ batch ∈ published, batch.ticket = ticket) ∧
      ∀ loaded after, (∀ event ∈ after, startsRead event = false) →
        (∀ key, origin.next fastbloom (.startGet key) = some loaded →
          Ends fastbloom (loaded.run fastbloom after) ∧
          ∀ result, (loaded.run fastbloom after).reader = .done result →
            ∃ found, result = .ok (.record found) ∧
              Store.liveValue found = (commandMap (log ++ commandsOf published))[key]?) ∧
        (∀ range, origin.next fastbloom (.startScan range) = some loaded →
          Ends fastbloom (loaded.run fastbloom after) ∧
          ∀ result, (loaded.run fastbloom after).reader = .done result →
            result = .ok (.entries ((commandMap (log ++ commandsOf published)).toList.filter
              fun entry => keyInRange entry.1 range))) := by
  intro origin
  obtain ⟨hline, winners, published, group, inserted, h⟩ := commits_run fastbloom hsequence before
  obtain ⟨hlevels, hfiles⟩ := tables_run fastbloom store before
  have hshows := h.shows hline hstore hlog htables
  rw [← hlevels, ← hfiles] at hshows
  refine ⟨winners, published, group, ?_, ?_, ?_, h.acknowledged, fun loaded after hafter => ?_⟩
  · rw [hline.length_issued]
    exact hline.tickets
  · exact (List.sublist_append_left _ _).trans h.order
  · rw [← h.committed, h.split]
  · have hread {call : ReadCall} {event : CommitEvent} (hreads : Reads fastbloom origin call loaded)
        (hnext : origin.next fastbloom event = some loaded) :
        Reads fastbloom origin call (loaded.run fastbloom after) := by
      obtain ⟨_, _, _, _, hloaded⟩ := h.next hline hnext
      exact hreads.run (hline.next hnext) hloaded hafter
    constructor
    · intro key hnext
      have hrun := hread (reads_start rfl (startRead_some hnext)) hnext
      refine ⟨hrun.ends, fun result hdone => ?_⟩
      have hphase := hrun.phase
      rw [hdone] at hphase
      obtain rfl : result = _ := hphase
      exact atOnce_get hshows
    · intro range hnext
      have hrun := hread (reads_start rfl (startRead_some hnext)) hnext
      refine ⟨hrun.ends, fun result hdone => ?_⟩
      have hphase := hrun.phase
      rw [hdone] at hphase
      obtain rfl : result = _ := hphase
      exact atOnce_scan hshows

/-- A scan starts after the first of three inserts of a group, and the rest of the group gets in
before it goes on. -/
theorem scan_during_inserts :
    ∃ loaded published, ((start freshStore).run .acceptAll (twoClients.take 6)).next .acceptAll
        (.startScan ⟨.unbounded, .unbounded⟩) = some loaded ∧
      Ends .acceptAll (loaded.run .acceptAll (twoClients.drop 6)) ∧
      ∀ result, (loaded.run .acceptAll (twoClients.drop 6)).reader = .done result →
        result = .ok (.entries ((commandMap ([] ++ commandsOf published)).toList.filter
          fun entry => keyInRange entry.1 ⟨.unbounded, .unbounded⟩)) := by
  obtain ⟨_, published, _, -, -, -, -, hreads⟩ := batches_visible_atomically .acceptAll freshStore
    (fun _ => []) [] 1 (storeInvariant_empty _ _) nofun (tableInvariant_empty _ _ _ _) (by decide)
    (twoClients.take 6)
  have hstarts : (((start freshStore).run .acceptAll (twoClients.take 6)).next .acceptAll
      (.startScan ⟨.unbounded, .unbounded⟩)).isSome = true := by decide +kernel
  obtain ⟨loaded, hloaded⟩ := Option.isSome_iff_exists.mp hstarts
  exact ⟨loaded, published, hloaded, (hreads loaded (twoClients.drop 6) (by decide)).2 _ hloaded⟩

end GroupCommit

end CereDB.Storage
