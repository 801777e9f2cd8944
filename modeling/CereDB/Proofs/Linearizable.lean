import CereDB.Proofs.ConcurrentReads
import CereDB.Proofs.ConcurrentSteps

/-!
# `CereDB.Proofs.Linearizable`: point reads are linearizable across maintenance

`get_linearizable` states the result: a get that runs next to group commits, flushes and compactions
returns the value that its key had at some instant between its start and its end.

`GetOk` is the invariant of the get, relative to the values `seen` that the key has had. Up to the
memtable lookup, the memtable holds the latest command of the key up to the loaded sequence number,
or the tables already answer with a value the key has had. After a miss the tables do. After the
manifest snapshot, the rest of the file operations will return such a value.
-/

set_option autoImplicit false

namespace CereDB.Storage

open CereDB.Lib ReadManager

namespace Engine

variable {fastbloom : FastBloom} {config : StorageConfig} {contents contents' : Contents}
  {engine engine' : Engine} {seen : Option Bytes → Prop} {key : Key} {watermark : Nat}

/-- A get that has not looked into the memtable yet. -/
structure GetPending (contents : Contents) (seen : Option Bytes → Prop) (key : Key)
    (watermark : Nat) (engine : Engine) : Prop where
  published : watermark ≤ engine.sequenceNumber
  value : seen (publishedValue engine.log watermark key)
  found : (∃ command, latest engine.log watermark key = some command ∧
      engine.memtable.Holds command) ∨
    seen (tableAnswer contents engine.levels key)

/-- A get whose remaining file operations return a value the key has had. -/
def GetReading (seen : Option Bytes → Prop) (engine : Engine) (prog : ReadFile ReadResult)
    (cursor : FileProg.Cursor) : Prop :=
  ∃ (found : Option MemtableRecord) (last : FileProg.Cursor),
    FileProg.run fileErrors (engine.files[·]?) prog cursor = .ok (.record found, last) ∧
      seen (answer found)

/-- Where a get is. -/
def GetOk (contents : Contents) (seen : Option Bytes → Prop) (key : Key) (engine : Engine) :
    Prop :=
  match engine.reader with
  | .loaded call => ∃ watermark, call = .get key watermark ∧
      GetPending contents seen key watermark engine
  | .leased k watermark => k = key ∧ GetPending contents seen key watermark engine
  | .missed k _ => k = key ∧ seen (tableAnswer contents engine.levels key)
  | .reading prog cursor => GetReading seen engine prog cursor
  | .done result => ∃ found, result = .ok (.record found) ∧ seen (answer found)
  | _ => False

/-! ### Steps of other tasks -/

theorem Change.seen_answer (h : Change contents contents' engine engine')
    (hvalue : seen (engine.value key)) (hseen : seen (tableAnswer contents engine.levels key)) :
    seen (tableAnswer contents' engine'.levels key) := by
  rcases h.answers key with heq | heq
  · rw [heq]
    exact hseen
  · rw [heq]
    exact hvalue

theorem Change.latest_eq (h : Change contents contents' engine engine')
    (hpublished : watermark ≤ engine.sequenceNumber) (key : Key) :
    latest engine'.log watermark key = latest engine.log watermark key := by
  obtain ⟨extra, hlog, hextra⟩ := h.log
  rw [hlog]
  exact latest_append fun command hmem => hpublished.trans_lt (hextra command hmem)

theorem GetPending.change (hpending : GetPending contents seen key watermark engine)
    (hinv : engine.Invariant fastbloom config contents)
    (h : Change contents contents' engine engine') (hvalue : seen (engine.value key)) :
    GetPending contents' seen key watermark engine' := by
  have hlatest := h.latest_eq hpending.published key
  refine ⟨hpending.published.trans h.sequence, ?_, ?_⟩
  · rw [publishedValue, hlatest]
    exact hpending.value
  · rw [hlatest]
    rcases hpending.found with ⟨command, hcommand, hholds⟩ | hseen
    · obtain ⟨⟨-, hkey, hle⟩, -⟩ := of_latest_eq_some hinv.store.sorted hcommand
      -- the command is still in the memtable, or a flush has just removed it
      rcases h.kept command (hle.trans hpending.published) hholds with hstill | hanswer
      · exact .inl ⟨command, hcommand, hstill⟩
      · right
        rw [hkey] at hanswer
        rw [hanswer]
        exact hvalue
    · exact .inr (h.seen_answer hvalue hseen)

/-- A step of another task does not disturb a get. -/
theorem GetOk.change (hget : GetOk contents seen key engine)
    (hinv : engine.Invariant fastbloom config contents)
    (h : Change contents contents' engine engine') (hvalue : seen (engine.value key)) :
    GetOk contents' seen key engine' := by
  unfold GetOk at hget ⊢
  rw [h.reader]
  cases hreader : engine.reader with
  | idle =>
    rw [hreader] at hget
    exact hget
  | scanning =>
    rw [hreader] at hget
    exact hget
  | scanned =>
    rw [hreader] at hget
    exact hget
  | loaded call =>
    rw [hreader] at hget
    obtain ⟨watermark, hcall, hpending⟩ := hget
    exact ⟨watermark, hcall, hpending.change hinv h hvalue⟩
  | leased k watermark =>
    rw [hreader] at hget
    exact ⟨hget.1, hget.2.change hinv h hvalue⟩
  | missed k watermark =>
    rw [hreader] at hget
    exact ⟨hget.1, h.seen_answer hvalue hget.2⟩
  | reading prog cursor =>
    rw [hreader] at hget
    obtain ⟨found, last, hrun, hseen⟩ := hget
    have hlease : engine.leaseHeld = true := by
      rw [leaseHeld, hreader]
    exact ⟨found, last, FileProg.run_mono (h.files hlease) hrun, hseen⟩
  | done result =>
    rw [hreader] at hget
    exact hget

/-! ### Steps of the get -/

theorem answer_live (record : Option MemtableRecord) : answer (live record) = answer record := by
  rw [answer, answer, live, live, Option.filter_filter]
  simp only [Bool.and_self]

/-- The lookup in the tables returns what the tables answer. -/
theorem run_getTables (hinv : engine.Invariant fastbloom config contents) (key : Key)
    (watermark : Nat) (cursor : FileProg.Cursor) :
    ∃ last, FileProg.run fileErrors (engine.files[·]?)
        (getTables fastbloom engine.levels key watermark) cursor
      = .ok (.record (live (newest contents engine.levels key)), last) := by
  obtain ⟨last, hrun⟩ := run_getFromSstable hinv.tables.stored key watermark cursor
  rw [hinv.tables.levelInvariant.tablesHit_eq hinv.tables.stored key] at hrun
  exact ⟨last, FileProg.run_bind_ok hrun⟩

theorem GetOk.readNext (hget : GetOk contents seen key engine)
    (hinv : engine.Invariant fastbloom config contents)
    (hnext : engine.readNext fastbloom = some engine') : GetOk contents seen key engine' := by
  unfold GetOk at hget
  rw [Engine.readNext] at hnext
  split at hnext
  · cases hnext
  · cases hnext
  · rename_i call hreader
    rw [hreader] at hget
    obtain ⟨watermark, rfl, hpending⟩ := hget
    split at hnext
    · cases hnext
    · obtain rfl := Option.some.inj hnext
      exact ⟨rfl, hpending.published, hpending.value, hpending.found⟩
  · rename_i k watermark hreader
    rw [hreader] at hget
    obtain ⟨rfl, hpending⟩ := hget
    by_cases hheld : ∃ command, latest engine.log watermark k = some command ∧
        engine.memtable.Holds command
    · -- a hit is the latest command up to the loaded sequence number
      obtain ⟨command, hlatest, hholds⟩ := hheld
      rw [hinv.store.getFromMemtable_of_holds hlatest hholds] at hnext
      obtain rfl := Option.some.inj hnext
      refine ⟨_, rfl, ?_⟩
      have hvalue := hpending.value
      rw [publishedValue, hlatest] at hvalue
      rw [show answer (some command.inMemtable) = command.outcome from answer_new command]
      exact hvalue
    · rw [hinv.store.getFromMemtable_of_not_holds hpending.published
        fun command hlatest hholds => hheld ⟨command, hlatest, hholds⟩] at hnext
      obtain rfl := Option.some.inj hnext
      exact ⟨rfl, hpending.found.resolve_left hheld⟩
  · rename_i hreader
    rw [hreader] at hget
    cases hget
  · rename_i k watermark hreader
    rw [hreader] at hget
    obtain ⟨rfl, hseen⟩ := hget
    obtain rfl := Option.some.inj hnext
    obtain ⟨last, hrun⟩ := run_getTables hinv k watermark ([], 0)
    refine ⟨_, last, hrun, ?_⟩
    rw [answer_live]
    exact hseen
  · rename_i hreader
    rw [hreader] at hget
    cases hget
  · rename_i result cursor hreader
    rw [hreader] at hget
    obtain ⟨found, last, hrun, hseen⟩ := hget
    obtain rfl := Option.some.inj hnext
    obtain ⟨rfl, -⟩ := Prod.mk.inj (Except.ok.inj hrun)
    exact ⟨found, rfl, hseen⟩
  · rename_i error cursor hreader
    rw [hreader] at hget
    obtain ⟨found, last, hrun, -⟩ := hget
    cases hrun
  · rename_i prog cursor hpure hthrow hreader
    rw [hreader] at hget
    obtain ⟨found, last, hrun, hseen⟩ := hget
    obtain rfl := Option.some.inj hnext
    exact ⟨found, last, FileProg.run_next hrun, hseen⟩

/-- A get starts where its key is readable. -/
theorem getOk_start (hinv : engine.Invariant fastbloom config contents)
    (hnext : engine.startRead (.get key) = some engine') (hvalue : seen (engine.value key)) :
    GetOk contents seen key engine' := by
  rw [Engine.startRead] at hnext
  split at hnext
  · obtain rfl := Option.some.inj hnext
    rw [value_eq] at hvalue
    refine ⟨engine.sequenceNumber, rfl, le_rfl, hvalue, ?_⟩
    rcases hinv.store.readable key with hholds | hanswer
    · exact .inl hholds
    · right
      rw [← hanswer] at hvalue
      exact hvalue
  · cases hnext

/-! ### Whole gets -/

/-- The events that start a read. -/
def startsRead : Event → Bool
  | .startGet _ | .startScan _ => true
  | _ => false

/-- A read goes on: no event starts another one. -/
def Continues (events : List Event) : Prop := ∀ event ∈ events, startsRead event = false

theorem Continues.tail {event : Event} {events : List Event} (h : Continues (event :: events)) :
    Continues events := fun other hmem => h other (List.mem_cons_of_mem event hmem)

/-- The only event of a read that can occur while it goes on is its own next step. -/
theorem Continues.readNext {event : Event} {events : List Event} (h : Continues (event :: events))
    (hread : isRead event ≠ false) : event = .readNext := by
  have hstarts := h event List.mem_cons_self
  cases event with
  | startGet key => cases hstarts
  | startScan range => cases hstarts
  | readNext => rfl
  | _ => exact absurd rfl hread

/-- The first state of a run is one of its states. -/
theorem self_mem_states (engine : Engine) (events : List Event) :
    engine ∈ engine.states fastbloom config events := by
  cases events <;> exact List.mem_cons_self

/-- Over a whole run a get keeps its invariant. -/
theorem GetOk.run {events : List Event} (hevents : Continues events)
    (hget : GetOk contents seen key engine) (hinv : engine.Invariant fastbloom config contents)
    (hseen : ∀ state ∈ engine.states fastbloom config events, seen (state.value key)) :
    ∃ contents', (engine.run fastbloom config events).Invariant fastbloom config contents' ∧
      GetOk contents' seen key (engine.run fastbloom config events) := by
  induction events generalizing engine contents with
  | nil => exact ⟨contents, hinv, hget⟩
  | cons event events ih =>
    have hhere := hseen engine (self_mem_states engine _)
    have hrest : ∀ state ∈ (engine.step fastbloom config event).states fastbloom config events,
        seen (state.value key) := fun state hstate =>
      hseen state (List.mem_cons_of_mem engine hstate)
    have hstep : ∃ contents',
        (engine.step fastbloom config event).Invariant fastbloom config contents' ∧
          GetOk contents' seen key (engine.step fastbloom config event) := by
      rw [step]
      cases hnext : engine.next fastbloom config event with
      | none => exact ⟨contents, hinv, hget⟩
      | some engine' =>
        obtain ⟨contents', hinv', hchange⟩ := hinv.next hnext
        by_cases hread : isRead event = false
        · exact ⟨contents', hinv', hget.change hinv (hchange hread) hhere⟩
        · obtain rfl := hevents.readNext hread
          exact ⟨contents, hinv.readNext hnext, hget.readNext hinv hnext⟩
    obtain ⟨contents', hinv', hget'⟩ := hstep
    exact ih hevents.tail hget' hinv' hrest

/-! ### The end of a get -/

/-- Enough further steps of the read end it. -/
def Ends (fastbloom : FastBloom) (config : StorageConfig) (engine : Engine) : Prop :=
  ∃ (n : Nat) (result : Exec ReadResult),
    (engine.run fastbloom config (List.replicate n .readNext)).reader = .done result

theorem Ends.of_readNext (hnext : engine.readNext fastbloom = some engine')
    (h : engine'.Ends fastbloom config) : engine.Ends fastbloom config := by
  obtain ⟨n, result, hdone⟩ := h
  refine ⟨n + 1, result, ?_⟩
  rw [List.replicate_succ]
  show ((engine.step fastbloom config .readNext).run fastbloom config _).reader = _
  rw [step, show engine.next fastbloom config .readNext = some engine' from hnext]
  exact hdone

/-- A read with file operations left does the next one. -/
theorem readNext_reading {prog : ReadFile ReadResult} {cursor : FileProg.Cursor}
    (hreader : engine.reader = .reading prog cursor) (hpure : ∀ result, prog ≠ .pure result)
    (hthrow : ∀ error, prog ≠ .throw error) :
    engine.readNext fastbloom = some { engine with
      reader := .reading (FileProg.next fileErrors (engine.files[·]?) (prog, cursor)).1
        (FileProg.next fileErrors (engine.files[·]?) (prog, cursor)).2 } := by
  rw [Engine.readNext, hreader]
  cases prog with
  | pure result => exact absurd rfl (hpure result)
  | throw error => exact absurd rfl (hthrow error)
  | _ => rfl

/-- File operations that end when they run alone end here. -/
theorem ends_of_iterate {n : Nat} {prog : ReadFile ReadResult} {cursor last : FileProg.Cursor}
    {result : ReadResult} (hreader : engine.reader = .reading prog cursor)
    (h : (FileProg.next fileErrors (engine.files[·]?))^[n] (prog, cursor) = (.pure result, last)) :
    engine.Ends fastbloom config := by
  induction n generalizing engine prog cursor with
  | zero =>
    obtain ⟨rfl, -⟩ := Prod.mk.inj h
    exact Ends.of_readNext (by rw [Engine.readNext, hreader]) ⟨0, .ok result, rfl⟩
  | succ n ih =>
    rw [Function.iterate_succ_apply] at h
    -- a program that has ended needs one step to return
    by_cases hpure : ∃ found, prog = .pure found
    · obtain ⟨found, rfl⟩ := hpure
      exact Ends.of_readNext (by rw [Engine.readNext, hreader]) ⟨0, .ok found, rfl⟩
    · by_cases hthrow : ∃ error, prog = .throw error
      · obtain ⟨error, rfl⟩ := hthrow
        exact Ends.of_readNext (by rw [Engine.readNext, hreader]) ⟨0, .error error, rfl⟩
      · exact Ends.of_readNext (readNext_reading hreader
          (fun found heq => hpure ⟨found, heq⟩) (fun error heq => hthrow ⟨error, heq⟩))
          (ih rfl h)

/-- A get that is not kept from its lease ends. -/
theorem GetOk.ends (hget : GetOk contents seen key engine)
    (hinv : engine.Invariant fastbloom config contents)
    (hfree : engine.publicationHeld = false) : engine.Ends fastbloom config := by
  -- from the back: file operations, the lookup in the tables, the memtable, the lease
  have hreading : ∀ engine : Engine, ∀ prog cursor, engine.reader = .reading prog cursor →
      GetReading seen engine prog cursor → engine.Ends fastbloom config := by
    rintro engine prog cursor hreader ⟨found, last, hrun, -⟩
    obtain ⟨n, hn⟩ := FileProg.exists_iterate_next hrun
    exact ends_of_iterate hreader hn
  have hmissed : ∀ engine : Engine, engine.Invariant fastbloom config contents →
      GetOk contents seen key engine → ∀ k watermark, engine.reader = .missed k watermark →
        engine.Ends fastbloom config := by
    intro engine hinv hget k watermark hreader
    have hnext : engine.readNext fastbloom = some { engine with
        reader := .reading (getTables fastbloom engine.levels k watermark) ([], 0) } := by
      rw [Engine.readNext, hreader]
    exact Ends.of_readNext hnext (hreading _ _ _ rfl (hget.readNext hinv hnext))
  have hleased : ∀ engine : Engine, engine.Invariant fastbloom config contents →
      GetOk contents seen key engine → ∀ k watermark, engine.reader = .leased k watermark →
        engine.Ends fastbloom config := by
    intro engine hinv hget k watermark hreader
    cases hlookup : getFromMemtable engine.memtable k watermark with
    | some record =>
      have hnext : engine.readNext fastbloom
          = some { engine with reader := .done (.ok (.record (some record))) } := by
        rw [Engine.readNext, hreader]
        simp only [hlookup]
      exact Ends.of_readNext hnext ⟨0, _, rfl⟩
    | none =>
      have hnext : engine.readNext fastbloom
          = some { engine with reader := .missed k watermark } := by
        rw [Engine.readNext, hreader]
        simp only [hlookup]
      exact Ends.of_readNext hnext
        (hmissed _ (hinv.readNext hnext) (hget.readNext hinv hnext) k watermark rfl)
  cases hreader : engine.reader with
  | idle | scanning | scanned =>
    unfold GetOk at hget
    rw [hreader] at hget
    cases hget
  | done result => exact ⟨0, result, hreader⟩
  | reading prog cursor =>
    unfold GetOk at hget
    rw [hreader] at hget
    exact hreading engine prog cursor hreader hget
  | missed k watermark => exact hmissed engine hinv hget k watermark hreader
  | leased k watermark => exact hleased engine hinv hget k watermark hreader
  | loaded call =>
    have hcall : ∃ watermark, call = .get key watermark := by
      unfold GetOk at hget
      rw [hreader] at hget
      exact ⟨hget.choose, hget.choose_spec.1⟩
    obtain ⟨watermark, rfl⟩ := hcall
    have hnext : engine.readNext fastbloom
        = some { engine with reader := .leased key watermark } := by
      rw [Engine.readNext, hreader]
      simp only [hfree, Bool.false_eq_true, if_false]
      rfl
    exact Ends.of_readNext hnext
      (hleased _ (hinv.readNext hnext) (hget.readNext hinv hnext) key watermark rfl)

end Engine

theorem Engine.reader_of_returned {engine : Engine} {result : Exec ReadResult}
    (h : engine.returned = some result) : engine.reader = .done result := by
  rw [Engine.returned] at h
  split at h
  · rename_i found hreader
    rw [hreader, Option.some.inj h]
  · cases h

/-- Point reads are linearizable. Take an engine that was opened, a run up to a moment at which no
read is in progress, a get of `key` that starts there, and any interleaving after it. Unless a
compaction is deleting its inputs, further steps of the get end it. When it has ended it has
returned the value that `key` had at some instant since its start. -/
theorem get_linearizable (fastbloom : FastBloom) (config : StorageConfig) {contents : Contents}
    {engine : Engine} (hopened : engine.Opened fastbloom contents) (key : Key)
    (before during : List Event) (hduring : Engine.Continues during)
    (hfree : (engine.run fastbloom config before).readerFree = true) :
    let start := (engine.run fastbloom config before).step fastbloom config (.startGet key)
    ((start.run fastbloom config during).publicationHeld = false →
      (start.run fastbloom config during).Ends fastbloom config) ∧
    ∀ result, (start.run fastbloom config during).returned = some result →
      ∃ found, result = .ok (.record found) ∧
        ∃ state ∈ start.states fastbloom config during, answer found = state.value key := by
  intro start
  obtain ⟨contents₁, hinv⟩ := (hopened.invariant config).run before
  have hstart : (engine.run fastbloom config before).startRead (.get key) = some start := by
    show _ = some (((engine.run fastbloom config before).startRead (.get key)).getD _)
    rw [Engine.startRead, if_pos hfree]
    rfl
  have hvalue : (engine.run fastbloom config before).value key = start.value key := by
    rw [Engine.startRead, if_pos hfree] at hstart
    rw [← Option.some.inj hstart]
    rfl
  have hget : Engine.GetOk contents₁
      (fun v => ∃ state ∈ start.states fastbloom config during, v = state.value key) key start :=
    Engine.getOk_start hinv hstart ⟨start, Engine.self_mem_states start during, hvalue⟩
  obtain ⟨contents₂, hinv₂, hget₂⟩ := hget.run hduring (hinv.startRead hstart)
    fun state hstate => ⟨state, hstate, rfl⟩
  refine ⟨hget₂.ends hinv₂, ?_⟩
  intro result hdone
  unfold Engine.GetOk at hget₂
  rw [Engine.reader_of_returned hdone] at hget₂
  exact hget₂

/-- A put that is published. -/
def publishedPut : List Event := [.beginGroup [[.put [97] [118]]], .insertNext, .storeSequence]

/-- A read next to a flush that removes the entry of its key between the lease and the lookup. -/
def readAcrossFlush : List Event :=
  [.beginFlush, .registerTable 1, .commitFlush, .readNext, .removeNext] ++
    List.replicate 40 .readNext

/-- The get misses in the memtable and returns the record of the new table. -/
theorem get_linearizable_acrossFlush :
    let start := (Engine.empty.run .acceptAll .default publishedPut).step .acceptAll .default
      (.startGet [97])
    (start.run .acceptAll .default readAcrossFlush).returned
        = some (.ok (.record (some ⟨.put, 1, [97], [118]⟩))) ∧
      ∃ state ∈ start.states .acceptAll .default readAcrossFlush,
        some [118] = state.value [97] := by
  intro start
  have hreturned : (start.run .acceptAll .default readAcrossFlush).returned
      = some (.ok (.record (some ⟨.put, 1, [97], [118]⟩))) := by decide +kernel
  obtain ⟨found, hfound, state, hstate, hvalue⟩ := (get_linearizable .acceptAll .default
    (Engine.opened_empty .acceptAll fun _ => []) [97] publishedPut readAcrossFlush
    (by unfold Engine.Continues; decide) (by decide +kernel)).2 _ hreturned
  refine ⟨hreturned, state, hstate, ?_⟩
  obtain rfl := ReadResult.record.inj (Except.ok.inj hfound)
  exact hvalue

end CereDB.Storage
