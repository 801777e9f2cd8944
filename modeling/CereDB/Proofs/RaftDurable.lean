import CereDB.Proofs.RaftLog

/-!
# `CereDB.Proofs.RaftDurable`: votes and logs after a power loss

`atomic_write` renames a file into place and syncs the directory, but it does not sync the file.
After a power loss the file may come back empty, and `LogStore::open` takes an empty file for no
vote and no entries: `unsynced_vote_lost` is such a run.

`raft_store_durable` says that this is all that can go wrong. In every run in which a power loss
leaves the contents of the two files alone, whatever it does to the directory, opening the store
finds the vote of the last acknowledged `save_vote` or of a later call, and likewise the log.
-/

set_option autoImplicit false

namespace CereDB.Storage

open CereDB.Lib

/-! ### What a store may find -/

/-- A value of the last acknowledged call, or of a later one. -/
def Recent {α : Type} (history : List (α × Bool)) (a : α) : Prop :=
  ∃ before ok later, history = before ++ (a, ok) :: later ∧ ∀ entry ∈ later, entry.2 = false

/-- What a store finds: a recent value, or nothing when no call was acknowledged. -/
def Recovered {α : Type} (history : List (α × Bool)) : Option α → Prop
  | some a => Recent history a
  | none => ∀ entry ∈ history, entry.2 = false

/-- A file with a value that a store may find. -/
def Keeps {α : Type} (encode : α → Bytes) (history : List (α × Bool)) (file : Option Bytes) : Prop :=
  ∃ found, Recovered history found ∧ file = found.map encode

section
variable {α : Type} {encode : α → Bytes} {history : List (α × Bool)} {a : α}

/-- A call that does not return `Ok` changes nothing about what may be found. -/
theorem Recovered.concat {found : Option α} (h : Recovered history found) (a : α) :
    Recovered (history ++ [(a, false)]) found := by
  cases found with
  | none =>
    intro entry hentry
    cases List.mem_append.mp hentry with
    | inl hold => exact h entry hold
    | inr hnew => rw [List.mem_singleton.mp hnew]
  | some b =>
    obtain ⟨before, ok, later, rfl, hlater⟩ := h
    refine ⟨before, ok, later ++ [(a, false)], by simp, ?_⟩
    intro entry hentry
    cases List.mem_append.mp hentry with
    | inl hold => exact hlater entry hold
    | inr hnew => rw [List.mem_singleton.mp hnew]

theorem recent_concat (history : List (α × Bool)) (a : α) (ok : Bool) :
    Recent (history ++ [(a, ok)]) a := ⟨history, ok, [], rfl, by simp⟩

theorem Keeps.concat {file : Option Bytes} (h : Keeps encode history file) (a : α) :
    Keeps encode (history ++ [(a, false)]) file := by
  obtain ⟨found, hfound, hfile⟩ := h
  exact ⟨found, hfound.concat a, hfile⟩

/-- A file that a store may find is read. -/
theorem Keeps.loadFile {disk : Disk String} {path : String} {read : Bytes → Except String α}
    (h : Keeps encode history (disk[path]?.map DurableFile.bytes)) (label : String)
    (hread : ∀ a, read (encode a) = .ok a) (hne : ∀ a, encode a ≠ []) :
    ∃ found, Storage.loadFile disk path label read = .ok found ∧ Recovered history found := by
  obtain ⟨found, hfound, hfile⟩ := h
  refine ⟨found, ?_, hfound⟩
  cases found with
  | none =>
    rw [Option.map_none, Option.map_eq_none_iff] at hfile
    rw [Storage.loadFile, hfile]
  | some a => exact loadFile_of_bytes hfile (hne a) (hread a)

end

/-- The bytes of a file. -/
def contents (disk : Disk String) (path : String) : Option Bytes := disk[path]?.map DurableFile.bytes

/-- Both files of a version of the directory hold what a store may find. -/
structure RaftNode.KeepsBoth (codec : Bincode) (node : RaftNode) (version : Disk String) : Prop where
  vote : Keeps codec.vote node.votes (contents version votePath)
  log : Keeps codec.entries node.logs (contents version entriesPath)

/-- Whatever version a power loss brings back, a store finds what it may find. -/
def RaftNode.Durable (codec : Bincode) (node : RaftNode) : Prop :=
  ∀ version ∈ node.dir.versions, node.KeepsBoth codec version

/-! ### Replacing a file -/

section
variable {codec : Bincode} {node : RaftNode}

/-- What the directory holds after a file was replaced, or not. -/
theorem exec_onDir_atomicWrite (dir : CachedDir String) (store : LogStore)
    (err : IoErrors RaftHalt) (path temporary : String) (bs : Bytes) :
    ∃ outcome raft, Act.exec (onDir (CachedDir.atomicWrite err path temporary bs)) ⟨dir, store⟩
        = (outcome, raft) ∧ raft.store = store ∧ ∀ version' ∈ raft.dir.versions,
      (outcome.isOk = false ∧
        ∃ version ∈ dir.versions, CachedDir.SameBut temporary version version') ∨
      CachedDir.Replaced path temporary bs dir.io.disk version' := by
  have hspec := Spec.atomicWrite (C := False) dir err path temporary bs
  rcases hspec.outcome rfl with ⟨_, dir', hexec, holder, hreplaced⟩ | ⟨halt, dir', hexec, -, hall⟩
  · refine ⟨.ok (), ⟨dir', store⟩, by rw [onDir, Act.exec_zoom, hexec], rfl, ?_⟩
    intro version' hversion'
    rw [CachedDir.versions, holder, List.mem_singleton] at hversion'
    rw [hversion']
    exact .inr hreplaced
  · refine ⟨.error halt, ⟨dir', store⟩, by rw [onDir, Act.exec_zoom, hexec], rfl, ?_⟩
    intro version' hversion'
    exact (hall version' hversion').imp_left fun hsame => ⟨rfl, hsame⟩

/-- The replaced file holds the new value, or, when the call failed, possibly an old one. -/
theorem keeps_replaced {α : Type} {encode : α → Bytes} {history : List (α × Bool)}
    {dir : CachedDir String} {path temporary : String} (hne : path ≠ temporary)
    (hold : ∀ version ∈ dir.versions, Keeps encode history (contents version path))
    {a : α} {ok : Bool} {version' : Disk String}
    (hversion' : (ok = false ∧
        ∃ version ∈ dir.versions, CachedDir.SameBut temporary version version') ∨
      CachedDir.Replaced path temporary (encode a) dir.io.disk version') :
    Keeps encode (history ++ [(a, ok)]) (contents version' path) := by
  cases hversion' with
  | inl hsame =>
    obtain ⟨rfl, version, hversion, hsame⟩ := hsame
    rw [contents, hsame path hne]
    exact (hold version hversion).concat a
  | inr hreplaced =>
    exact ⟨some a, recent_concat history a ok, hreplaced.file⟩

/-- The other file stays as it is in some version. -/
theorem keeps_other {α : Type} {encode : α → Bytes} {history : List (α × Bool)}
    {dir : CachedDir String} {path temporary other : String} {bs : Bytes}
    (htemporary : other ≠ temporary) (hpath : other ≠ path)
    (hold : ∀ version ∈ dir.versions, Keeps encode history (contents version other))
    {ok : Bool} {version' : Disk String}
    (hversion' : (ok = false ∧
        ∃ version ∈ dir.versions, CachedDir.SameBut temporary version version') ∨
      CachedDir.Replaced path temporary bs dir.io.disk version') :
    Keeps encode history (contents version' other) := by
  cases hversion' with
  | inl hsame =>
    obtain ⟨-, version, hversion, hsame⟩ := hsame
    rw [contents, hsame other htemporary]
    exact hold version hversion
  | inr hreplaced =>
    rw [contents, hreplaced.others other htemporary hpath]
    exact hold _ dir.mem_versions

/-! ### The events -/

theorem RaftNode.Durable.saveVote (h : node.Durable codec) (vote : Vote) (plan : List Answer) :
    (node.step codec (.saveVote vote plan)).Durable codec := by
  cases hstore : node.store with
  | none =>
    simp only [step, call, hstore]
    exact h
  | some store =>
    obtain ⟨outcome, raft, hexec, -, hversions⟩ := exec_onDir_atomicWrite
      { node.dir with io := { node.dir.io with plan } } { store with vote := some vote }
      (ioError .vote .write) votePath voteTemporary (codec.vote vote)
    have hsave : Act.exec (LogStore.saveVote codec vote)
        ⟨{ node.dir with io := { node.dir.io with plan } }, store⟩ = (outcome, raft) := hexec
    rw [step, call_of_exec hstore hsave]
    intro version' hversion'
    have hcases := hversions version' hversion'
    exact ⟨keeps_replaced (by decide) (fun version hversion => (h version hversion).vote) hcases,
      keeps_other (by decide) (by decide) (fun version hversion => (h version hversion).log) hcases⟩

/-- A call that changes the log in memory and then writes it. -/
theorem RaftNode.Durable.writeLog (h : node.Durable codec) {store : LogStore} (store' : LogStore)
    (hstore : node.store = some store) {plan : List Answer} {x : RaftOp RaftDir Unit}
    (err : IoErrors RaftHalt)
    (hx : ∀ dir, Act.exec x ⟨dir, store⟩
      = Act.exec (LogStore.flushEntries codec err) ⟨dir, store'⟩) :
    (node.call plan x recordLog).Durable codec := by
  obtain ⟨outcome, raft, hexec, hsame, hversions⟩ := exec_onDir_atomicWrite
    { node.dir with io := { node.dir.io with plan } } store' err entriesPath entriesTemporary
    (codec.entries store'.entries)
  have hcall : Act.exec x ⟨{ node.dir with io := { node.dir.io with plan } }, store⟩
      = (outcome, raft) := by
    rw [hx, LogStore.flushEntries, Act.exec_bind_ok (Act.exec_get _)]
    exact hexec
  rw [call_of_exec hstore hcall, hsame]
  intro version' hversion'
  have hcases := hversions version' hversion'
  exact ⟨keeps_other (by decide) (by decide) (fun version hversion => (h version hversion).vote)
      hcases,
    keeps_replaced (by decide) (fun version hversion => (h version hversion).log) hcases⟩

/-- A call that panics before it writes. -/
theorem RaftNode.Durable.panic (h : node.Durable codec) {store : LogStore}
    (hstore : node.store = some store) {plan : List Answer} {x : RaftOp RaftDir Unit}
    (message : String) (hx : ∀ dir, Act.exec x ⟨dir, store⟩ = (.error (.panic message), ⟨dir, store⟩)) :
    (node.call plan x recordLog).Durable codec := by
  rw [call_of_exec hstore (hx _)]
  intro version hversion
  exact ⟨(h version hversion).vote, (h version hversion).log.concat _⟩

/-- A call that moves the index of its argument by one first. -/
theorem RaftNode.Durable.indexed (h : node.Durable codec) (index : Nat) (plan : List Answer)
    (change : Nat → LogStore → LogStore) (err : IoErrors RaftHalt) :
    (node.call plan (do
      let position ← Act.ofExcept (addIndex index 1)
      modifyStore (change position)
      LogStore.flushEntries codec err) recordLog).Durable codec := by
  cases hstore : node.store with
  | none =>
    simp only [call, hstore]
    exact h
  | some store =>
    by_cases hfits : index + 1 < u64Limit
    · refine h.writeLog (change (index + 1) store) hstore err fun dir => ?_
      rw [addIndex_of_lt hfits, Act.exec_bind_ok (Act.exec_ofExcept _ _)]
      rfl
    · refine h.panic hstore "attempt to add with overflow" fun dir => ?_
      rw [addIndex_of_le (by omega), Act.exec_bind_error (Act.exec_ofExcept _ _)]

theorem RaftNode.Durable.append (h : node.Durable codec) (entries : List Entry)
    (plan : List Answer) : (node.step codec (.append entries plan)).Durable codec := by
  cases hstore : node.store with
  | none =>
    simp only [step, call, hstore]
    exact h
  | some store =>
    exact h.writeLog { store with entries := store.entries ++ entries } hstore
      (ioError .logs .write) fun _ => rfl

/-- The power loss leaves the contents of the two files alone. -/
def RaftEvent.KeepsContents (node : RaftNode) : RaftEvent → Prop
  | .powerLoss back kept => ∀ path ∈ [votePath, entriesPath],
      contents (node.dir.powerLoss back kept).io.disk path
        = contents (node.dir.versions[back]?.getD node.dir.io.disk) path
  | _ => True

theorem RaftNode.Durable.powerLoss (h : node.Durable codec) {back : Nat} {kept : String → Nat}
    (hkept : RaftEvent.KeepsContents node (.powerLoss back kept)) :
    (node.step codec (.powerLoss back kept)).Durable codec := by
  have hversion := h _ (CachedDir.powerLoss_version back node.dir)
  intro version' hversion'
  have hnew : version' = (node.dir.powerLoss back kept).io.disk := List.mem_singleton.mp hversion'
  rw [hnew]
  constructor
  · show Keeps codec.vote node.votes (contents (node.dir.powerLoss back kept).io.disk votePath)
    rw [hkept votePath (by simp)]
    exact hversion.vote
  · show Keeps codec.entries node.logs
      (contents (node.dir.powerLoss back kept).io.disk entriesPath)
    rw [hkept entriesPath (by simp)]
    exact hversion.log

/-- Every event keeps what a store may find. -/
theorem RaftNode.Durable.step (h : node.Durable codec) {event : RaftEvent}
    (hkept : event.KeepsContents node) : (node.step codec event).Durable codec := by
  cases event with
  | saveVote vote plan => exact h.saveVote vote plan
  | append entries plan => exact h.append entries plan
  | truncate logId plan =>
    exact h.indexed logId.index plan (fun keep store => if keep < store.entries.length then
      { store with entries := store.entries.take keep } else store) _
  | purge logId plan =>
    exact h.indexed logId.index plan (fun stop store => if store.entries.length ≤ stop then
      { store with entries := [] } else { store with entries := store.entries.drop stop }) _
  | «open» => exact fun version hversion => ⟨(h version hversion).vote, (h version hversion).log⟩
  | powerLoss back kept => exact h.powerLoss hkept

end

/-! ### Runs -/

/-- Every power loss of a run leaves the contents of the two files alone. -/
def RaftNode.ContentsKept (codec : Bincode) : RaftNode → List RaftEvent → Prop
  | _, [] => True
  | node, event :: events =>
    event.KeepsContents node ∧ ContentsKept codec (node.step codec event) events

theorem RaftNode.Durable.run {codec : Bincode} {node : RaftNode} (h : node.Durable codec)
    {events : List RaftEvent} (hkept : ContentsKept codec node events) :
    (events.foldl (RaftNode.step codec) node).Durable codec := by
  induction events generalizing node with
  | nil => exact h
  | cons event events ih => exact ih (h.step hkept.1) hkept.2

/-- Opening the store of a node finds a recent vote and a recent log. -/
def RaftNode.Recovers (codec : Bincode) (node : RaftNode) : Prop :=
  ∃ store, LogStore.open codec node.dir.io.disk = .ok store ∧ Recovered node.votes store.vote ∧
    ∃ found : Option (List Entry), Recovered node.logs found ∧ store.entries = found.getD []

theorem RaftNode.Durable.recovers {codec : Bincode} {node : RaftNode} (h : node.Durable codec) :
    node.Recovers codec := by
  have hnow := h _ node.dir.mem_versions
  obtain ⟨log, hlog, hlogFound⟩ := hnow.log.loadFile "log" codec.readEntries_entries
    codec.entries_ne_nil
  obtain ⟨vote, hvote, hvoteFound⟩ := hnow.vote.loadFile "vote" codec.readVote_vote
    codec.vote_ne_nil
  refine ⟨⟨log.getD [], vote⟩, ?_, hvoteFound, log, hlogFound, rfl⟩
  rw [LogStore.open, hlog, hvote]
  rfl

/-- When no power loss takes contents of the two files, no acknowledged vote or entry is lost. -/
theorem raft_store_durable (codec : Bincode) (events : List RaftEvent)
    (hkept : RaftNode.ContentsKept codec .start events) :
    (RaftNode.run codec events).Recovers codec := by
  have hstart : RaftNode.start.Durable codec := by
    intro version hversion
    rw [List.mem_singleton.mp hversion]
    exact ⟨⟨none, by simp [RaftNode.start, Recovered], rfl⟩,
      ⟨none, by simp [RaftNode.start, Recovered], rfl⟩⟩
  exact (hstart.run hkept).recovers

/-- A node loses power before the first vote is in place, and then saves another one. -/
def voteAfterLoss : List RaftEvent :=
  [.open, .saveVote ⟨⟨1, 1⟩, false⟩ [.ok, .crash 0], .powerLoss 0 fun _ => 0, .open,
    .saveVote ⟨⟨2, 1⟩, false⟩ []]

theorem raft_store_durable_voteAfterLoss :
    RaftNode.ContentsKept unaryCodec .start voteAfterLoss ∧
    (RaftNode.run unaryCodec voteAfterLoss).Recovers unaryCodec ∧
    (RaftNode.run unaryCodec voteAfterLoss).votes
      = [(⟨⟨1, 1⟩, false⟩, false), (⟨⟨2, 1⟩, false⟩, true)] := by
  have hkept : RaftNode.ContentsKept unaryCodec .start voteAfterLoss := by
    refine ⟨trivial, trivial, ?_, trivial, trivial, trivial⟩
    simp only [RaftEvent.KeepsContents]
    decide +kernel
  exact ⟨hkept, raft_store_durable unaryCodec voteAfterLoss hkept, by decide +kernel⟩

/-- A power loss after an acknowledged vote, with a file that was never synced. -/
theorem unsynced_vote_lost :
    (RaftNode.run unaryCodec [.open, .saveVote ⟨⟨1, 1⟩, false⟩ [], .powerLoss 0 fun _ => 0]).votes
      = [(⟨⟨1, 1⟩, false⟩, true)] ∧
    (LogStore.open unaryCodec (RaftNode.run unaryCodec
      [.open, .saveVote ⟨⟨1, 1⟩, false⟩ [], .powerLoss 0 fun _ => 0]).dir.io.disk).toOption
        = some ⟨[], none⟩ := by
  decide +kernel

end CereDB.Storage
