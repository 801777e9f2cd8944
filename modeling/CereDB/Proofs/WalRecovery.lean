import CereDB.Proofs.WalSegment
import CereDB.Storage.Wal

/-!
# `CereDB.Proofs.WalRecovery`: opening a log after a crash

A `LogLayout` is the abstract log: the segments from a floor on, all but the newest one sealed.
`Stored` relates it to a directory. `newInner_spec` is the recovery: from a directory whose newest
segment file is any start of its contents, opening repairs that file, and the log is then exactly
what the start held. `recoverRecords_spec` says which commands such a log gives back.
-/

set_option autoImplicit false

namespace CereDB.Storage

open CereDB.Lib

/-! ### Scanning one segment -/

/-- An I/O call failed or was the last one of the process. -/
def IoFault (halt : Halt) : Prop := halt = ioErrors.failed ∨ halt = ioErrors.crashed

/-- A whole sealed segment is read without touching the directory. -/
theorem scanSegment_whole {s : SegmentLog} (hvalid : s.Valid) {io : Io Nat} {id : Nat}
    {file : DurableFile} (hfile : io.disk[id]? = some file) (hbytes : file.bytes = s.bytes)
    {analysis : Analysis} {commands : List LogCommand} (hreads : analysis.Reads s.first commands)
    (tail : TailHandling) :
    ∃ analysis', Act.exec (scanSegmentWithTailHandling id tail analysis) io
        = (.ok (analysis', walVersion), io) ∧
      analysis'.Reads s.next (commands ++ s.redo) := by
  obtain ⟨analysis', hscan, hreads'⟩ := hvalid.scanBytes torn_nil hreads id
  refine ⟨analysis', ?_, hreads'⟩
  rw [List.append_nil] at hscan
  have hlong : ¬(s.bytes.length < walHeaderSize ∧ tail ≠ .reject) := by
    rw [s.length_bytes]
    omega
  have hread : Act.exec (Io.readFile ioErrors id) io = (.ok s.bytes, io) := by
    simp [Io.readFile, Act.exec_bind, hfile, hbytes]
  have hheader : Act.exec (completeHeader id tail analysis.latestLsn s.bytes) io
      = (.ok s.bytes, io) := by
    rw [completeHeader, if_neg hlong, Act.exec_pure]
  have htail : Act.exec (handleTail id tail s.bytes.length s.bytes.length) io = (.ok (), io) := by
    unfold handleTail
    rw [if_pos rfl, Act.exec_pure]
  rw [scanSegmentWithTailHandling, Act.exec_bind_ok hread, Act.exec_bind_ok hheader, hscan,
    Act.exec_bind_ok (Act.exec_ofExcept _ _)]
  exact Act.exec_bind_ok htail

/-- How repair may change the file of the newest segment: it stays a start of the segment, what
recovery finds in it stays the same, and durable bytes of whole frames stay durable. -/
structure Mended (s : SegmentLog) (file file' : DurableFile) : Prop where
  isPrefix : file'.bytes <+: s.bytes
  cut : s.cutTo file'.bytes.length = s.cutTo file.bytes.length
  synced : min file.synced (s.cutTo file.bytes.length).bytes.length ≤ file'.synced

theorem Mended.refl {s : SegmentLog} {file : DurableFile} (h : file.bytes <+: s.bytes) :
    Mended s file file :=
  ⟨h, rfl, min_le_left _ _⟩

/-- A file cut to its whole frames is mended. -/
theorem Mended.of_cut {s : SegmentLog} {file file' : DurableFile} (hfile : file.bytes <+: s.bytes)
    (hle : (s.cutTo file.bytes.length).bytes <+: file.bytes)
    (hbytes : file'.bytes = (s.cutTo file.bytes.length).bytes)
    (hsynced : min file.synced (s.cutTo file.bytes.length).bytes.length ≤ file'.synced) :
    Mended s file file' :=
  ⟨by rw [hbytes]; exact hle.trans hfile, by rw [hbytes, SegmentLog.cutTo_cutTo], hsynced⟩

theorem headerFor_start {bytes : Bytes} (h : bytes <+: WALHeader.default.encode)
    (latestLsn : Nat) : headerFor latestLsn bytes = some WALHeader.default.encode := by
  have hversion : walVersion ≠ legacyWalVersion := by decide
  have hpre : bytes.isPrefixOf WALHeader.default.encode = true := by
    rw [List.isPrefixOf_iff_prefix]
    exact h
  have hheader : ({ WALHeader.default with version := walVersion } : WALHeader) = .default := rfl
  simp only [headerFor]
  rw [List.filter_cons_of_pos (by simp [hversion]), List.map_cons, hheader,
    List.find?_cons_of_pos hpre]

/-- The outcome of the scan of the newest segment: the log it holds is what recovery finds in its
file, and the file is mended. -/
def ScannedNewest (s : SegmentLog) (commands : List LogCommand) (io : Io Nat) (id : Nat)
    (file : DurableFile) (found : Analysis × Nat) (io' : Io Nat) : Prop :=
  found.2 = walVersion ∧
    found.1.Reads (s.cutTo file.bytes.length).next
      (commands ++ (s.cutTo file.bytes.length).redo) ∧
    ∃ file', io'.disk = io.disk.insert id file' ∧
      file'.bytes = (s.cutTo file.bytes.length).bytes ∧ Mended s file file'

/-- A repair that did not succeed. -/
def RepairStopped (C : Prop) (s : SegmentLog) (io : Io Nat) (id : Nat) (file : DurableFile)
    (halt : Halt) (io' : Io Nat) : Prop :=
  ¬C ∧ IoFault halt ∧ ∃ file', io'.disk = io.disk.insert id file' ∧ Mended s file file'

section
variable {C : Prop} {s : SegmentLog} {io : Io Nat} {id : Nat} {file : DurableFile}

/-- The header of a file that is shorter than one is completed. -/
theorem completeHeader_short (hvalid : s.Valid) (hfile : io.disk[id]? = some file)
    (hpre : file.bytes <+: s.bytes) (hshort : file.bytes.length < walHeaderSize)
    (latestLsn : Nat) :
    Spec C (· = io) (completeHeader id .repair latestLsn file.bytes)
      (fun bytes io' => bytes = (s.cutTo file.bytes.length).bytes ∧
        ∃ file', io'.disk = io.disk.insert id file' ∧
          file'.bytes = (s.cutTo file.bytes.length).bytes ∧ Mended s file file')
      (RepairStopped C s io id file) := by
  obtain ⟨hheader, hcut⟩ := hvalid.cut_header hpre hshort
  have hencode := WALHeader.length_encode
  have hwhole : WALHeader.default.encode <+: s.bytes := List.prefix_append _ _
  have hsum : file.bytes ++ WALHeader.default.encode.drop file.bytes.length
      = WALHeader.default.encode := by
    obtain ⟨rest, hrest⟩ := hheader
    rw [← hrest, List.drop_left' rfl]
  -- Whatever part of the header is there, recovery finds nothing behind it.
  have hmended (file' : DurableFile) (hbytes : file'.bytes <+: WALHeader.default.encode)
      (hsynced : file.synced ≤ file'.synced) : Mended s file file' := by
    refine ⟨hbytes.trans hwhole, ?_, (min_le_left _ _).trans hsynced⟩
    have hlength : file'.bytes.length - walHeaderSize = file.bytes.length - walHeaderSize := by
      have hle := hbytes.length_le
      omega
    rw [SegmentLog.cutTo, SegmentLog.cutTo, hlength]
  have hsync : file.synced ≤ WALHeader.default.encode.length := by
    have := file.synced_le
    omega
  rw [completeHeader, if_pos ⟨hshort, by simp⟩, headerFor_start hheader, hcut]
  dsimp only
  rw [if_pos rfl]
  refine Spec.bind (Q := fun _ io' => ∃ file', io'.disk = io.disk.insert id file' ∧
      file'.bytes = WALHeader.default.encode ∧ file.synced ≤ file'.synced)
    (Spec.append hfile (fun _ => ⟨file.append _, rfl, hsum, le_rfl⟩)
      fun e plan written hC he => ?_)
    fun _ => Spec.fix ?_
  · refine ⟨hC, he, _, rfl, hmended _ ?_ le_rfl⟩
    rw [DurableFile.bytes_append, ← hsum]
    exact (List.prefix_append_right_inj _).mpr (by rw [hsum]; exact List.take_prefix _ _)
  rintro io₁ ⟨file₁, hio₁, hbytes₁, hsynced₁⟩
  have hfile₁ : io₁.disk[id]? = some file₁ := by simp [hio₁]
  have hmended₁ : Mended s file file₁ := hmended _ (by rw [hbytes₁]) hsynced₁
  have hmended₂ : Mended s file file₁.sync := by
    refine hmended _ (by rw [DurableFile.bytes_sync, hbytes₁]) ?_
    rw [DurableFile.synced_sync, hbytes₁]
    exact hsync
  refine Spec.bind (Q := fun _ io' => io'.disk = io.disk.insert id file₁.sync)
    (Spec.sync hfile₁ (fun _ => by rw [hio₁, OrdMap.insert_insert]) fun e plan hC he =>
      ⟨hC, he, _, hio₁, hmended₁⟩)
    fun _ => Spec.fix fun io₂ hio₂ => ?_
  refine Spec.bind (Q := fun _ io' => io'.disk = io₂.disk)
    (Spec.syncDir (fun _ => rfl) fun e plan hC he => ⟨hC, he, _, hio₂, hmended₂⟩)
    fun _ => Spec.pure fun io₃ hio₃ => ⟨rfl, _, by rw [hio₃, hio₂], ?_, hmended₂⟩
  rw [DurableFile.bytes_sync, hbytes₁]

/-- A torn frame at the end of the file is cut off. -/
theorem handleTail_spec (hvalid : s.Valid) (hfile : io.disk[id]? = some file)
    (hpre : file.bytes <+: s.bytes) (hheader : walHeaderSize ≤ file.bytes.length) :
    Spec C (· = io)
      (handleTail id .repair file.bytes.length (s.cutTo file.bytes.length).bytes.length)
      (fun _ io' => ∃ file', io'.disk = io.disk.insert id file' ∧
        file'.bytes = (s.cutTo file.bytes.length).bytes ∧ Mended s file file')
      (RepairStopped C s io id file) := by
  obtain ⟨torn, -, hbytes⟩ := hvalid.cut_bytes hpre hheader
  have hcut : (s.cutTo file.bytes.length).bytes <+: file.bytes := ⟨torn, hbytes.symm⟩
  unfold handleTail
  by_cases hwhole : (s.cutTo file.bytes.length).bytes.length = file.bytes.length
  · rw [if_pos hwhole]
    refine Spec.pure fun io' hio' => ⟨file, ?_, (hcut.eq_of_length hwhole).symm, Mended.refl hpre⟩
    rw [hio', OrdMap.insert_of_get? hfile]
  · rw [if_neg hwhole]
    have htake : (file.setLen (s.cutTo file.bytes.length).bytes.length).bytes
        = (s.cutTo file.bytes.length).bytes := (List.prefix_iff_eq_take.mp hcut).symm
    have hmended : Mended s file (file.setLen (s.cutTo file.bytes.length).bytes.length) :=
      .of_cut hpre hcut htake le_rfl
    refine Spec.bind (Q := fun _ io' => io'.disk
        = io.disk.insert id (file.setLen (s.cutTo file.bytes.length).bytes.length))
      (Spec.setLen hfile (fun _ => rfl) fun e plan hC he =>
        ⟨hC, he, file, (OrdMap.insert_of_get? hfile).symm, Mended.refl hpre⟩)
      fun _ => Spec.fix fun io₁ hio₁ => ?_
    have hfile₁ : io₁.disk[id]? = some (file.setLen (s.cutTo file.bytes.length).bytes.length) := by
      simp [hio₁]
    refine Spec.sync hfile₁
      (fun _ => ⟨(file.setLen _).sync, by rw [hio₁, OrdMap.insert_insert], htake, ?_⟩)
      fun e plan hC he => ⟨hC, he, _, hio₁, hmended⟩
    refine .of_cut hpre hcut htake ?_
    rw [DurableFile.synced_sync, htake]
    exact min_le_right _ _

/-- The scan of the newest segment, from any start of its file. -/
theorem scanNewest_spec (hvalid : s.Valid) (hfile : io.disk[id]? = some file)
    (hpre : file.bytes <+: s.bytes) {analysis : Analysis} {commands : List LogCommand}
    (hreads : analysis.Reads s.first commands) :
    Spec C (· = io) (scanSegmentWithTailHandling id .repair analysis)
      (ScannedNewest s commands io id file) (RepairStopped C s io id file) := by
  have hread : Act.exec (Io.readFile ioErrors id) io = (.ok file.bytes, io) := by
    simp [Io.readFile, Act.exec_bind, hfile]
  refine Spec.step hread rfl ?_
  by_cases hshort : file.bytes.length < walHeaderSize
  · refine Spec.bind (completeHeader_short hvalid hfile hpre hshort analysis.latestLsn)
      fun bytes => Spec.fix ?_
    rintro io₁ ⟨rfl, file', hio₁, hbytes, hmended⟩
    obtain ⟨analysis', hscan, hreads'⟩ := (hvalid.cutTo file.bytes.length).scanBytes torn_nil
      hreads id
    rw [List.append_nil] at hscan
    rw [hscan]
    refine Spec.step (Act.exec_ofExcept _ _) rfl ?_
    unfold handleTail
    dsimp only
    rw [if_pos rfl]
    exact Spec.step (Act.exec_pure _ _) rfl
      (Spec.pure fun io' hio' => ⟨rfl, hreads', file', by rw [hio', hio₁], hbytes, hmended⟩)
  · have hheader : walHeaderSize ≤ file.bytes.length := Nat.le_of_not_lt hshort
    obtain ⟨torn, htorn, hbytes⟩ := hvalid.cut_bytes hpre hheader
    obtain ⟨analysis', hscan, hreads'⟩ := (hvalid.cutTo file.bytes.length).scanBytes htorn hreads id
    rw [← hbytes] at hscan
    rw [completeHeader, if_neg (fun h => hshort h.1)]
    refine Spec.step (Act.exec_pure _ _) rfl ?_
    rw [hscan]
    refine Spec.step (Act.exec_ofExcept _ _) rfl ?_
    refine Spec.bind (handleTail_spec hvalid hfile hpre hheader) fun _ => Spec.pure ?_
    rintro io' ⟨file', hio', hbytes', hmended⟩
    exact ⟨rfl, hreads', file', hio', hbytes', hmended⟩

end

/-! ### The layout of a log -/

/-- Each segment starts at the LSN where the one before ends. -/
def Linked : Nat → List SegmentLog → Prop
  | _, [] => True
  | first, s :: segments => s.first = first ∧ Linked s.next segments

/-- The LSN behind linked segments. -/
def nextLsn : Nat → List SegmentLog → Nat
  | first, [] => first
  | _, s :: segments => nextLsn s.next segments

theorem Linked.append {first : Nat} {segments more : List SegmentLog} :
    Linked first (segments ++ more) ↔
      Linked first segments ∧ Linked (nextLsn first segments) more := by
  induction segments generalizing first with
  | nil => simp [Linked, nextLsn]
  | cons s segments ih => simp [Linked, nextLsn, ih, and_assoc]

/-- The log from a floor on: the id of its first segment, the LSN of its first frame, the sealed
segments, and the newest one. -/
structure LogLayout where
  floor : Nat
  first : Nat
  sealed : List SegmentLog
  newest : SegmentLog
deriving DecidableEq, Repr

namespace LogLayout

/-- The id of the newest segment. -/
def active (l : LogLayout) : Nat := l.floor + l.sealed.length

/-- All segments in order. -/
def segments (l : LogLayout) : List SegmentLog := l.sealed ++ [l.newest]

/-- The commands recovery takes from the log. -/
def redo (l : LogLayout) : List LogCommand := l.segments.flatMap SegmentLog.redo

/-- What recovery finds when the file of the newest segment has this length. -/
def cutTo (l : LogLayout) (length : Nat) : LogLayout := { l with newest := l.newest.cutTo length }

/-- The segments are valid and linked, and the id of the newest one is a `u64`. -/
structure Valid (l : LogLayout) : Prop where
  segments : ∀ s ∈ l.segments, s.Valid
  linked : Linked l.first l.segments
  active : l.active < u64Limit

theorem Valid.newest {l : LogLayout} (h : l.Valid) : l.newest.Valid :=
  h.segments _ (by simp [LogLayout.segments])

theorem Valid.newest_first {l : LogLayout} (h : l.Valid) :
    l.newest.first = nextLsn l.first l.sealed :=
  (Linked.append.mp h.linked).2.1

/-- A change of the newest segment that keeps its first LSN keeps the log valid. -/
theorem Valid.with_newest {l : LogLayout} (h : l.Valid) {s : SegmentLog} (hvalid : s.Valid)
    (hfirst : s.first = l.newest.first) : ({ l with newest := s } : LogLayout).Valid where
  segments t ht := by
    rw [LogLayout.segments, List.mem_append, List.mem_singleton] at ht
    cases ht with
    | inl hmem => exact h.segments t (by simp [LogLayout.segments, hmem])
    | inr heq => rw [heq]; exact hvalid
  linked := by
    have hold := Linked.append.mp h.linked
    refine Linked.append.mpr ⟨hold.1, ?_, trivial⟩
    rw [hfirst]
    exact hold.2.1
  active := h.active

theorem Valid.cutTo {l : LogLayout} (h : l.Valid) (length : Nat) : (l.cutTo length).Valid :=
  h.with_newest (h.newest.cutTo length) rfl

/-- The files of a log: whole and durable segments, a start of the newest one, and nothing
behind it. -/
structure Stored (l : LogLayout) (disk : Disk Nat) (file : DurableFile) : Prop where
  sealed : ∀ i s, l.sealed[i]? = some s → ∃ f, disk[l.floor + i]? = some f ∧ f.bytes = s.bytes ∧
    f.synced = f.bytes.length
  newest : disk[l.active]? = some file
  isPrefix : file.bytes <+: l.newest.bytes
  beyond : ∀ id, l.active < id → disk[id]? = none

/-- The sealed segments are scanned without touching the directory. -/
theorem scanSegments_sealed (io : Io Nat) {segments : List SegmentLog} {floor first : Nat}
    (hvalid : ∀ s ∈ segments, s.Valid) (hlinked : Linked first segments)
    (hfiles : ∀ i s, segments[i]? = some s →
      ∃ f, io.disk[floor + i]? = some f ∧ f.bytes = s.bytes)
    {analysis : Analysis} {commands : List LogCommand} (hreads : analysis.Reads first commands)
    (tail : TailHandling) (id version : Nat) :
    ∃ analysis', analysis'.Reads (nextLsn first segments)
        (commands ++ segments.flatMap SegmentLog.redo) ∧
      Act.exec (scanSegments tail (List.range' floor segments.length ++ [id]) (analysis, version)) io
        = Act.exec (scanSegments tail [id] (analysis', version)) io := by
  induction segments generalizing floor first analysis commands with
  | nil => exact ⟨analysis, by simpa [nextLsn] using hreads, rfl⟩
  | cons s segments ih =>
    obtain ⟨f, hf, hbytes⟩ := hfiles 0 s rfl
    rw [Nat.add_zero] at hf
    have hfirst : s.first = first := hlinked.1
    rw [← hfirst] at hreads
    obtain ⟨analysis₁, hscan, hreads₁⟩ := scanSegment_whole (hvalid s List.mem_cons_self) hf hbytes
      hreads .reject
    have hrestFiles : ∀ i t, segments[i]? = some t →
        ∃ f, io.disk[floor + 1 + i]? = some f ∧ f.bytes = t.bytes := by
      intro i t ht
      rw [Nat.add_assoc, Nat.add_comm 1 i]
      exact hfiles (i + 1) t ht
    obtain ⟨analysis', hreads', hrest⟩ := ih (fun t ht => hvalid t (List.mem_cons_of_mem s ht))
      hlinked.2 hrestFiles hreads₁
    refine ⟨analysis', ?_, ?_⟩
    · rw [List.flatMap_cons, ← List.append_assoc]
      exact hreads'
    · have hne : List.range' (floor + 1) segments.length ++ [id] ≠ [] := by simp
      rw [List.length_cons, List.range'_succ, List.cons_append, scanSegments, if_neg hne,
        Act.exec_bind_ok hscan, ← hrest]
      -- The version found so far is not looked at.
      cases hids : List.range' (floor + 1) segments.length ++ [id] with
      | nil => exact absurd hids hne
      | cons next ids => rfl

/-- The checkpoint names the floor and the first LSN; without one the log starts at segment 0. -/
def Matches (l : LogLayout) : Option RecoveryCheckpoint → Prop
  | none => l.floor = 0 ∧ l.first = 1
  | some checkpoint => checkpoint.replayStartSegment = l.floor ∧ checkpoint.nextPhysicalLsn = l.first

theorem consecutive_range' {floor n : Nat} (h : floor + n ≤ u64Limit) :
    consecutive (List.range' floor n) = true := by
  induction n generalizing floor with
  | zero => rfl
  | succ n ih =>
    cases n with
    | zero => rfl
    | succ n =>
      have htail : consecutive (List.range' (floor + 1) (n + 1)) = true := ih (by omega)
      have hnext : checkedAdd floor 1 = some (floor + 1) := if_pos (by omega)
      rw [List.range'_succ, List.range'_succ] at *
      simp only [consecutive, hnext, beq_self_eq_true, Bool.true_and]
      exact htail

/-- The ids of the log are those of its segments. -/
theorem Stored.segmentPaths {l : LogLayout} {disk : Disk Nat} {file : DurableFile}
    (h : l.Stored disk file) (hvalid : l.Valid) {checkpoint : Option RecoveryCheckpoint}
    (hmatch : l.Matches checkpoint) :
    segmentPaths disk (checkpoint.map (·.replayStartSegment))
      = .ok (List.range' l.floor (l.sealed.length + 1)) := by
  have hfloor : ∀ id, (checkpoint.map (·.replayStartSegment)).all (fun floor => floor ≤ id)
      = decide (l.floor ≤ id) := by
    intro id
    cases checkpoint with
    | none => simp [hmatch.1]
    | some checkpoint => simp [hmatch.1]
  have hids : ((disk.toList.map Prod.fst).filter fun id =>
      (checkpoint.map (·.replayStartSegment)).all fun floor => floor ≤ id)
        = List.range' l.floor (l.sealed.length + 1) := by
    have hsorted : (disk.toList.map Prod.fst).Pairwise (· < ·) :=
      List.pairwise_map.mpr (OrdMap.sorted_toList disk)
    refine List.Pairwise.eq_of_mem_iff (hsorted.filter _) (@List.pairwise_lt_range' _ _ 1 Nat.one_pos) ?_
    intro id
    rw [List.mem_filter, hfloor, List.mem_range'_1, List.mem_map]
    constructor
    · rintro ⟨⟨⟨key, f⟩, hmem, rfl⟩, hle⟩
      rw [OrdMap.mem_toList_iff] at hmem
      refine ⟨by simpa using hle, ?_⟩
      by_contra hbeyond
      have hnone := h.beyond key (by rw [LogLayout.active]; omega)
      rw [hmem] at hnone
      cases hnone
    · rintro ⟨hle, hlt⟩
      refine ⟨?_, by simpa using hle⟩
      by_cases hnewest : id = l.active
      · exact ⟨(id, file), by rw [OrdMap.mem_toList_iff, hnewest]; exact h.newest, rfl⟩
      · rw [LogLayout.active] at hnewest
        have hindex : id - l.floor < l.sealed.length := by omega
        obtain ⟨f, hf, -⟩ := h.sealed (id - l.floor) _ (List.getElem?_eq_getElem hindex)
        rw [Nat.add_sub_cancel' hle] at hf
        exact ⟨(id, f), by rw [OrdMap.mem_toList_iff]; exact hf, rfl⟩
  have hactive := hvalid.active
  rw [LogLayout.active] at hactive
  rw [Storage.segmentPaths, hids, consecutive_range' (by omega), if_neg, if_neg (by simp)]
  rintro ⟨hsome, hne⟩
  apply hne
  cases checkpoint with
  | none => cases hsome
  | some checkpoint => rw [List.range'_succ, Option.map_some, hmatch.1]; rfl

/-! ### Opening -/

/-- The manager of an open log. -/
def manager (l : LogLayout) (maxSegmentSize : Nat) (checkpoint : Option RecoveryCheckpoint)
    (checkpointOwner : Bool) : WALManager where
  writer := {
    segmentId := l.active
    size := l.newest.bytes.length
    nextLsn := l.newest.next
    poisoned := false
    sealed := (List.range' l.floor (l.sealed.length + 1)).toFinset.erase l.active
    checkpoint }
  maxSegmentSize := maxSegmentSize
  rawWrites := false
  checkpointOwner := checkpointOwner
  checkpointOwnerRegistered := false
  checkpointToken := none

theorem analysis_new_reads {first : Nat} (hpos : 0 < first) (trackRefs : Bool) :
    (Analysis.new (first - 1) trackRefs).Reads first [] where
  latest := Nat.sub_add_cancel hpos
  unknown _ _ := OrdMap.get?_empty _
  committed := by simp [Analysis.new]
  updates := by simp [Analysis.new]
  commands := rfl
  legacy := rfl

theorem Matches.startLsn {l : LogLayout} {checkpoint : Option RecoveryCheckpoint}
    (h : l.Matches checkpoint) (hpos : 0 < l.first) : startLsn checkpoint = .ok (l.first - 1) := by
  cases checkpoint with
  | none => rw [h.2]; rfl
  | some checkpoint =>
    have hne : checkpoint.nextPhysicalLsn ≠ 0 := by rw [h.2]; omega
    rw [Storage.startLsn, if_neg hne, h.2]

theorem Linked.head_first {first : Nat} {segments : List SegmentLog} (h : Linked first segments)
    (hvalid : ∀ s ∈ segments, s.Valid) (hne : segments ≠ []) : 0 < first := by
  cases segments with
  | nil => exact absurd rfl hne
  | cons s segments =>
    rw [← h.1]
    exact (hvalid s List.mem_cons_self).positive

theorem Valid.first_pos {l : LogLayout} (h : l.Valid) : 0 < l.first :=
  Linked.head_first h.linked h.segments (by simp [LogLayout.segments])

/-- Opening a log after a crash, from any start of the newest segment file. -/
theorem newInner_spec {C : Prop} {l : LogLayout} (io : Io Nat) {file : DurableFile}
    (hvalid : l.Valid) (hstored : l.Stored io.disk file) {checkpoint : Option RecoveryCheckpoint}
    (hmatch : l.Matches checkpoint) (maxSegmentSize : Nat) (checkpointOwner : Bool) :
    Spec C (· = io) (WALManager.newInner maxSegmentSize checkpoint checkpointOwner)
      (fun m io' => m = (l.cutTo file.bytes.length).manager maxSegmentSize checkpoint checkpointOwner ∧
        ∃ file', io'.disk = io.disk.insert l.active file' ∧
          file'.bytes = (l.cutTo file.bytes.length).newest.bytes ∧ Mended l.newest file file')
      (RepairStopped C l.newest io l.active file) := by
  have hids := hstored.segmentPaths hvalid hmatch
  have hrange : List.range' l.floor (l.sealed.length + 1)
      = List.range' l.floor l.sealed.length ++ [l.active] := List.range'_1_concat
  have hne : List.range' l.floor (l.sealed.length + 1) ≠ [] := by simp
  obtain ⟨analysis, hreads, hscan⟩ := scanSegments_sealed io
    (fun s hs => hvalid.segments s (List.mem_append_left _ hs)) (Linked.append.mp hvalid.linked).1
    (fun i s hs => (hstored.sealed i s hs).imp fun _ hf => ⟨hf.1, hf.2.1⟩)
    (analysis_new_reads hvalid.first_pos false) .repair l.active walVersion
  rw [List.nil_append, ← hvalid.newest_first] at hreads
  have hpaths : Act.exec (Act.ofExcept (segmentPaths io.disk (checkpoint.map
      (·.replayStartSegment))) : Op (Io Nat) (List Nat)) io
        = (.ok (List.range' l.floor (l.sealed.length + 1)), io) := by
    rw [hids, Act.exec_ofExcept]
  refine Spec.step (t := io) (Act.exec_get io) rfl (Spec.step hpaths rfl ?_)
  rw [hmatch.startLsn hvalid.first_pos]
  refine Spec.step (Act.exec_ofExcept _ _) rfl ?_
  -- The sealed segments leave the directory alone, so only the newest one is left to scan.
  refine Spec.bind (Q := ScannedNewest l.newest (l.sealed.flatMap SegmentLog.redo) io l.active file)
    ?_ fun found => Spec.fix ?_
  · intro s hs
    obtain ⟨hcalm, rfl⟩ := hs
    rw [hrange, hscan]
    have hnewest := scanNewest_spec (C := C) hvalid.newest hstored.newest hstored.isPrefix hreads
    exact Spec.bind (f := fun found => scanSegments .repair [] found) hnewest
      (fun _ => Spec.pure fun _ h => h) s ⟨hcalm, rfl⟩
  · rintro io₁ ⟨hversion, hfound, file', hio₁, hbytes, hmended⟩
    obtain ⟨analysis', version⟩ := found
    replace hversion : version = walVersion := hversion
    have hlast : (List.range' l.floor (l.sealed.length + 1)).getLast?.getD 0 = l.active := by
      rw [hrange, List.getLast?_append]
      rfl
    have hsegment : activeSegment (List.range' l.floor (l.sealed.length + 1)) version
        = .ok l.active := by
      rw [activeSegment, hlast, hversion]
      exact if_neg fun h => absurd h.1 (by decide)
    have hread : Act.exec (Io.readFile ioErrors l.active) io₁ = (.ok file'.bytes, io₁) := by
      simp [Io.readFile, Act.exec_bind, hio₁]
    have hnext : addOrPanic analysis'.latestLsn 1 = .ok (l.newest.cutTo file.bytes.length).next := by
      have hlatest : analysis'.latestLsn + 1 = _ := hfound.latest
      rw [addOrPanic_of_lt (by rw [hlatest]; exact (hvalid.newest.cutTo _).next), hlatest]
    dsimp only
    rw [hsegment]
    refine Spec.step (Act.exec_ofExcept _ _) rfl ?_
    rw [if_neg (by rw [hversion]; simp only [hne, false_or]; decide)]
    refine Spec.step hread rfl ?_
    rw [hnext]
    refine Spec.step (Act.exec_ofExcept _ _) rfl (Spec.pure ?_)
    rintro io' rfl
    refine ⟨?_, file', hio₁, hbytes, hmended⟩
    rw [hbytes]
    rfl

/-- A log without a frame. -/
def initial : LogLayout where
  floor := 0
  first := 1
  sealed := []
  newest := ⟨1, []⟩

theorem initial_valid : initial.Valid where
  segments s hs := by
    rw [LogLayout.segments, initial, List.nil_append, List.mem_singleton] at hs
    subst hs
    exact ⟨by simp, by decide, by decide⟩
  linked := ⟨rfl, trivial⟩
  active := by decide

theorem initial_bytes : initial.newest.bytes = WALHeader.default.encode := by
  simp [initial, SegmentLog.bytes, chunkFrames]

/-- The outcome of a segment creation that did not succeed: there is no file, or one with a start
of the header. -/
def CreateStopped (C : Prop) (io : Io Nat) (id : Nat) (halt : Halt) (io' : Io Nat) : Prop :=
  ¬C ∧ IoFault halt ∧ (io'.disk = io.disk ∨
    ∃ file, io'.disk = io.disk.insert id file ∧ file.bytes <+: WALHeader.default.encode)

/-- A new segment has a header and nothing else. -/
theorem createSegment_spec {C : Prop} {io : Io Nat} {id : Nat} (hnew : io.disk[id]? = none) :
    Spec C (· = io) (createSegment id)
      (fun _ io' => ∃ file, io'.disk = io.disk.insert id file ∧
        file.bytes = WALHeader.default.encode ∧ file.synced = file.bytes.length)
      (CreateStopped C io id) := by
  refine Spec.bind (Q := fun _ io' => io'.disk = io.disk.insert id .empty)
    (Spec.createNew hnew (fun _ => rfl) fun e plan hC he => ⟨hC, he, .inl rfl⟩)
    fun _ => Spec.fix fun io₁ hio₁ => ?_
  have hfile₁ : io₁.disk[id]? = some .empty := by simp [hio₁]
  refine Spec.bind (Q := fun _ io' => ∃ file, io'.disk = io.disk.insert id file ∧
      file.bytes = WALHeader.default.encode)
    (Spec.append hfile₁
      (fun _ => ⟨DurableFile.append .empty WALHeader.default.encode,
        by rw [hio₁, OrdMap.insert_insert], rfl⟩)
      fun e plan written hC he => ⟨hC, he, .inr ⟨DurableFile.append .empty _,
        by rw [hio₁, OrdMap.insert_insert], List.take_prefix written _⟩⟩)
    fun _ => Spec.fix ?_
  rintro io₂ ⟨file, hio₂, hbytes⟩
  have hfile₂ : io₂.disk[id]? = some file := by simp [hio₂]
  refine Spec.bind (Q := fun _ io' => io'.disk = io.disk.insert id file.sync)
    (Spec.sync hfile₂ (fun _ => by rw [hio₂, OrdMap.insert_insert]) fun e plan hC he =>
      ⟨hC, he, .inr ⟨file, hio₂, by rw [hbytes]⟩⟩)
    fun _ => Spec.fix fun io₃ hio₃ => ?_
  exact Spec.syncDir (fun _ => ⟨file.sync, hio₃, hbytes, rfl⟩) fun e plan hC he =>
    ⟨hC, he, .inr ⟨file.sync, hio₃, by rw [DurableFile.bytes_sync, hbytes]⟩⟩

/-- Opening an empty directory creates the first segment. -/
theorem newInner_empty {C : Prop} (io : Io Nat) (hempty : io.disk = ∅) (maxSegmentSize : Nat)
    (checkpointOwner : Bool) :
    Spec C (· = io) (WALManager.newInner maxSegmentSize none checkpointOwner)
      (fun m io' => m = initial.manager maxSegmentSize none checkpointOwner ∧
        ∃ file, io'.disk = io.disk.insert 0 file ∧ file.bytes = WALHeader.default.encode ∧
          file.synced = file.bytes.length)
      (CreateStopped C io 0) := by
  have hpaths : Act.exec (Act.ofExcept (Storage.segmentPaths io.disk (Option.map
      (fun c : RecoveryCheckpoint => c.replayStartSegment) none)) : Op (Io Nat) (List Nat)) io
        = (.ok [], io) := by
    rw [hempty, Act.exec_ofExcept]
    rfl
  refine Spec.step (t := io) (Act.exec_get io) rfl (Spec.step hpaths rfl ?_)
  refine Spec.step (Act.exec_ofExcept _ _) rfl (Spec.step (Act.exec_pure _ _) rfl ?_)
  dsimp only
  refine Spec.step (a := 0) (Act.exec_ofExcept _ _) rfl ?_
  rw [if_pos (Or.inl rfl)]
  refine Spec.bind (createSegment_spec (by rw [hempty]; rfl)) fun _ => Spec.fix ?_
  rintro io₁ ⟨file, hio₁, hbytes, hsynced⟩
  have hread : Act.exec (Io.readFile ioErrors 0) io₁ = (.ok file.bytes, io₁) := by
    simp [Io.readFile, Act.exec_bind, hio₁]
  refine Spec.step hread rfl ?_
  have hnext : addOrPanic (Analysis.new 0 false).latestLsn 1 = .ok 1 := rfl
  rw [hnext]
  refine Spec.step (Act.exec_ofExcept _ _) rfl (Spec.pure ?_)
  rintro io' rfl
  refine ⟨?_, file, hio₁, hbytes, hsynced⟩
  rw [hbytes, ← initial_bytes]
  rfl

end LogLayout

end CereDB.Storage
