import CereDB.Proofs.WalAppend
import CereDB.Proofs.WalReadValue
import CereDB.Proofs.WalSurvey

/-!
# `CereDB.Proofs.WalRepair`: opening any directory

Opening a directory that the lenient survey accepts (`Opens`) leaves one that the strict survey
accepts with the same analysis (`Clean`), and whatever a failed or interrupted opening leaves can
again be opened with the same analysis (`newInner_repairs`). The other way round, a directory that
was opened is one that the survey accepts (`opens_of_newInner`). So the preflight, which surveys
without writing, predicts recovery (`preflight_predicts_recovery`), and repair is idempotent and
loses nothing (`repair_idempotent_conservative`).
-/

set_option autoImplicit false

namespace CereDB.Storage

open CereDB.Lib

/-! ### Directories -/

/-- The ids of the segments of a directory. -/
def segmentIds (disk : Disk Nat) : List Nat := disk.toList.map Prod.fst

theorem mem_segmentIds {disk : Disk Nat} {id : Nat} :
    id ∈ segmentIds disk ↔ ∃ file, disk[id]? = some file := by
  rw [segmentIds, List.mem_map]
  constructor
  · rintro ⟨⟨key, file⟩, hmem, rfl⟩
    exact ⟨file, (OrdMap.mem_toList_iff _ _ _).mp hmem⟩
  · rintro ⟨file, hfile⟩
    exact ⟨(id, file), (OrdMap.mem_toList_iff _ _ _).mpr hfile, rfl⟩

theorem sorted_segmentIds (disk : Disk Nat) : (segmentIds disk).Pairwise (· < ·) :=
  List.pairwise_map.mpr (OrdMap.sorted_toList disk)

/-- Sorted lists of the same ids. -/
theorem segmentIds_eq {disk : Disk Nat} {ids : List Nat} (hsorted : ids.Pairwise (· < ·))
    (h : ∀ id, id ∈ ids ↔ ∃ file, disk[id]? = some file) : segmentIds disk = ids :=
  List.Pairwise.eq_of_mem_iff (sorted_segmentIds disk) hsorted fun id =>
    mem_segmentIds.trans (h id).symm

theorem segmentPaths_none {disk : Disk Nat} {ids : List Nat} :
    segmentPaths disk none = .ok ids ↔ ids = segmentIds disk ∧ consecutive ids = true := by
  have hids : ((disk.toList.map Prod.fst).filter fun id =>
      (none : Option Nat).all fun floor => floor ≤ id) = segmentIds disk :=
    List.filter_eq_self.mpr fun _ _ => rfl
  rw [segmentPaths, hids, if_neg (by simp)]
  by_cases hconsecutive : consecutive (segmentIds disk) = true
  · rw [if_neg (by simp [hconsecutive])]
    constructor
    · intro h
      rw [← Except.ok.inj h]
      exact ⟨rfl, hconsecutive⟩
    · rintro ⟨rfl, -⟩
      rfl
  · rw [if_pos (by simp [hconsecutive])]
    constructor
    · intro h
      cases h
    · rintro ⟨rfl, h⟩
      exact absurd h hconsecutive

/-- The id behind the last one follows in sequence. -/
theorem consecutive_concat {ids : List Nat} {last : Nat}
    (h : consecutive (ids ++ [last]) = true) (hlast : last + 1 < u64Limit) :
    consecutive (ids ++ [last] ++ [last + 1]) = true := by
  have hnext : checkedAdd last 1 = some (last + 1) := if_pos hlast
  induction ids with
  | nil => simp [consecutive, hnext]
  | cons id ids ih =>
    cases ids with
    | nil =>
      simp only [List.cons_append, List.nil_append, consecutive, Bool.and_true] at h ⊢
      simp [h, hnext]
    | cons next ids =>
      simp only [List.cons_append, consecutive, Bool.and_eq_true] at h ⊢
      exact ⟨h.1, ih h.2⟩

/-- A directory that can be opened: the lenient survey accepts it, and there is a segment to write
to and an LSN to go on with. -/
structure Opens (disk : Disk Nat) (ids : List Nat) (analysis : Analysis) (version active : Nat) :
    Prop where
  paths : segmentPaths disk none = .ok ids
  surveyed : survey disk true ids (.new 0 true, walVersion) = .ok (analysis, version)
  active : activeSegment ids version = .ok active
  lsn : analysis.latestLsn + 1 < u64Limit

/-- A directory that needs no repair. -/
structure Clean (disk : Disk Nat) (ids : List Nat) (analysis : Analysis) (version : Nat) :
    Prop where
  paths : segmentPaths disk none = .ok ids
  nonempty : ids ≠ []
  surveyed : survey disk false ids (.new 0 true, walVersion) = .ok (analysis, version)
  version : version ≠ legacyWalVersion
  lsn : analysis.latestLsn + 1 < u64Limit

/-- All files of the directory are durable. -/
def AllDurable (disk : Disk Nat) : Prop :=
  ∀ (id : Nat) (file : DurableFile), disk[id]? = some file → AllSynced file

theorem AllDurable.insert {disk : Disk Nat} (h : AllDurable disk) {id : Nat} {file : DurableFile}
    (hfile : AllSynced file) : AllDurable (disk.insert id file) := by
  intro other found hfound
  rw [OrdMap.get?_insert] at hfound
  split at hfound
  · rw [← Option.some.inj hfound]
    exact hfile
  · exact h other found hfound

/-- A power loss leaves the contents of durable files alone. -/
theorem fileBytes_powerLoss {disk : Disk Nat} {kept : Nat → Nat} {id : Nat}
    (h : ∀ file, disk[id]? = some file → AllSynced file) :
    fileBytes (disk.powerLoss kept) id = fileBytes disk id := by
  rw [fileBytes, fileBytes, Disk.get?_powerLoss]
  cases hfile : disk[id]? with
  | none => rfl
  | some file =>
    show (Except.ok (file.cut (kept id)).bytes : Exec Bytes) = .ok file.bytes
    rw [(h file hfile).cut]

theorem fileBytes_insert (disk : Disk Nat) (id other : Nat) (file : DurableFile) :
    fileBytes (disk.insert id file) other
      = if id = other then .ok file.bytes else fileBytes disk other := by
  rw [fileBytes, fileBytes, OrdMap.get?_insert]
  by_cases hid : id = other
  · rw [if_pos hid, if_pos hid]
  · rw [if_neg hid, if_neg hid]

/-- The ids are those of the files that are there. -/
theorem segmentPaths_congr {disk disk' : Disk Nat}
    (h : ∀ id : Nat, (∃ file, disk'[id]? = some file) ↔ ∃ file, disk[id]? = some file) :
    segmentPaths disk' none = segmentPaths disk none := by
  have hids : segmentIds disk' = segmentIds disk :=
    segmentIds_eq (sorted_segmentIds disk) fun id => mem_segmentIds.trans (h id).symm
  have hsame : (disk'.toList.map Prod.fst) = disk.toList.map Prod.fst := hids
  rw [segmentPaths, segmentPaths, hsame]

theorem segmentPaths_powerLoss (disk : Disk Nat) (kept : Nat → Nat) :
    segmentPaths (disk.powerLoss kept) none = segmentPaths disk none := by
  refine segmentPaths_congr fun id => ?_
  rw [Disk.get?_powerLoss]
  cases disk[id]? <;> simp

theorem segmentPaths_insert {disk : Disk Nat} {id : Nat} {old : DurableFile}
    (hold : disk[id]? = some old) (file : DurableFile) :
    segmentPaths (disk.insert id file) none = segmentPaths disk none := by
  refine segmentPaths_congr fun other => ?_
  rw [OrdMap.get?_insert]
  split
  · rename_i hid
    subst hid
    simp [hold]
  · exact Iff.rfl

/-- A segment behind all others. -/
theorem segmentPaths_new {disk : Disk Nat} {ids : List Nat} {next : Nat}
    (hpaths : segmentPaths disk none = .ok ids) (hnext : ∀ id ∈ ids, id < next)
    (hconsecutive : consecutive (ids ++ [next]) = true) (file : DurableFile) :
    segmentPaths (disk.insert next file) none = .ok (ids ++ [next]) := by
  obtain ⟨rfl, -⟩ := segmentPaths_none.mp hpaths
  refine segmentPaths_none.mpr ⟨(segmentIds_eq ?_ fun id => ?_).symm, hconsecutive⟩
  · refine List.pairwise_append.mpr ⟨sorted_segmentIds disk, List.pairwise_singleton _ _, ?_⟩
    intro id hid other hother
    rw [List.mem_singleton.mp hother]
    exact hnext id hid
  · rw [List.mem_append, mem_segmentIds, List.mem_singleton, OrdMap.get?_insert]
    by_cases hid : next = id
    · simp [hid]
    · simp [hid, Ne.symm hid]

/-- What the strict survey accepts, the lenient one does. -/
theorem survey_lenient {disk : Disk Nat} {ids : List Nat} {found found' : Analysis × Nat}
    (h : survey disk false ids found = .ok found') : survey disk true ids found = .ok found' := by
  rcases List.eq_nil_or_concat' ids with rfl | ⟨init, last, rfl⟩
  · exact h
  · rw [survey_concat] at h ⊢
    obtain ⟨found₁, hinit, h⟩ := Exec.bind_eq_ok h
    rw [hinit, Exec.ok_bind, survey_singleton]
    rw [survey_singleton] at h
    obtain ⟨bytes, hbytes, h⟩ := Exec.bind_eq_ok h
    rw [hbytes, Exec.ok_bind]
    exact surveyFile_lenient.mpr ⟨_, _, Repairs.of_strict h⟩

/-- A new segment adds nothing to a survey. -/
theorem survey_new {disk : Disk Nat} {ids : List Nat} {next version : Nat} {lenient : Bool}
    {analysis : Analysis} (hsurvey : survey disk false ids (.new 0 true, walVersion)
      = .ok (analysis, version)) (hnext : ∀ id ∈ ids, id < next) {file : DurableFile}
    (hpre : file.bytes <+: WALHeader.default.encode)
    (hwhole : lenient = false → file.bytes = WALHeader.default.encode) :
    survey (disk.insert next file) lenient (ids ++ [next]) (.new 0 true, walVersion)
      = .ok (analysis, walVersion) := by
  have hold : ∀ id ∈ ids, fileBytes (disk.insert next file) id = fileBytes disk id := by
    intro id hid
    have hlt := hnext id hid
    rw [fileBytes_insert, if_neg (by omega)]
  rw [survey_concat, survey_congr hold, hsurvey, Exec.ok_bind, survey_singleton, fileBytes_insert,
    if_pos rfl, Exec.ok_bind]
  exact surveyFile_header hpre hwhole

theorem activeSegment_concat {ids : List Nat} {last version : Nat}
    (hversion : version ≠ legacyWalVersion) : activeSegment (ids ++ [last]) version = .ok last := by
  have hlast : (ids ++ [last]).getLast?.getD 0 = last := by simp
  rw [activeSegment, hlast]
  exact if_neg fun h => hversion h.1

/-- A directory whose segments are all whole. -/
structure Whole (disk : Disk Nat) (ids : List Nat) (analysis : Analysis) (version : Nat) :
    Prop where
  paths : segmentPaths disk none = .ok ids
  surveyed : survey disk false ids (.new 0 true, walVersion) = .ok (analysis, version)
  durable : AllDurable disk

/-- The newest segment of a directory: what stands in front of it is whole, and its file is one
that the lenient survey accepts. -/
structure NewestSegment (disk : Disk Nat) (ids : List Nat) (last : Nat) (analysis₁ analysis : Analysis)
    (version : Nat) (file : DurableFile) (full : Bytes) (stop : Nat) : Prop where
  sealed : ∃ version₁, survey disk false ids (.new 0 true, walVersion) = .ok (analysis₁, version₁)
  stored : disk[last]? = some file
  repairs : Repairs last file.bytes analysis₁ analysis version full stop

theorem survey_newest {disk : Disk Nat} {ids : List Nat} {last version : Nat} {analysis : Analysis}
    (h : survey disk true (ids ++ [last]) (.new 0 true, walVersion) = .ok (analysis, version)) :
    ∃ analysis₁ file full stop, NewestSegment disk ids last analysis₁ analysis version file full stop := by
  rw [survey_concat] at h
  obtain ⟨⟨analysis₁, version₁⟩, hinit, h⟩ := Exec.bind_eq_ok h
  rw [survey_singleton] at h
  obtain ⟨bytes, hbytes, h⟩ := Exec.bind_eq_ok h
  obtain ⟨full, stop, hrepairs⟩ := surveyFile_lenient.mp h
  rw [fileBytes] at hbytes
  cases hfile : disk[last]? with
  | none =>
    rw [hfile] at hbytes
    cases hbytes
  | some file =>
    rw [hfile] at hbytes
    rw [← Except.ok.inj hbytes] at hrepairs
    exact ⟨analysis₁, file, full, stop, ⟨version₁, hinit⟩, hfile, hrepairs⟩

section
variable {disk : Disk Nat} {ids : List Nat} {last version active : Nat} {analysis : Analysis}

/-- The ids in front of the last one are smaller. -/
theorem lt_last (hpaths : segmentPaths disk none = .ok (ids ++ [last])) {id : Nat}
    (hid : id ∈ ids) : id < last := by
  have hsorted := sorted_segmentIds disk
  rw [← (segmentPaths_none.mp hpaths).1] at hsorted
  exact (List.pairwise_append.mp hsorted).2.2 id hid last List.mem_cons_self

/-- Files in front of the newest one are not looked at again. -/
theorem survey_replaced (hpaths : segmentPaths disk none = .ok (ids ++ [last]))
    (file : DurableFile) (found : Analysis × Nat) :
    survey (disk.insert last file) false ids found = survey disk false ids found := by
  refine survey_congr (fun id hid => ?_) found
  have hlt := lt_last hpaths hid
  rw [fileBytes_insert, if_neg (by omega)]

/-- A repaired directory is whole. -/
theorem Opens.whole (h : Opens disk (ids ++ [last]) analysis version active)
    (hdurable : AllDurable disk) {analysis₁ : Analysis} {stop : Nat} {file file' : DurableFile}
    {full : Bytes} (hnewest : NewestSegment disk ids last analysis₁ analysis version file full stop)
    (hbytes : file'.bytes = full.take stop) (hsynced : AllSynced file') :
    Whole (disk.insert last file') (ids ++ [last]) analysis version where
  paths := by rw [segmentPaths_insert hnewest.stored, h.paths]
  surveyed := by
    obtain ⟨version₁, hinit⟩ := hnewest.sealed
    rw [survey_concat, survey_replaced h.paths, hinit, Exec.ok_bind, survey_singleton,
      fileBytes_insert, if_pos rfl, Exec.ok_bind, hbytes]
    exact hnewest.repairs.strict
  durable := hdurable.insert hsynced

/-- What a stopped repair leaves can be opened as before. -/
theorem Opens.midway (h : Opens disk (ids ++ [last]) analysis version active)
    (hdurable : AllDurable disk) {analysis₁ : Analysis} {stop : Nat} {file file' : DurableFile}
    {full : Bytes} (hnewest : NewestSegment disk ids last analysis₁ analysis version file full stop)
    (hmidway : ∀ n, Midway file.bytes full stop (file'.cut n).bytes) (kept : Nat → Nat) :
    Opens (Disk.powerLoss (disk.insert last file') kept) (ids ++ [last]) analysis version active where
  paths := by rw [segmentPaths_powerLoss, segmentPaths_insert hnewest.stored, h.paths]
  surveyed := by
    have hold : ∀ id ∈ ids, fileBytes (Disk.powerLoss (disk.insert last file') kept) id
        = fileBytes (disk.insert last file') id := by
      intro id hid
      refine fileBytes_powerLoss fun found hfound => ?_
      have hlt := lt_last h.paths hid
      rw [OrdMap.get?_insert, if_neg (by omega)] at hfound
      exact hdurable id found hfound
    have hnew : fileBytes (Disk.powerLoss (disk.insert last file') kept) last
        = .ok (file'.cut (kept last)).bytes := by
      rw [fileBytes, Disk.get?_powerLoss, OrdMap.get?_insert, if_pos rfl]
      rfl
    obtain ⟨version₁, hinit⟩ := hnewest.sealed
    rw [survey_concat, survey_congr hold, survey_replaced h.paths, hinit, Exec.ok_bind,
      survey_singleton, hnew, Exec.ok_bind]
    exact hnewest.repairs.midway (hmidway (kept last))
  active := h.active
  lsn := h.lsn

/-- A whole directory stays as it is, also through a power loss. -/
theorem Whole.opens (h : Whole disk ids analysis version)
    (hactive : activeSegment ids version = .ok active) (hlsn : analysis.latestLsn + 1 < u64Limit)
    (kept : Nat → Nat) : Opens (disk.powerLoss kept) ids analysis version active where
  paths := by rw [segmentPaths_powerLoss, h.paths]
  surveyed := by
    rw [survey_congr fun id _ => fileBytes_powerLoss (h.durable id)]
    exact survey_lenient h.surveyed
  active := hactive
  lsn := hlsn

/-- A new segment whose header may be incomplete. -/
theorem Whole.opens_new {next : Nat} (h : Whole disk ids analysis version)
    (hlsn : analysis.latestLsn + 1 < u64Limit) (hnext : ∀ id ∈ ids, id < next)
    (hconsecutive : consecutive (ids ++ [next]) = true) {file : DurableFile}
    (hpre : file.bytes <+: WALHeader.default.encode) (kept : Nat → Nat) :
    Opens (Disk.powerLoss (disk.insert next file) kept) (ids ++ [next]) analysis walVersion next where
  paths := by rw [segmentPaths_powerLoss, segmentPaths_new h.paths hnext hconsecutive]
  surveyed := by
    -- The new file is the only one that may lose bytes.
    have hsame : ∀ id ∈ ids ++ [next], fileBytes (Disk.powerLoss (disk.insert next file) kept) id
        = fileBytes (disk.insert next (file.cut (kept next))) id := by
      intro id hid
      rw [fileBytes_insert]
      by_cases hnew : next = id
      · rw [if_pos hnew, fileBytes, Disk.get?_powerLoss, OrdMap.get?_insert, if_pos hnew, ← hnew]
        rfl
      · rw [if_neg hnew, fileBytes_powerLoss, fileBytes_insert, if_neg hnew]
        intro found hfound
        rw [OrdMap.get?_insert, if_neg hnew] at hfound
        exact h.durable id found hfound
    rw [survey_congr hsame]
    exact survey_new h.surveyed hnext ((List.take_prefix _ _).trans hpre) (by simp)
  active := activeSegment_concat (by decide)
  lsn := hlsn

/-- A new segment with its header. -/
theorem Whole.clean_new {next : Nat} (h : Whole disk ids analysis version)
    (hlsn : analysis.latestLsn + 1 < u64Limit) (hnext : ∀ id ∈ ids, id < next)
    (hconsecutive : consecutive (ids ++ [next]) = true) {file : DurableFile}
    (hbytes : file.bytes = WALHeader.default.encode) :
    Clean (disk.insert next file) (ids ++ [next]) analysis walVersion where
  paths := segmentPaths_new h.paths hnext hconsecutive file
  nonempty := by simp
  surveyed := survey_new h.surveyed hnext (by rw [hbytes]) fun _ => hbytes
  version := by decide
  lsn := hlsn

end

/-! ### Opening -/

/-- Every record that decodes in sequence from the start of its segment is still there. -/
def KeepsRecords (disk disk' : Disk Nat) : Prop :=
  ∀ (id : Nat) (file : DurableFile), disk[id]? = some file → ∃ file', disk'[id]? = some file' ∧
    ∀ header offset, WALHeader.decode file.bytes = .ok header →
      Decodes header.version file.bytes offset → file.bytes.take offset <+: file'.bytes

theorem KeepsRecords.refl (disk : Disk Nat) : KeepsRecords disk disk :=
  fun _ file hfile => ⟨file, hfile, fun _ _ _ _ => List.take_prefix _ _⟩

/-- A new file changes no other. -/
theorem KeepsRecords.insert_new {disk disk' : Disk Nat} (h : KeepsRecords disk disk') {id : Nat}
    (hnew : disk'[id]? = none) (file : DurableFile) : KeepsRecords disk (disk'.insert id file) := by
  intro other old hold
  obtain ⟨file', hfile', hkeeps⟩ := h other old hold
  refine ⟨file', ?_, hkeeps⟩
  rw [OrdMap.get?_insert, if_neg, hfile']
  rintro rfl
  rw [hnew] at hfile'
  cases hfile'

section
variable {C : Prop} {io : Io Nat} {ids : List Nat} {version active : Nat} {analysis : Analysis}

theorem NewestSegment.keeps {disk : Disk Nat} {last stop : Nat} {analysis₁ : Analysis}
    {file file' : DurableFile} {full : Bytes}
    (h : NewestSegment disk ids last analysis₁ analysis version file full stop)
    (hbytes : file'.bytes = full.take stop) : KeepsRecords disk (disk.insert last file') := by
  intro id old hold
  rw [OrdMap.get?_insert]
  by_cases hid : last = id
  · subst hid
    obtain rfl : old = file := by
      rw [h.stored] at hold
      exact (Option.some.inj hold).symm
    refine ⟨file', if_pos rfl, fun header offset hheader hdecodes => ?_⟩
    rw [hbytes]
    exact h.repairs.keeps hheader hdecodes
  · rw [if_neg hid]
    exact KeepsRecords.refl disk id old hold

/-- The scan of all segments when a directory is opened. -/
theorem scanSegments_repairs (hopens : Opens io.disk ids analysis version active)
    (hdurable : AllDurable io.disk) :
    Spec C (· = io) (scanSegments .repair ids (.new 0 false, walVersion))
      (fun found io' => found = (analysis.untracked, version) ∧
        Whole io'.disk ids analysis version ∧ KeepsRecords io.disk io'.disk)
      (fun _ io' => ¬C ∧ ∀ kept,
        Opens (io'.disk.powerLoss kept) ids analysis version active) := by
  rcases List.eq_nil_or_concat' ids with rfl | ⟨init, last, rfl⟩
  · refine Spec.pure fun io' hio' => ?_
    obtain ⟨rfl, rfl⟩ := Prod.mk.inj (Except.ok.inj hopens.surveyed)
    rw [hio']
    exact ⟨rfl, ⟨hopens.paths, rfl, hdurable⟩, KeepsRecords.refl _⟩
  · obtain ⟨analysis₁, file, full, stop, hnewest⟩ := survey_newest hopens.surveyed
    obtain ⟨version₁, hinit⟩ := hnewest.sealed
    have huntracked : survey io.disk false init (.new 0 false, walVersion)
        = .ok (analysis₁.untracked, version₁) := by
      have hmap := survey_untracked io.disk false init (.new 0 true) walVersion
      rw [hinit] at hmap
      exact hmap
    have hscan := scanSegment_repairs (C := C) hnewest.stored (hdurable _ _ hnewest.stored)
      hnewest.repairs.untracked
    intro s hs
    obtain ⟨hcalm, rfl⟩ := hs
    rw [exec_scanSegments_concat, huntracked]
    refine hscan.conseq (fun _ h => h) ?_ ?_ s ⟨hcalm, rfl⟩
    · rintro found io' ⟨rfl, file', hio', hbytes, hsynced⟩
      rw [hio']
      exact ⟨rfl, hopens.whole hdurable hnewest hbytes hsynced, hnewest.keeps hbytes⟩
    · rintro halt io' ⟨hC, -, file', hio', hmidway⟩
      rw [hio']
      exact ⟨hC, hopens.midway hdurable hnewest hmidway⟩

/-- The ids of a directory to which a segment is added. -/
theorem activeSegment_new (hpaths : segmentPaths io.disk none = .ok ids)
    (hactive : activeSegment ids version = .ok active)
    (hnew : ids = [] ∨ version = legacyWalVersion) :
    (∀ id ∈ ids, id < active) ∧ consecutive (ids ++ [active]) = true := by
  rcases List.eq_nil_or_concat' ids with rfl | ⟨init, last, rfl⟩
  · exact ⟨by simp, rfl⟩
  · have hversion : version = legacyWalVersion := hnew.resolve_left (by simp)
    have hlast : (init ++ [last]).getLast?.getD 0 = last := by simp
    rw [activeSegment, hlast, if_pos ⟨hversion, by simp⟩] at hactive
    by_cases hfits : last + 1 < u64Limit
    · have hnext : checkedAdd last 1 = some (last + 1) := if_pos hfits
      rw [hnext] at hactive
      obtain rfl := Except.ok.inj hactive
      refine ⟨fun id hid => ?_, consecutive_concat (segmentPaths_none.mp hpaths).2 hfits⟩
      rcases List.mem_append.mp hid with hinit | hid
      · have hlt := lt_last hpaths hinit
        omega
      · rw [List.mem_singleton.mp hid]
        omega
    · have hnext : checkedAdd last 1 = none := if_neg hfits
      rw [hnext] at hactive
      cases hactive

/-- The outcome of opening a directory. -/
structure Opened (disk : Disk Nat) (analysis : Analysis) (manager : WALManager) (disk' : Disk Nat) :
    Prop where
  nextLsn : manager.writer.nextLsn = analysis.latestLsn + 1
  healthy : manager.writer.poisoned = false
  checkpoint : manager.writer.checkpoint = none
  clean : ∃ ids version, Clean disk' ids analysis version
  keeps : KeepsRecords disk disk'

/-- Opening a directory that the lenient survey accepts leaves a clean one with the same analysis.
Whatever stops it on the way, and whatever a power loss then takes, the directory can be opened
with the same analysis. -/
theorem newInner_repairs (io : Io Nat) (hopens : Opens io.disk ids analysis version active)
    (hdurable : AllDurable io.disk) (maxSegmentSize : Nat) (checkpointOwner : Bool) :
    Spec C (· = io) (WALManager.newInner maxSegmentSize none checkpointOwner)
      (fun manager io' => Opened io.disk analysis manager io'.disk)
      (fun _ io' => ¬C ∧ ∀ kept, ∃ ids version active,
        Opens (io'.disk.powerLoss kept) ids analysis version active) := by
  have hpaths : Act.exec (Act.ofExcept (segmentPaths io.disk (Option.map
      (fun c : RecoveryCheckpoint => c.replayStartSegment) none)) : Op (Io Nat) (List Nat)) io
        = (.ok ids, io) := by
    rw [Option.map_none, hopens.paths, Act.exec_ofExcept]
  refine Spec.step (t := io) (Act.exec_get io) rfl (Spec.step hpaths rfl ?_)
  refine Spec.step (Act.exec_ofExcept _ _) rfl ?_
  refine Spec.bind ((scanSegments_repairs hopens hdurable).conseq (fun _ h => h)
    (fun _ _ h => h) fun _ _ h => ⟨h.1, fun kept => ⟨_, _, _, h.2 kept⟩⟩) fun found => Spec.fix ?_
  rintro io₁ ⟨rfl, hwhole, hkeeps⟩
  dsimp only
  rw [hopens.active]
  refine Spec.step (Act.exec_ofExcept _ _) rfl ?_
  have hnextLsn : addOrPanic analysis.untracked.latestLsn 1 = .ok (analysis.latestLsn + 1) :=
    addOrPanic_of_lt hopens.lsn
  by_cases hnew : ids = [] ∨ version = legacyWalVersion
  · rw [if_pos hnew]
    obtain ⟨hlt, hconsecutive⟩ := activeSegment_new hopens.paths hopens.active hnew
    have hfresh : io₁.disk[active]? = none := by
      cases hfile : io₁.disk[active]? with
      | none => rfl
      | some file =>
        have hmem : active ∈ ids := by
          rw [(segmentPaths_none.mp hwhole.paths).1]
          exact mem_segmentIds.mpr ⟨file, hfile⟩
        exact absurd (hlt active hmem) (lt_irrefl _)
    refine Spec.bind ((LogLayout.createSegment_spec hfresh).conseq (fun _ h => h) (fun _ _ h => h) ?_)
      fun _ => Spec.fix ?_
    · -- The new file is not there yet, or it holds a start of its header.
      rintro halt io' ⟨hC, -, hsame | ⟨file, hio', hpre⟩⟩
      · rw [hsame]
        exact ⟨hC, fun kept => ⟨_, _, _, hwhole.opens hopens.active hopens.lsn kept⟩⟩
      · rw [hio']
        exact ⟨hC, fun kept => ⟨_, _, _, hwhole.opens_new hopens.lsn hlt hconsecutive hpre kept⟩⟩
    · rintro io₂ ⟨file, hio₂, hbytes, -⟩
      have hread : Act.exec (Io.readFile ioErrors active) io₂ = (.ok file.bytes, io₂) := by
        rw [exec_readFile, hio₂, fileBytes_insert, if_pos rfl]
      refine Spec.step hread rfl ?_
      rw [hnextLsn]
      refine Spec.step (Act.exec_ofExcept _ _) rfl (Spec.pure ?_)
      rintro io' rfl
      rw [hio₂]
      exact ⟨rfl, rfl, rfl, ⟨_, _, hwhole.clean_new hopens.lsn hlt hconsecutive hbytes⟩,
        hkeeps.insert_new hfresh file⟩
  · rw [if_neg hnew]
    rw [not_or] at hnew
    obtain ⟨init, last, rfl⟩ := (List.eq_nil_or_concat' ids).resolve_left hnew.1
    have hactive : active = last := by
      have h := hopens.active
      rw [activeSegment_concat hnew.2] at h
      exact (Except.ok.inj h).symm
    obtain ⟨file, hfile⟩ : ∃ file, io₁.disk[active]? = some file := by
      rw [← mem_segmentIds, ← (segmentPaths_none.mp hwhole.paths).1, hactive]
      simp
    have hread : Act.exec (Io.readFile ioErrors active) io₁ = (.ok file.bytes, io₁) := by
      rw [exec_readFile, fileBytes, hfile]
    refine Spec.step hread rfl ?_
    rw [hnextLsn]
    refine Spec.step (Act.exec_ofExcept _ _) rfl (Spec.pure ?_)
    rintro io' rfl
    exact ⟨rfl, rfl, rfl, ⟨_, _, hwhole.paths, hnew.1, hwhole.surveyed, hnew.2, hopens.lsn⟩, hkeeps⟩

/-- A scan that returns has found what the lenient survey finds. -/
theorem survey_of_scanSegments (hdurable : AllDurable io.disk) {found : Analysis × Nat} {io₁ : Io Nat}
    (hscan : Act.exec (scanSegments .repair ids (.new 0 false, walVersion)) io = (.ok found, io₁)) :
    ∃ analysis, survey io.disk true ids (.new 0 true, walVersion) = .ok (analysis, found.2) ∧
      analysis.untracked = found.1 := by
  rcases List.eq_nil_or_concat' ids with rfl | ⟨init, last, rfl⟩
  · obtain rfl := Except.ok.inj (Prod.mk.inj hscan).1
    exact ⟨_, rfl, rfl⟩
  · have hinit := survey_untracked io.disk false init (.new 0 true) walVersion
    rw [Analysis.untracked_new] at hinit
    rw [exec_scanSegments_concat, hinit] at hscan
    cases hsealed : survey io.disk false init (.new 0 true, walVersion) with
    | error halt =>
      rw [hsealed] at hscan
      cases hscan
    | ok found₁ =>
      rw [hsealed] at hscan
      replace hscan : Act.exec (scanSegmentWithTailHandling last .repair found₁.1.untracked) io
          = (.ok found, io₁) := hscan
      rw [survey_concat, hsealed, Exec.ok_bind, survey_singleton]
      cases hlast : fileBytes io.disk last >>= fun bytes => surveyFile last true bytes found₁.1 with
      | error halt =>
        have hrefused : (fileBytes io.disk last >>= fun bytes =>
            surveyFile last true bytes found₁.1.untracked) = .error halt := by
          cases hbytes : fileBytes io.disk last with
          | error halt' =>
            rw [hbytes] at hlast
            exact hlast
          | ok bytes =>
            rw [hbytes, Exec.ok_bind] at hlast
            rw [Exec.ok_bind, surveyFile_untracked, hlast]
            rfl
        rw [scanSegment_refused hrefused] at hscan
        cases hscan
      | ok found₂ =>
        have hsurvey : survey io.disk true (init ++ [last]) (.new 0 true, walVersion)
            = .ok (found₂.1, found₂.2) := by
          rw [survey_concat, hsealed, Exec.ok_bind, survey_singleton, hlast]
        obtain ⟨analysis₁, file, full, stop, hnewest⟩ := survey_newest hsurvey
        obtain ⟨version₁, hsealed'⟩ := hnewest.sealed
        rw [hsealed] at hsealed'
        obtain rfl := Except.ok.inj hsealed'
        rcases (scanSegment_repairs hnewest.stored (hdurable _ _ hnewest.stored)
            hnewest.repairs.untracked).outcome rfl with
          ⟨found', io', hexec, hfound, -⟩ | ⟨halt, io', hexec, -⟩
        · rw [hexec] at hscan
          obtain rfl := Except.ok.inj (Prod.mk.inj hscan).1
          rw [hfound]
          exact ⟨found₂.1, rfl, rfl⟩
        · rw [hexec] at hscan
          cases hscan

/-- A directory that was opened could be opened. -/
theorem opens_of_newInner (hdurable : AllDurable io.disk) {maxSegmentSize : Nat}
    {checkpointOwner : Bool} {manager : WALManager} {io' : Io Nat}
    (h : Act.exec (WALManager.newInner maxSegmentSize none checkpointOwner) io
      = (.ok manager, io')) :
    ∃ ids analysis version active, Opens io.disk ids analysis version active := by
  obtain ⟨s, t, hget, h⟩ := Act.exec_bind_eq_ok h
  obtain ⟨hs, rfl⟩ := Prod.mk.inj hget
  obtain rfl := Except.ok.inj hs
  obtain ⟨ids, t, hids, h⟩ := Act.exec_bind_eq_ok h
  obtain ⟨hpaths, rfl⟩ := Prod.mk.inj hids
  obtain ⟨latestLsn, t, hstart, h⟩ := Act.exec_bind_eq_ok h
  obtain ⟨hlatest, rfl⟩ := Prod.mk.inj hstart
  obtain rfl := Except.ok.inj hlatest
  obtain ⟨⟨found, version⟩, io₁, hscan, h⟩ := Act.exec_bind_eq_ok h
  obtain ⟨analysis, hsurvey, rfl⟩ := survey_of_scanSegments hdurable hscan
  obtain ⟨active, t, hsegment, h⟩ := Act.exec_bind_eq_ok h
  obtain ⟨hactive, rfl⟩ := Prod.mk.inj hsegment
  have hlsn {t : Io Nat} {nextLsn : Nat}
      (h : Act.exec (Act.ofExcept (addOrPanic analysis.untracked.latestLsn 1) : Op (Io Nat) Nat) t
        = (.ok nextLsn, io')) : analysis.latestLsn + 1 < u64Limit := by
    by_contra hover
    have hnone : checkedAdd analysis.untracked.latestLsn 1 = none := if_neg hover
    rw [addOrPanic, hnone] at h
    cases h
  refine ⟨ids, analysis, version, active, hpaths, hsurvey, hactive, ?_⟩
  by_cases hnew : ids = [] ∨ version = legacyWalVersion
  · rw [if_pos hnew] at h
    obtain ⟨_, io₂, -, h⟩ := Act.exec_bind_eq_ok h
    obtain ⟨file, io₃, -, h⟩ := Act.exec_bind_eq_ok h
    obtain ⟨nextLsn, io₄, hnext, h⟩ := Act.exec_bind_eq_ok h
    obtain ⟨-, rfl⟩ := Prod.mk.inj h
    exact hlsn hnext
  · rw [if_neg hnew] at h
    obtain ⟨file, io₃, -, h⟩ := Act.exec_bind_eq_ok h
    obtain ⟨nextLsn, io₄, hnext, h⟩ := Act.exec_bind_eq_ok h
    obtain ⟨-, rfl⟩ := Prod.mk.inj h
    exact hlsn hnext

/-- Opening a clean directory does not touch it, whatever the plan. -/
theorem newInner_clean (io : Io Nat) (hclean : Clean io.disk ids analysis version) (maxSegmentSize : Nat)
    (checkpointOwner : Bool) :
    ∃ manager, Act.exec (WALManager.newInner maxSegmentSize none checkpointOwner) io
        = (.ok manager, io) ∧ Opened io.disk analysis manager io.disk := by
  obtain ⟨init, last, rfl⟩ := (List.eq_nil_or_concat' ids).resolve_left hclean.nonempty
  have hstrict := hclean.surveyed
  rw [survey_concat] at hstrict
  obtain ⟨⟨analysis₁, version₁⟩, hinit, hstrict⟩ := Exec.bind_eq_ok hstrict
  rw [survey_singleton] at hstrict
  obtain ⟨bytes, hbytes, hstrict⟩ := Exec.bind_eq_ok hstrict
  have hwhole := Repairs.of_strict hstrict
  have huntracked := survey_untracked io.disk false init (.new 0 true) walVersion
  rw [Analysis.untracked_new, hinit] at huntracked
  have hlong : ¬(bytes.length < walHeaderSize ∧ TailHandling.repair ≠ .reject) :=
    fun hshort => absurd hshort.1 (not_lt.mpr (scanBytes_stop hwhole.scan).1)
  have htail : Act.exec (handleTail last .repair bytes.length bytes.length) io = (.ok (), io) := by
    unfold handleTail
    rw [if_pos rfl]
    rfl
  have hread : Act.exec (Io.readFile ioErrors last) io = (.ok bytes, io) := by
    rw [exec_readFile, hbytes]
  have hscan : Act.exec (scanSegments .repair (init ++ [last]) (.new 0 false, walVersion)) io
      = (.ok (analysis.untracked, version), io) := by
    rw [exec_scanSegments_concat, huntracked]
    show Act.exec (scanSegmentWithTailHandling last .repair analysis₁.untracked) io = _
    rw [scanSegmentWithTailHandling, Act.exec_bind_ok hread, completeHeader, if_neg hlong,
      Act.exec_bind_ok (Act.exec_pure _ _), hwhole.untracked.scan,
      Act.exec_bind_ok (Act.exec_ofExcept _ _)]
    exact Act.exec_bind_ok htail
  have hpaths : Act.exec (Act.ofExcept (segmentPaths io.disk (Option.map
      (fun c : RecoveryCheckpoint => c.replayStartSegment) none)) : Op (Io Nat) (List Nat)) io
        = (.ok (init ++ [last]), io) := by
    rw [Option.map_none, hclean.paths, Act.exec_ofExcept]
  have hnextLsn : addOrPanic analysis.untracked.latestLsn 1 = .ok (analysis.latestLsn + 1) :=
    addOrPanic_of_lt hclean.lsn
  have hstart : startLsn none = .ok 0 := rfl
  rw [WALManager.newInner, Act.exec_bind_ok (Act.exec_get io), Act.exec_bind_ok hpaths, hstart,
    Act.exec_bind_ok (Act.exec_ofExcept _ _), Act.exec_bind_ok hscan]
  dsimp only
  rw [activeSegment_concat hclean.version, Act.exec_bind_ok (Act.exec_ofExcept _ _),
    if_neg (not_or.mpr ⟨hclean.nonempty, hclean.version⟩), Act.exec_bind_ok hread, hnextLsn,
    Act.exec_bind_ok (Act.exec_ofExcept _ _)]
  exact ⟨_, rfl, rfl, rfl, rfl, ⟨_, _, hclean⟩, KeepsRecords.refl _⟩

/-! ### Recovery after opening -/

/-- The analysis of an open log is the strict survey of its directory. -/
theorem Opened.analyzeCommitted {disk : Disk Nat} {manager : WALManager}
    (h : Opened disk analysis manager io.disk) (trackRefs : Bool) :
    Act.exec (Wal.analyzeCommitted trackRefs) ⟨io, manager⟩
      = (.ok (if trackRefs then analysis else analysis.untracked), ⟨io, manager⟩) := by
  obtain ⟨ids, version, hclean⟩ := h.clean
  have hscan : Act.exec (scanSegments .reject ids (.new 0 trackRefs, walVersion)) io
      = (.ok (if trackRefs then analysis else analysis.untracked, version), io) := by
    rw [exec_scanSegments (by decide)]
    show (survey io.disk false ids (.new 0 trackRefs, walVersion), io) = _
    cases trackRefs with
    | true => rw [hclean.surveyed]; rfl
    | false =>
      have hmap := survey_untracked io.disk false ids (.new 0 true) walVersion
      rw [Analysis.untracked_new, hclean.surveyed] at hmap
      rw [hmap]
      rfl
  have hdisk : Act.exec (Wal.onDisk (scanSegments .reject ids (.new 0 trackRefs, walVersion)))
      (⟨io, manager⟩ : Wal) = (.ok (if trackRefs then analysis else analysis.untracked, version),
        ⟨io, manager⟩) := by
    rw [Wal.onDisk, Act.exec_zoom, hscan]
  have hstart : startLsn none = .ok 0 := rfl
  rw [Wal.analyzeCommitted, Act.exec_bind_ok (LogLayout.ensureHealthy_ok h.healthy),
    Act.exec_bind_ok (Act.exec_get _)]
  dsimp only
  rw [h.checkpoint, hstart, Act.exec_bind_ok (Act.exec_ofExcept _ _),
    Act.exec_bind_ok (Act.exec_get _), Option.map_none, hclean.paths,
    Act.exec_bind_ok (Act.exec_ofExcept _ _), Act.exec_bind_ok hdisk]
  rfl

theorem Opened.recoverRecords {disk : Disk Nat} {manager : WALManager}
    (h : Opened disk analysis manager io.disk) :
    Act.exec Wal.recoverRecords ⟨io, manager⟩ = (.ok analysis.redo, ⟨io, manager⟩) := by
  rw [Wal.recoverRecords, Act.exec_bind_ok (h.analyzeCommitted false), Act.exec_pure]
  show (Except.ok analysis.untracked.redo, _) = _
  rw [analysis.redo_untracked]

theorem Opened.recoverRecordsWithRefs {disk : Disk Nat} {manager : WALManager}
    (h : Opened disk analysis manager io.disk) :
    Act.exec Wal.recoverRecordsWithRefs ⟨io, manager⟩ = (analysis.redoWithRefs, ⟨io, manager⟩) := by
  rw [Wal.recoverRecordsWithRefs, Act.exec_bind_ok (h.analyzeCommitted true)]
  rfl

end

theorem allDurable_ofContents (contents : OrdMap Nat Bytes) :
    AllDurable (Disk.ofContents contents) := by
  intro id file hfile
  rw [Disk.get?_ofContents, Option.map_eq_some_iff] at hfile
  obtain ⟨bytes, -, rfl⟩ := hfile
  rfl

theorem allDurable_powerLoss (disk : Disk Nat) (kept : Nat → Nat) :
    AllDurable (disk.powerLoss kept) := by
  intro id file hfile
  rw [Disk.get?_powerLoss, Option.map_eq_some_iff] at hfile
  obtain ⟨file', -, rfl⟩ := hfile
  rfl

/-- A directory that can be opened is, when no I/O call fails. -/
theorem Opens.opened {disk : Disk Nat} {ids : List Nat} {analysis : Analysis} {version active : Nat}
    (h : Opens disk ids analysis version active) (hdurable : AllDurable disk) (maxSegmentSize : Nat)
    (checkpointOwner : Bool) :
    ∃ manager io, Act.exec (WALManager.newInner maxSegmentSize none checkpointOwner) ⟨disk, []⟩
        = (.ok manager, io) ∧ Opened disk analysis manager io.disk :=
  Spec.ok_of_calm (newInner_repairs ⟨disk, []⟩ h hdurable maxSegmentSize checkpointOwner)
    (fun _ _ h => h.1 trivial) rfl rfl

/-! ### The preflight -/

/-- The preflight is a lenient survey, and what it makes of it. -/
theorem exec_preflightRecovery (io : Io Nat) :
    Act.exec preflightRecovery io = (do
      let ids ← segmentPaths io.disk none
      let found ← survey io.disk true ids (.new 0 true, walVersion)
      let nextPhysicalLsn ← addOrCorrupted "WAL physical LSN overflow" found.1.latestLsn 1
      let recovered ← found.1.redoWithRefs
      return ((recovered.map fun update => update.record.lsn).max?.getD 0, nextPhysicalLsn), io) := by
  rw [preflightRecovery, Act.exec_bind_ok (Act.exec_get io), Act.exec_bind, Act.exec_ofExcept]
  cases segmentPaths io.disk none with
  | error halt => rfl
  | ok ids =>
    simp only [Exec.ok_bind]
    have hallow : (TailHandling.allow == TailHandling.allow) = true := by decide
    rw [Act.exec_bind, exec_scanSegments (by decide), hallow]
    cases survey io.disk true ids (.new 0 true, walVersion) with
    | error halt => rfl
    | ok found =>
      simp only [Exec.ok_bind]
      rw [Act.exec_bind, Act.exec_ofExcept]
      cases addOrCorrupted "WAL physical LSN overflow" found.1.latestLsn 1 with
      | error halt => rfl
      | ok nextPhysicalLsn =>
        simp only [Exec.ok_bind]
        rw [Act.exec_bind, Act.exec_ofExcept]
        cases found.1.redoWithRefs with
        | error halt => rfl
        | ok recovered => rfl

/-- **The preflight predicts recovery.** On any directory the preflight succeeds exactly when opening
the directory and recovering the records with their references does, when no I/O call fails. Its
pair is then the largest recovered sequence number and the next LSN of the opened log. It does not
touch the directory. -/
theorem preflight_predicts_recovery (contents : OrdMap Nat Bytes)
    (hids : ∀ id : Nat, (contents[id]?).isSome → id + 1 < u64Limit) (maxSegmentSize : Nat) :
    (Act.exec preflightRecovery ⟨.ofContents contents, []⟩).2 = ⟨.ofContents contents, []⟩ ∧
      ∀ pair, (Act.exec preflightRecovery ⟨.ofContents contents, []⟩).1 = .ok pair ↔
        ∃ manager io recovered wal,
          Act.exec (WALManager.newInner maxSegmentSize none false) ⟨.ofContents contents, []⟩
              = (.ok manager, io) ∧
            Act.exec Wal.recoverRecordsWithRefs ⟨io, manager⟩ = (.ok recovered, wal) ∧
            pair = ((recovered.map fun update => update.record.lsn).max?.getD 0,
              manager.writer.nextLsn) := by
  have hdurable := allDurable_ofContents contents
  rw [exec_preflightRecovery]
  refine ⟨rfl, fun pair => ⟨fun h => ?_, ?_⟩⟩
  · obtain ⟨ids, hpaths, h⟩ := Exec.bind_eq_ok h
    obtain ⟨⟨analysis, version⟩, hsurvey, h⟩ := Exec.bind_eq_ok h
    obtain ⟨nextLsn, hnextLsn, h⟩ := Exec.bind_eq_ok h
    obtain ⟨recovered, hrecovered, h⟩ := Exec.bind_eq_ok h
    -- There is room for a new segment behind a legacy one.
    obtain ⟨active, hactive⟩ : ∃ active, activeSegment ids version = .ok active := by
      rw [activeSegment]
      split
      · rename_i hlegacy
        obtain ⟨init, last, rfl⟩ := (List.eq_nil_or_concat' ids).resolve_left hlegacy.2
        obtain ⟨file, hfile⟩ : ∃ file, (Disk.ofContents contents)[last]? = some file := by
          rw [← mem_segmentIds, ← (segmentPaths_none.mp hpaths).1]
          simp
        rw [Disk.get?_ofContents, Option.map_eq_some_iff] at hfile
        obtain ⟨bytes, hbytes, -⟩ := hfile
        have hlast : (init ++ [last]).getLast?.getD 0 = last := by simp
        have hnext : checkedAdd last 1 = some (last + 1) := if_pos (hids last (by simp [hbytes]))
        rw [hlast, hnext]
        exact ⟨_, rfl⟩
      · exact ⟨_, rfl⟩
    have hopens : Opens (Disk.ofContents contents) ids analysis version active :=
      ⟨hpaths, hsurvey, hactive, lt_of_addOrCorrupted hnextLsn⟩
    obtain ⟨manager, io, hexec, hopened⟩ := hopens.opened hdurable maxSegmentSize false
    refine ⟨manager, io, recovered, ⟨io, manager⟩, hexec, ?_, ?_⟩
    · rw [hopened.recoverRecordsWithRefs]
      exact congrArg (·, _) hrecovered
    · rw [hopened.nextLsn, ← addOrCorrupted_eq_ok hnextLsn]
      exact (Except.ok.inj h).symm
  · rintro ⟨manager, io, recovered, wal, hexec, hrecover, rfl⟩
    obtain ⟨ids, analysis, version, active, hopens⟩ := opens_of_newInner hdurable hexec
    obtain ⟨manager', io', hexec', hopened⟩ := hopens.opened hdurable maxSegmentSize false
    rw [hexec] at hexec'
    obtain ⟨hmanager, rfl⟩ := Prod.mk.inj hexec'
    obtain rfl := Except.ok.inj hmanager
    rw [hopened.recoverRecordsWithRefs] at hrecover
    have hrecovered : analysis.redoWithRefs = .ok recovered := (Prod.mk.inj hrecover).1
    rw [hopens.paths, Exec.ok_bind, hopens.surveyed, Exec.ok_bind,
      addOrCorrupted_of_lt hopens.lsn, Exec.ok_bind, hrecovered, Exec.ok_bind, hopened.nextLsn]
    rfl

/-- A segment with one committed put and the start of another frame behind it. -/
def tornDirectory : OrdMap Nat Bytes :=
  (∅ : OrdMap Nat Bytes).insert 0 (onePutSegment.bytes ++ [0, 0, 0])

theorem preflight_predicts_recovery_tornDirectory :
    ∃ manager io recovered wal,
      Act.exec (WALManager.newInner 1024 none false) ⟨.ofContents tornDirectory, []⟩
          = (.ok manager, io) ∧
        Act.exec Wal.recoverRecordsWithRefs ⟨io, manager⟩ = (.ok recovered, wal) ∧
        (7, 3) = ((recovered.map fun update => update.record.lsn).max?.getD 0,
          manager.writer.nextLsn) := by
  have hids : ∀ id : Nat, (tornDirectory[id]?).isSome → id + 1 < u64Limit := by
    intro id hid
    rw [tornDirectory, OrdMap.get?_insert] at hid
    by_cases hzero : 0 = id
    · rw [← hzero]
      decide
    · rw [if_neg hzero] at hid
      simp at hid
  have hpreflight : (Act.exec preflightRecovery ⟨.ofContents tornDirectory, []⟩).1 = .ok (7, 3) := by
    decide +kernel
  exact ((preflight_predicts_recovery tornDirectory hids 1024).2 (7, 3)).mp hpreflight

/-- **Repair is idempotent and conservative.** A directory that was opened keeps every record that
decodes in sequence from the start of its segment. Opening it again touches nothing and gives the
same records and next LSN. When an I/O call fails or the process stops anywhere in the opening,
and whatever a power loss takes of the bytes that are not durable, the directory opens and gives
the same records. -/
theorem repair_idempotent_conservative (contents : OrdMap Nat Bytes) (maxSegmentSize : Nat)
    (plan : List Answer) (manager : WALManager) (io : Io Nat)
    (hopen : Act.exec (WALManager.newInner maxSegmentSize none false) ⟨.ofContents contents, plan⟩
      = (.ok manager, io)) :
    KeepsRecords (.ofContents contents) io.disk ∧ ∃ records,
      Act.exec Wal.recoverRecords ⟨io, manager⟩ = (.ok records, ⟨io, manager⟩) ∧
      (∀ plan, ∃ manager',
        Act.exec (WALManager.newInner maxSegmentSize none false) ⟨io.disk, plan⟩
            = (.ok manager', ⟨io.disk, plan⟩) ∧
          manager'.writer.nextLsn = manager.writer.nextLsn ∧
          Act.exec Wal.recoverRecords ⟨⟨io.disk, plan⟩, manager'⟩
            = (.ok records, ⟨⟨io.disk, plan⟩, manager'⟩)) ∧
      ∀ plan halt stopped, Act.exec (WALManager.newInner maxSegmentSize none false)
          ⟨.ofContents contents, plan⟩ = (.error halt, stopped) → ∀ kept, ∃ manager' io',
        Act.exec (WALManager.newInner maxSegmentSize none false) ⟨stopped.disk.powerLoss kept, []⟩
            = (.ok manager', io') ∧
          Act.exec Wal.recoverRecords ⟨io', manager'⟩ = (.ok records, ⟨io', manager'⟩) := by
  have hdurable := allDurable_ofContents contents
  obtain ⟨ids, analysis, version, active, hopens⟩ := opens_of_newInner hdurable hopen
  have hspec (plan : List Answer) := (newInner_repairs (C := False)
    ⟨.ofContents contents, plan⟩ hopens hdurable maxSegmentSize false).outcome rfl
  have hopened : Opened (.ofContents contents) analysis manager io.disk := by
    rcases hspec plan with ⟨manager', io', hexec, hopened⟩ | ⟨halt, io', hexec, -⟩
    · rw [hopen] at hexec
      obtain ⟨hmanager, rfl⟩ := Prod.mk.inj hexec
      rw [Except.ok.inj hmanager]
      exact hopened
    · rw [hopen] at hexec
      cases (Prod.mk.inj hexec).1
  refine ⟨hopened.keeps, analysis.redo, hopened.recoverRecords, fun plan => ?_, ?_⟩
  · obtain ⟨ids', version', hclean⟩ := hopened.clean
    obtain ⟨manager', hexec, hagain⟩ := newInner_clean ⟨io.disk, plan⟩ hclean maxSegmentSize
      false
    exact ⟨manager', hexec, hagain.nextLsn.trans hopened.nextLsn.symm, hagain.recoverRecords⟩
  · intro plan halt stopped hstopped kept
    rcases hspec plan with ⟨manager', io', hexec, -⟩ | ⟨halt', io', hexec, -, hleft⟩
    · rw [hstopped] at hexec
      cases (Prod.mk.inj hexec).1
    · rw [hstopped] at hexec
      obtain ⟨-, rfl⟩ := Prod.mk.inj hexec
      obtain ⟨ids', version', active', hopens'⟩ := hleft kept
      obtain ⟨manager', io', hexec', hopened'⟩ := hopens'.opened
        (allDurable_powerLoss stopped.disk kept) maxSegmentSize false
      exact ⟨manager', io', hexec', hopened'.recoverRecords⟩

theorem repair_idempotent_conservative_tornDirectory :
    ∃ manager io,
      Act.exec (WALManager.newInner 1024 none false) ⟨.ofContents tornDirectory, []⟩
          = (.ok manager, io) ∧
        KeepsRecords (.ofContents tornDirectory) io.disk := by
  have hlsn : ((Act.exec (WALManager.newInner 1024 none false) ⟨.ofContents tornDirectory, []⟩).1.map
      fun manager => manager.writer.nextLsn) = .ok 3 := by
    decide +kernel
  cases hopen : Act.exec (WALManager.newInner 1024 none false) ⟨.ofContents tornDirectory, []⟩ with
  | mk outcome io =>
    rw [hopen] at hlsn
    obtain ⟨manager, rfl, -⟩ := Exec.map_eq_ok hlsn
    exact ⟨manager, io, rfl,
      (repair_idempotent_conservative tornDirectory 1024 [] manager io hopen).1⟩

end CereDB.Storage
