import CereDB.Proofs.WalRecovery
import CereDB.Proofs.WalRescan

/-!
# `CereDB.Proofs.WalSurvey`: what a scan makes of any segment files

Nothing is assumed about the files here. `survey` is what a scan makes of the contents of the
segments, as a function: strict, as recovery reads an open log, or lenient about the newest
segment, as the read-only preflight does. A scan that repairs nothing is a survey
(`exec_scanSegments`). `Repairs` is a file that the lenient survey accepts, together with what a
repair makes of it; in the middle of the repair, and after it, the survey finds the same
(`Repairs.midway`, `Repairs.strict`), and `scanSegment_repairs` says that the scan which repairs
goes through these contents only.
-/

set_option autoImplicit false

namespace CereDB.Storage

open CereDB.Lib

/-! ### Surveys -/

/-- The contents of a file, completed to a header when they are shorter than one and that is
allowed. -/
def completedBytes (lenient : Bool) (latestLsn : Nat) (bytes : Bytes) : Exec Bytes :=
  if bytes.length < walHeaderSize ∧ lenient then
    match headerFor latestLsn bytes with
    | none => corrupted "Invalid incomplete WAL header"
    | some header => .ok header
  else .ok bytes

/-- What a scan that writes nothing makes of the contents of one segment. -/
def surveyFile (id : Nat) (lenient : Bool) (bytes : Bytes) (analysis : Analysis) :
    Exec (Analysis × Nat) := do
  let bytes ← completedBytes lenient analysis.latestLsn bytes
  let (analysis, version, offset) ← scanBytes id bytes analysis
  if lenient ∨ offset = bytes.length then return (analysis, version)
  else corrupted "Incomplete WAL frame in sealed segment"

/-- The contents of a file. -/
def fileBytes (disk : Disk Nat) (id : Nat) : Exec Bytes :=
  match disk[id]? with
  | some file => .ok file.bytes
  | none => .error ioErrors.notFound

/-- What a scan that writes nothing makes of segments. Only the last one is treated leniently. -/
def survey (disk : Disk Nat) (lenient : Bool) : List Nat → Analysis × Nat → Exec (Analysis × Nat)
  | [], found => .ok found
  | id :: ids, found => do
      let bytes ← fileBytes disk id
      let found ← surveyFile id (lenient && ids.isEmpty) bytes found.1
      survey disk lenient ids found

theorem survey_concat (disk : Disk Nat) (lenient : Bool) (ids : List Nat) (last : Nat)
    (found : Analysis × Nat) :
    survey disk lenient (ids ++ [last]) found
      = survey disk false ids found >>= survey disk lenient [last] := by
  induction ids generalizing found with
  | nil => rfl
  | cons id ids ih =>
    have hmore : (ids ++ [last]).isEmpty = false := by simp
    rw [List.cons_append, survey, survey, hmore, Bool.and_false, Bool.false_and]
    cases fileBytes disk id with
    | error halt => rfl
    | ok bytes =>
      simp only [Exec.ok_bind]
      cases surveyFile id false bytes found.1 with
      | error halt => rfl
      | ok found => exact ih found

theorem survey_singleton (disk : Disk Nat) (lenient : Bool) (id : Nat) (found : Analysis × Nat) :
    survey disk lenient [id] found
      = fileBytes disk id >>= fun bytes => surveyFile id lenient bytes found.1 := by
  rw [survey, List.isEmpty_nil, Bool.and_true]
  cases fileBytes disk id with
  | error halt => rfl
  | ok bytes =>
    simp only [Exec.ok_bind]
    cases surveyFile id lenient bytes found.1 with
    | error halt => rfl
    | ok found => rfl

/-- A survey looks at the contents of its segments only. -/
theorem survey_congr {disk disk' : Disk Nat} {lenient : Bool} {ids : List Nat}
    (h : ∀ id ∈ ids, fileBytes disk' id = fileBytes disk id) (found : Analysis × Nat) :
    survey disk' lenient ids found = survey disk lenient ids found := by
  induction ids generalizing found with
  | nil => rfl
  | cons id ids ih =>
    rw [survey, survey, h id List.mem_cons_self]
    refine congrArg _ (funext fun bytes => congrArg _ (funext fun found => ?_))
    exact ih (fun other hother => h other (List.mem_cons_of_mem _ hother)) found

theorem surveyFile_untracked (id : Nat) (lenient : Bool) (bytes : Bytes) (analysis : Analysis) :
    surveyFile id lenient bytes analysis.untracked
      = (surveyFile id lenient bytes analysis).map fun found => (found.1.untracked, found.2) := by
  have hlatest : analysis.untracked.latestLsn = analysis.latestLsn := rfl
  rw [surveyFile, surveyFile, hlatest]
  cases completedBytes lenient analysis.latestLsn bytes with
  | error halt => rfl
  | ok bytes =>
    simp only [Exec.ok_bind]
    rw [scanBytes_untracked]
    cases scanBytes id bytes analysis with
    | error halt => rfl
    | ok found =>
      obtain ⟨analysis', version, offset⟩ := found
      by_cases hwhole : lenient ∨ offset = bytes.length
      · show (if _ then _ else _) = Except.map _ (if _ then _ else _)
        rw [if_pos hwhole, if_pos hwhole]
        rfl
      · show (if _ then _ else _) = Except.map _ (if _ then _ else _)
        rw [if_neg hwhole, if_neg hwhole]
        rfl

/-- A survey without positions finds the same otherwise. -/
theorem survey_untracked (disk : Disk Nat) (lenient : Bool) (ids : List Nat) (analysis : Analysis)
    (version : Nat) :
    survey disk lenient ids (analysis.untracked, version)
      = (survey disk lenient ids (analysis, version)).map
          fun found => (found.1.untracked, found.2) := by
  induction ids generalizing analysis version with
  | nil => rfl
  | cons id ids ih =>
    rw [survey, survey]
    cases fileBytes disk id with
    | error halt => rfl
    | ok bytes =>
      simp only [Exec.ok_bind]
      rw [surveyFile_untracked]
      cases surveyFile id (lenient && ids.isEmpty) bytes analysis with
      | error halt => rfl
      | ok found => exact ih found.1 found.2

/-! ### Scans that write nothing -/

theorem exec_readFile (io : Io Nat) (id : Nat) :
    Act.exec (Io.readFile ioErrors id) io = (fileBytes io.disk id, io) := by
  rw [Io.readFile, fileBytes, Act.exec_bind_ok (Act.exec_get io)]
  cases io.disk[id]? with
  | some file => rfl
  | none => rfl

/-- A scan of one segment that does not repair it. -/
theorem exec_scanSegment {tail : TailHandling} (htail : tail ≠ .repair) (io : Io Nat) (id : Nat)
    (analysis : Analysis) :
    Act.exec (scanSegmentWithTailHandling id tail analysis) io
      = (fileBytes io.disk id >>= fun bytes => surveyFile id (tail == .allow) bytes analysis,
          io) := by
  have hlenient : tail ≠ .reject ↔ (tail == .allow) = true := by
    cases tail with
    | repair => exact absurd rfl htail
    | allow => decide
    | reject => decide
  have hheader (bytes : Bytes) :
      Act.exec (completeHeader id tail analysis.latestLsn bytes) io
        = (completedBytes (tail == .allow) analysis.latestLsn bytes, io) := by
    rw [completeHeader, completedBytes]
    by_cases hshort : bytes.length < walHeaderSize ∧ tail ≠ .reject
    · rw [if_pos hshort, if_pos ⟨hshort.1, hlenient.mp hshort.2⟩]
      cases headerFor analysis.latestLsn bytes with
      | none => rfl
      | some header =>
        dsimp only
        rw [if_neg htail]
        rfl
    · rw [if_neg hshort, if_neg fun h => hshort ⟨h.1, hlenient.mpr h.2⟩]
      rfl
  have htailEnd (length offset : Nat) : Act.exec (handleTail id tail length offset) io
      = (if (tail == .allow) = true ∨ offset = length then .ok ()
          else corrupted "Incomplete WAL frame in sealed segment", io) := by
    unfold handleTail
    by_cases hwhole : offset = length
    · rw [if_pos hwhole, if_pos (.inr hwhole)]
      rfl
    · rw [if_neg hwhole]
      cases tail with
      | repair => exact absurd rfl htail
      | allow => rfl
      | reject => rw [if_neg (by simp [hwhole])]; rfl
  rw [scanSegmentWithTailHandling, Act.exec_bind, exec_readFile]
  cases fileBytes io.disk id with
  | error halt => rfl
  | ok bytes =>
    simp only [Exec.ok_bind, surveyFile]
    rw [Act.exec_bind, hheader]
    cases completedBytes (tail == .allow) analysis.latestLsn bytes with
    | error halt => rfl
    | ok bytes =>
      simp only [Exec.ok_bind]
      rw [Act.exec_bind, Act.exec_ofExcept]
      cases scanBytes id bytes analysis with
      | error halt => rfl
      | ok found =>
        obtain ⟨analysis', version, offset⟩ := found
        simp only [Exec.ok_bind]
        rw [Act.exec_bind, htailEnd]
        by_cases hwhole : (tail == .allow) = true ∨ offset = bytes.length
        · rw [if_pos hwhole, if_pos hwhole]
          rfl
        · rw [if_neg hwhole, if_neg hwhole]
          rfl

/-- A scan that repairs nothing is a survey. -/
theorem exec_scanSegments {tail : TailHandling} (htail : tail ≠ .repair) (io : Io Nat)
    (ids : List Nat) (found : Analysis × Nat) :
    Act.exec (scanSegments tail ids found) io
      = (survey io.disk (tail == .allow) ids found, io) := by
  induction ids generalizing found with
  | nil => rfl
  | cons id ids ih =>
    obtain ⟨analysis, version⟩ := found
    have hthis : (if ids = [] then tail else .reject) ≠ TailHandling.repair := by
      split
      · exact htail
      · decide
    have hlenient : ((if ids = [] then tail else .reject) == TailHandling.allow)
        = (tail == .allow && ids.isEmpty) := by
      cases ids with
      | nil => simp
      | cons next ids => simp
    rw [scanSegments, Act.exec_bind, exec_scanSegment hthis, hlenient, survey]
    cases fileBytes io.disk id with
    | error halt => rfl
    | ok bytes =>
      simp only [Exec.ok_bind]
      cases surveyFile id (tail == .allow && ids.isEmpty) bytes analysis with
      | error halt => rfl
      | ok found => exact ih found

/-- All segments but the last one are only read. -/
theorem exec_scanSegments_concat (tail : TailHandling) (io : Io Nat) (ids : List Nat) (last : Nat)
    (found : Analysis × Nat) :
    Act.exec (scanSegments tail (ids ++ [last]) found) io
      = match survey io.disk false ids found with
        | .ok found => Act.exec (scanSegmentWithTailHandling last tail found.1) io
        | .error halt => (.error halt, io) := by
  induction ids generalizing found with
  | nil =>
    obtain ⟨analysis, version⟩ := found
    rw [List.nil_append, scanSegments, if_pos rfl, survey, Act.exec_bind]
    dsimp only
    cases hexec : Act.exec (scanSegmentWithTailHandling last tail analysis) io with
    | mk r io' =>
      cases r with
      | ok found => rfl
      | error halt => rfl
  | cons id ids ih =>
    obtain ⟨analysis, version⟩ := found
    have hmore : ids ++ [last] ≠ [] := by simp
    have hreject : (TailHandling.reject == TailHandling.allow) = false := by decide
    rw [List.cons_append, scanSegments, if_neg hmore, Act.exec_bind,
      exec_scanSegment (by decide), hreject, survey, Bool.false_and]
    cases fileBytes io.disk id with
    | error halt => rfl
    | ok bytes =>
      simp only [Exec.ok_bind]
      cases surveyFile id false bytes analysis with
      | error halt => rfl
      | ok found => exact ih found

/-! ### The contents of one file during a repair -/

/-- The header of a legacy segment. -/
def legacyHeader : WALHeader := { WALHeader.default with version := legacyWalVersion }

theorem length_legacyHeader : legacyHeader.encode.length = walHeaderSize := by decide +kernel

theorem decode_legacyHeader : WALHeader.decode legacyHeader.encode = .ok legacyHeader := by
  decide +kernel

/-- A start of a header is completed to the current header where it can be. -/
theorem headerFor_eq_some {latestLsn : Nat} {bytes header : Bytes} :
    headerFor latestLsn bytes = some header ↔
      (bytes <+: WALHeader.default.encode ∧ header = WALHeader.default.encode) ∨
      (¬bytes <+: WALHeader.default.encode ∧ latestLsn = 0 ∧ bytes <+: legacyHeader.encode ∧
        header = legacyHeader.encode) := by
  have hversion : walVersion ≠ legacyWalVersion := by decide
  by_cases hcurrent : bytes <+: WALHeader.default.encode
  · rw [headerFor_start hcurrent]
    simp [hcurrent, eq_comm]
  · have hskip : bytes.isPrefixOf ({ WALHeader.default with version := walVersion } : WALHeader).encode
        = false := by
      rw [← Bool.not_eq_true, List.isPrefixOf_iff_prefix]
      exact hcurrent
    simp only [headerFor]
    rw [List.filter_cons_of_pos (by simp [hversion]), List.map_cons,
      List.find?_cons_of_neg (by rw [hskip]; simp)]
    by_cases hlatest : latestLsn = 0
    · rw [List.filter_cons_of_pos (by simp [hlatest]), List.filter_nil, List.map_cons, List.map_nil,
        List.find?_singleton]
      show (if bytes.isPrefixOf legacyHeader.encode then some legacyHeader.encode else none) = _ ↔ _
      by_cases hlegacy : bytes <+: legacyHeader.encode
      · rw [if_pos (List.isPrefixOf_iff_prefix.mpr hlegacy)]
        simp [hcurrent, hlatest, hlegacy, eq_comm]
      · rw [if_neg (by rw [List.isPrefixOf_iff_prefix]; exact hlegacy)]
        simp [hcurrent, hlegacy]
    · rw [List.filter_cons_of_neg (by simp [hlatest])]
      simp [hcurrent, hlatest]

/-- What stands between a start of a header and the header is completed to the same header. -/
theorem headerFor_between {latestLsn : Nat} {bytes middle header : Bytes}
    (h : headerFor latestLsn bytes = some header) (hpre : bytes <+: middle)
    (hmiddle : middle <+: header) : headerFor latestLsn middle = some header := by
  rw [headerFor_eq_some] at h ⊢
  rcases h with ⟨-, rfl⟩ | ⟨hnot, hlatest, -, rfl⟩
  · exact .inl ⟨hmiddle, rfl⟩
  · exact .inr ⟨fun hcurrent => hnot (hpre.trans hcurrent), hlatest, hmiddle, rfl⟩

theorem scanRecords_nil (version id : Nat) (analysis : Analysis) :
    scanRecords version id [] analysis = .ok (analysis, walHeaderSize) := by
  rw [scanRecords]
  split <;> rfl

/-- A segment without a frame. -/
theorem scanBytes_header (id : Nat) (analysis : Analysis) :
    scanBytes id WALHeader.default.encode analysis = .ok (analysis, walVersion, walHeaderSize) := by
  have hdecode := WALHeader.decode_default []
  rw [List.append_nil] at hdecode
  refine scanBytes_eq_ok.mpr ⟨.default, hdecode, ⟨fun h => absurd h.1 (by decide), by decide⟩,
    rfl, ?_⟩
  rw [List.drop_of_length_le WALHeader.length_encode.le]
  exact scanRecords_nil _ _ _

/-- A completed header is accepted, and nothing stands behind it. -/
theorem scanBytes_headerFor (id : Nat) {analysis : Analysis} {bytes header : Bytes}
    (h : headerFor analysis.latestLsn bytes = some header) :
    bytes <+: header ∧ header.length = walHeaderSize ∧
      ∃ version, scanBytes id header analysis = .ok (analysis, version, walHeaderSize) := by
  rcases headerFor_eq_some.mp h with ⟨hpre, rfl⟩ | ⟨-, hlatest, hpre, rfl⟩
  · exact ⟨hpre, WALHeader.length_encode, walVersion, scanBytes_header id analysis⟩
  · refine ⟨hpre, length_legacyHeader, legacyWalVersion, ?_⟩
    refine scanBytes_eq_ok.mpr ⟨legacyHeader, decode_legacyHeader,
      ⟨fun h => h.2 hlatest, by decide⟩, rfl, ?_⟩
    rw [List.drop_of_length_le length_legacyHeader.le]
    exact scanRecords_nil _ _ _

theorem surveyFile_strict {id version : Nat} {bytes : Bytes} {analysis analysis' : Analysis} :
    surveyFile id false bytes analysis = .ok (analysis', version) ↔
      scanBytes id bytes analysis = .ok (analysis', version, bytes.length) := by
  have hcompleted : completedBytes false analysis.latestLsn bytes = .ok bytes := by
    rw [completedBytes, if_neg (by simp)]
  rw [surveyFile, hcompleted, Exec.ok_bind]
  constructor
  · intro h
    obtain ⟨⟨analysis₁, version₁, stop⟩, hscan, h⟩ := Exec.bind_eq_ok h
    dsimp only at h
    split at h
    · rename_i hstop
      obtain ⟨rfl, rfl⟩ := Prod.mk.inj (Except.ok.inj h)
      rw [hscan, hstop.resolve_left (by simp)]
    · cases h
  · intro h
    rw [h, Exec.ok_bind]
    exact if_pos (.inr rfl)

/-- A file that the lenient scan accepts: its contents with a whole header, and where the scan of
these stops. -/
structure Repairs (id : Nat) (bytes : Bytes) (analysis analysis' : Analysis) (version : Nat)
    (full : Bytes) (stop : Nat) : Prop where
  completed : completedBytes true analysis.latestLsn bytes = .ok full
  scan : scanBytes id full analysis = .ok (analysis', version, stop)

theorem surveyFile_lenient {id version : Nat} {bytes : Bytes} {analysis analysis' : Analysis} :
    surveyFile id true bytes analysis = .ok (analysis', version) ↔
      ∃ full stop, Repairs id bytes analysis analysis' version full stop := by
  rw [surveyFile]
  constructor
  · intro h
    obtain ⟨full, hcompleted, h⟩ := Exec.bind_eq_ok h
    obtain ⟨⟨analysis₁, version₁, stop⟩, hscan, h⟩ := Exec.bind_eq_ok h
    dsimp only at h
    rw [if_pos (.inl rfl)] at h
    obtain ⟨rfl, rfl⟩ := Prod.mk.inj (Except.ok.inj h)
    exact ⟨full, stop, hcompleted, hscan⟩
  · rintro ⟨full, stop, hcompleted, hscan⟩
    rw [hcompleted, Exec.ok_bind, hscan, Exec.ok_bind]
    exact if_pos (.inl rfl)

/-- A new segment is read, and leniently also while its header is written. -/
theorem surveyFile_header {id : Nat} {lenient : Bool} {bytes : Bytes} {analysis : Analysis}
    (hpre : bytes <+: WALHeader.default.encode)
    (hwhole : lenient = false → bytes = WALHeader.default.encode) :
    surveyFile id lenient bytes analysis = .ok (analysis, walVersion) := by
  cases lenient with
  | false =>
    rw [surveyFile_strict, hwhole rfl, WALHeader.length_encode]
    exact scanBytes_header id analysis
  | true =>
    refine surveyFile_lenient.mpr ⟨WALHeader.default.encode, walHeaderSize, ?_,
      scanBytes_header id analysis⟩
    rw [completedBytes]
    split
    · rw [headerFor_start hpre]
    · rename_i hlong
      have hlength : walHeaderSize ≤ bytes.length := not_lt.mp fun h => hlong ⟨h, rfl⟩
      rw [hpre.eq_of_length_le (by rw [WALHeader.length_encode]; exact hlength)]

/-- What a repair may leave of the contents of a file: more of the header, or all whole records. -/
def Midway (bytes full : Bytes) (stop : Nat) (middle : Bytes) : Prop :=
  (bytes <+: middle ∧ middle <+: full) ∨ middle = full.take stop

namespace Repairs

variable {id version stop : Nat} {bytes full : Bytes} {analysis analysis' : Analysis}

/-- Either the header is incomplete and nothing else is there, or nothing is completed. -/
theorem cases (h : Repairs id bytes analysis analysis' version full stop) :
    (bytes.length < walHeaderSize ∧ headerFor analysis.latestLsn bytes = some full ∧
        stop = full.length) ∨
      (walHeaderSize ≤ bytes.length ∧ full = bytes) := by
  have hcompleted := h.completed
  rw [completedBytes] at hcompleted
  split at hcompleted
  · rename_i hshort
    cases hheader : headerFor analysis.latestLsn bytes with
    | none =>
      rw [hheader] at hcompleted
      cases hcompleted
    | some header =>
      rw [hheader] at hcompleted
      obtain rfl := Except.ok.inj hcompleted
      obtain ⟨-, hlength, version', hscan⟩ := scanBytes_headerFor id hheader
      rw [h.scan] at hscan
      refine .inl ⟨hshort.1, rfl, ?_⟩
      rw [hlength]
      simpa using (Prod.mk.inj (Prod.mk.inj (Except.ok.inj hscan)).2).2
  · rename_i hlong
    exact .inr ⟨not_lt.mp fun hshort => hlong ⟨hshort, rfl⟩, (Except.ok.inj hcompleted).symm⟩

theorem isPrefix (h : Repairs id bytes analysis analysis' version full stop) : bytes <+: full := by
  rcases h.cases with ⟨-, hheader, -⟩ | ⟨-, rfl⟩
  · exact (scanBytes_headerFor id hheader).1
  · exact List.prefix_rfl

theorem untracked (h : Repairs id bytes analysis analysis' version full stop) :
    Repairs id bytes analysis.untracked analysis'.untracked version full stop where
  completed := h.completed
  scan := by
    rw [scanBytes_untracked, h.scan]
    rfl

/-- A repaired file is read strictly. -/
theorem strict (h : Repairs id bytes analysis analysis' version full stop) :
    surveyFile id false (full.take stop) analysis = .ok (analysis', version) := by
  rw [surveyFile_strict, List.length_take, min_eq_left (scanBytes_stop h.scan).2]
  exact scanBytes_again h.scan

/-- What a strict scan accepts is accepted leniently. -/
theorem of_strict (h : surveyFile id false bytes analysis = .ok (analysis', version)) :
    Repairs id bytes analysis analysis' version bytes bytes.length := by
  rw [surveyFile_strict] at h
  have hlong := (scanBytes_stop h).1
  exact ⟨by rw [completedBytes, if_neg (fun hshort => absurd hshort.1 (not_lt.mpr hlong))], h⟩

/-- In the middle of a repair the file is read as before it. -/
theorem midway (h : Repairs id bytes analysis analysis' version full stop) {middle : Bytes}
    (hmiddle : Midway bytes full stop middle) :
    surveyFile id true middle analysis = .ok (analysis', version) := by
  have hwhole : surveyFile id true (full.take stop) analysis = .ok (analysis', version) :=
    surveyFile_lenient.mpr ⟨_, _, of_strict h.strict⟩
  rcases hmiddle with ⟨hpre, hmiddle⟩ | rfl
  · rcases h.cases with ⟨-, hheader, hstop⟩ | ⟨-, rfl⟩
    · by_cases hshort : middle.length < walHeaderSize
      · refine surveyFile_lenient.mpr ⟨full, stop, ?_, h.scan⟩
        rw [completedBytes, if_pos ⟨hshort, rfl⟩, headerFor_between hheader hpre hmiddle]
      · have hlength := (scanBytes_headerFor id hheader).2.1
        have hall : middle = full := hmiddle.eq_of_length_le (by omega)
        rw [hstop, List.take_length] at hwhole
        rw [hall]
        exact hwhole
    · have hall : middle = full := hmiddle.eq_of_length_le hpre.length_le
      rw [hall]
      exact surveyFile_lenient.mpr ⟨_, _, h⟩
  · exact hwhole

/-- A repair keeps every record that decodes in sequence from the start of the segment. -/
theorem keeps (h : Repairs id bytes analysis analysis' version full stop) {header : WALHeader}
    (hheader : WALHeader.decode bytes = .ok header) {offset : Nat}
    (hdecodes : Decodes header.version bytes offset) : bytes.take offset <+: full.take stop := by
  rcases h.cases with ⟨hshort, -, -⟩ | ⟨-, rfl⟩
  · exact absurd hshort (not_lt.mpr (WALHeader.length_of_decode hheader))
  · obtain ⟨found, hfound, -, hversion, -⟩ := scanBytes_eq_ok.mp h.scan
    rw [hheader] at hfound
    rw [Except.ok.inj hfound, hversion] at hdecodes
    exact List.take_prefix_take_left (scanBytes_decodes h.scan hdecodes)

end Repairs

/-! ### The scan that repairs -/

/-- All bytes of the file are durable. -/
def AllSynced (file : DurableFile) : Prop := file.synced = file.bytes.length

theorem AllSynced.cut {file : DurableFile} (h : AllSynced file) (n : Nat) :
    (file.cut n).bytes = file.bytes := by
  rw [DurableFile.bytes_cut, List.take_of_length_le]
  rw [h]
  exact le_max_right _ _

/-- The outcome of a repair. -/
def Repaired (io : Io Nat) (id : Nat) (full : Bytes) (stop : Nat) (io' : Io Nat) : Prop :=
  ∃ file, io'.disk = io.disk.insert id file ∧ file.bytes = full.take stop ∧ AllSynced file

/-- What a repair that did not succeed leaves, also after a power loss. -/
def StoppedMidway (C : Prop) (io : Io Nat) (id : Nat) (bytes full : Bytes) (stop : Nat)
    (halt : Halt) (io' : Io Nat) : Prop :=
  ¬C ∧ IoFault halt ∧ ∃ file, io'.disk = io.disk.insert id file ∧
    ∀ n, Midway bytes full stop (file.cut n).bytes

section
variable {C : Prop} {io : Io Nat} {id version stop : Nat} {file : DurableFile} {full : Bytes}
variable {analysis analysis' : Analysis}

/-- Bytes appended to a durable file may be lost again, but nothing else. -/
theorem midway_append (hsynced : AllSynced file) {added : Bytes} (hadded : file.bytes ++ added <+: full)
    (n : Nat) : Midway file.bytes full stop ((file.append added).cut n).bytes := by
  refine .inl ⟨?_, (List.take_prefix _ _).trans hadded⟩
  rw [DurableFile.bytes_cut, DurableFile.bytes_append, DurableFile.synced_append, hsynced]
  exact List.prefix_take_iff.mpr ⟨List.prefix_append _ _, le_max_right _ _⟩

/-- The header of a file that is shorter than one is completed. -/
theorem completeHeader_repairs (hfile : io.disk[id]? = some file) (hsynced : AllSynced file)
    (h : Repairs id file.bytes analysis analysis' version full stop)
    (hshort : file.bytes.length < walHeaderSize)
    (hheader : headerFor analysis.latestLsn file.bytes = some full) (hstop : stop = full.length) :
    Spec C (· = io) (completeHeader id .repair analysis.latestLsn file.bytes)
      (fun bytes io' => bytes = full ∧ Repaired io id full stop io')
      (StoppedMidway C io id file.bytes full stop) := by
  have hsum : file.bytes ++ full.drop file.bytes.length = full := by
    obtain ⟨rest, hrest⟩ := h.isPrefix
    rw [← hrest, List.drop_left' rfl]
  have hwhole : full.take stop = full := by rw [hstop, List.take_length]
  rw [completeHeader, if_pos ⟨hshort, by simp⟩, hheader]
  dsimp only
  rw [if_pos rfl]
  refine Spec.bind (Q := fun _ io' => io'.disk
      = io.disk.insert id (file.append (full.drop file.bytes.length)))
    (Spec.append hfile (fun _ => rfl) fun e plan written hC he =>
      ⟨hC, he, _, rfl, midway_append hsynced ?_⟩)
    fun _ => Spec.fix fun io₁ hio₁ => ?_
  · conv_rhs => rw [← hsum]
    exact (List.prefix_append_right_inj _).mpr (List.take_prefix _ _)
  have hfile₁ : io₁.disk[id]? = some (file.append (full.drop file.bytes.length)) := by simp [hio₁]
  refine Spec.bind (Q := fun _ io' => io'.disk
      = io.disk.insert id (file.append (full.drop file.bytes.length)).sync)
    (Spec.sync hfile₁ (fun _ => by rw [hio₁, OrdMap.insert_insert]) fun e plan hC he =>
      ⟨hC, he, _, hio₁, midway_append hsynced (by rw [hsum])⟩)
    fun _ => Spec.fix fun io₂ hio₂ => ?_
  have hbytes₂ : (file.append (full.drop file.bytes.length)).sync.bytes = full.take stop := by
    rw [DurableFile.bytes_sync, DurableFile.bytes_append, hsum, hwhole]
  have hsynced₂ : AllSynced (file.append (full.drop file.bytes.length)).sync := rfl
  refine Spec.bind (Q := fun _ io' => io'.disk = io₂.disk)
    (Spec.syncDir (fun _ => rfl) fun e plan hC he =>
      ⟨hC, he, _, hio₂, fun n => .inr (by rw [hsynced₂.cut, hbytes₂])⟩)
    fun _ => Spec.pure fun io₃ hio₃ => ⟨rfl, _, by rw [hio₃, hio₂], hbytes₂, hsynced₂⟩

/-- What stands behind the last whole record is cut off. -/
theorem handleTail_repairs (hfile : io.disk[id]? = some file) (hsynced : AllSynced file) :
    Spec C (· = io) (handleTail id .repair file.bytes.length stop)
      (fun _ io' => Repaired io id file.bytes stop io')
      (StoppedMidway C io id file.bytes file.bytes stop) := by
  have hsame : io.disk = io.disk.insert id file := (OrdMap.insert_of_get? hfile).symm
  unfold handleTail
  by_cases hwhole : stop = file.bytes.length
  · rw [if_pos hwhole]
    refine Spec.pure fun io' hio' => ⟨file, by rw [hio', ← hsame], ?_, hsynced⟩
    rw [hwhole, List.take_length]
  · rw [if_neg hwhole]
    refine Spec.bind (Q := fun _ io' => io'.disk = io.disk.insert id (file.setLen stop))
      (Spec.setLen hfile (fun _ => rfl) fun e plan hC he =>
        ⟨hC, he, file, hsame, fun n => .inl (by rw [hsynced.cut]; exact ⟨List.prefix_rfl, List.prefix_rfl⟩)⟩)
      fun _ => Spec.fix fun io₁ hio₁ => ?_
    have hfile₁ : io₁.disk[id]? = some (file.setLen stop) := by simp [hio₁]
    -- The durable bytes in front of the cut stay durable.
    have hsynced₁ : AllSynced (file.setLen stop) := by
      rw [AllSynced, DurableFile.synced_setLen, DurableFile.bytes_setLen, List.length_take, hsynced,
        min_comm]
    exact Spec.sync hfile₁
      (fun _ => ⟨(file.setLen stop).sync, by rw [hio₁, OrdMap.insert_insert], rfl, rfl⟩)
      fun e plan hC he => ⟨hC, he, _, hio₁, fun n => .inr (by rw [hsynced₁.cut]; rfl)⟩

/-- The repairing scan finds what the lenient survey finds, and leaves the whole records. -/
theorem scanSegment_repairs (hfile : io.disk[id]? = some file) (hsynced : AllSynced file)
    (h : Repairs id file.bytes analysis analysis' version full stop) :
    Spec C (· = io) (scanSegmentWithTailHandling id .repair analysis)
      (fun found io' => found = (analysis', version) ∧ Repaired io id full stop io')
      (StoppedMidway C io id file.bytes full stop) := by
  have hread : Act.exec (Io.readFile ioErrors id) io = (.ok file.bytes, io) := by
    rw [exec_readFile, fileBytes, hfile]
  refine Spec.step hread rfl ?_
  rcases h.cases with ⟨hshort, hheader, hstop⟩ | ⟨hlong, hfull⟩
  · refine Spec.bind (completeHeader_repairs hfile hsynced h hshort hheader hstop)
      fun bytes => Spec.fix ?_
    rintro io₁ ⟨rfl, hrepaired⟩
    rw [h.scan]
    refine Spec.step (Act.exec_ofExcept _ _) rfl ?_
    unfold handleTail
    dsimp only
    rw [if_pos hstop]
    exact Spec.step (Act.exec_pure _ _) rfl
      (Spec.pure fun io' hio' => ⟨rfl, by rw [hio']; exact hrepaired⟩)
  · rw [completeHeader, if_neg (fun hshort => absurd hshort.1 (not_lt.mpr hlong))]
    refine Spec.step (Act.exec_pure _ _) rfl ?_
    have hscan := h.scan
    rw [hfull] at hscan ⊢
    rw [hscan]
    refine Spec.step (Act.exec_ofExcept _ _) rfl ?_
    exact Spec.bind (handleTail_repairs hfile hsynced) fun _ => Spec.pure fun io' hio' => ⟨rfl, hio'⟩

/-- A file that the lenient survey refuses is refused before anything is written. -/
theorem scanSegment_refused {halt : Halt}
    (h : (fileBytes io.disk id >>= fun bytes => surveyFile id true bytes analysis) = .error halt) :
    Act.exec (scanSegmentWithTailHandling id .repair analysis) io = (.error halt, io) := by
  rw [scanSegmentWithTailHandling, Act.exec_bind, exec_readFile]
  cases hbytes : fileBytes io.disk id with
  | error halt' =>
    rw [hbytes] at h
    rw [← Except.error.inj h]
  | ok bytes =>
    rw [hbytes, Exec.ok_bind, surveyFile, completedBytes] at h
    dsimp only
    rw [completeHeader]
    by_cases hshort : bytes.length < walHeaderSize
    · rw [if_pos ⟨hshort, rfl⟩] at h
      rw [if_pos ⟨hshort, by simp⟩]
      cases hheader : headerFor analysis.latestLsn bytes with
      | none =>
        rw [hheader] at h
        rw [← Except.error.inj h]
        rfl
      | some header =>
        -- A completed header is never refused.
        obtain ⟨-, -, version, hscan⟩ := scanBytes_headerFor id hheader
        rw [hheader] at h
        dsimp only at h
        rw [Exec.ok_bind, hscan, Exec.ok_bind] at h
        dsimp only at h
        rw [if_pos (.inl rfl)] at h
        cases h
    · rw [if_neg (fun h => hshort h.1)] at h ⊢
      rw [Exec.ok_bind] at h
      rw [Act.exec_bind_ok (Act.exec_pure _ _), Act.exec_bind, Act.exec_ofExcept]
      cases hscan : scanBytes id bytes analysis with
      | error halt' =>
        rw [hscan] at h
        rw [← Except.error.inj h]
      | ok found =>
        rw [hscan, Exec.ok_bind] at h
        dsimp only at h
        rw [if_pos (.inl rfl)] at h
        cases h

end

end CereDB.Storage
