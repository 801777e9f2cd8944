import CereDB.Proofs.FtsTerms

/-!
# `CereDB.Proofs.FtsIndex`: what the records of the index stand for

An index is a set of documents by id. `indexValue` says which value each record has for given
documents, and `Represents` that the records of an engine are exactly these.

Every set of documents that fits has such records (`represents_recordsOf`).

The rest are the reads of the index: on records that stand for documents they return what the
documents say.
-/

set_option autoImplicit false

namespace CereDB.Fts

open CereDB.Lib CereDB.Storage

/-- The documents of an index. -/
abbrev Documents := OrdMap DocumentId Text

section
variable (unicode : Unicode)

/-- The number of documents. -/
def documentCount (docs : Documents) : Nat := OrdMap.sum (fun _ _ => 1) docs

/-- The number of tokens of all documents. -/
def corpusLength (docs : Documents) : Nat :=
  OrdMap.sum (fun _ text => (tokens unicode text).length) docs

/-- One when a document has a term. -/
def occurs (term text : Text) : Nat := if term ∈ tokens unicode text then 1 else 0

/-- The number of documents with a term. -/
def documentFrequency (docs : Documents) (term : Text) : Nat :=
  OrdMap.sum (fun _ text => occurs unicode term text) docs

/-- How often a term occurs in the document of an id. -/
def occurrences (docs : Documents) (id : DocumentId) (term : Text) : Nat :=
  (docs[id]?).elim 0 fun text => (tokens unicode text).count term

/-- The value of a record. -/
def indexValue (docs : Documents) : IndexKey → Option Bytes
  | .metadata => some [formatVersion, tokenizerVersion]
  | .stats => some (encodeStats (documentCount docs) (corpusLength unicode docs))
  | .document id => (docs[id]?).map Text.bytes
  | .forward id => (docs[id]?).map fun text => termsBytes (tokenize unicode text)
  | .posting term id => counter (occurrences unicode docs id term)
  | .df term => counter (documentFrequency unicode docs term)

/-- The components of a document fit into keys. -/
def FitsKeys (id : DocumentId) (text : Text) : Prop :=
  Short id.text.bytes ∧ ∀ term ∈ tokens unicode text, Short term.bytes

/-- The records stand for documents. -/
structure Represents (docs : Documents) (records : Records) : Prop where
  value : ∀ key : IndexKey, key.Fits → records[key.bytes]? = indexValue unicode docs key
  known : ∀ key : Key, reserved key = true → records[key]? ≠ none →
    ∃ index : IndexKey, index.Fits ∧ index.bytes = key
  fits : ∀ (id : DocumentId) (text : Text), docs[id]? = some text → FitsKeys unicode id text
  count : documentCount docs < u64Limit
  total : corpusLength unicode docs < u64Limit

end

/-! ### The index of documents -/

section
variable (unicode : Unicode) (docs : Documents)

/-- The records that documents have. -/
def indexKeys : List IndexKey :=
  [.metadata, .stats] ++ docs.toList.flatMap fun entry =>
    [.document entry.1, .forward entry.1] ++
      (tokens unicode entry.2).flatMap fun term => [.posting term entry.1, .df term]

/-- Records with their values for documents. -/
def recordsOf (keys : List IndexKey) : Records :=
  keys.foldr (fun key records =>
    applyOperation records (assign key.bytes (indexValue unicode docs key))) ∅

end

section
variable {unicode : Unicode} {docs : Documents} {records : Records}

theorem get?_assign (records : Records) (key other : Key) (value : Option Bytes) :
    (applyOperation records (assign key value))[other]? =
      if key = other then value else records[other]? := by
  cases value with
  | none => exact (OrdMap.get?_erase records key other).trans (by congr)
  | some value => exact (OrdMap.get?_insert records key other value).trans (by congr)

theorem get?_recordsOf (keys : List IndexKey) (key : Key) :
    (recordsOf unicode docs keys)[key]? =
      (keys.find? fun index => decide (index.bytes = key)).bind (indexValue unicode docs) := by
  induction keys with
  | nil => exact OrdMap.get?_empty key
  | cons index keys ih =>
    rw [recordsOf, List.foldr_cons, ← recordsOf, get?_assign, List.find?_cons, ih]
    by_cases hsame : index.bytes = key <;> simp [hsame]

/-- Documents that fit have an index. -/
theorem represents_recordsOf
    (hfits : ∀ (id : DocumentId) (text : Text), docs[id]? = some text → FitsKeys unicode id text)
    (hcount : documentCount docs < u64Limit) (htotal : corpusLength unicode docs < u64Limit) :
    Represents unicode docs (recordsOf unicode docs (indexKeys unicode docs)) := by
  have hall : ∀ key ∈ indexKeys unicode docs, key.Fits := by
    intro key hkey
    simp only [indexKeys, List.mem_append, List.mem_flatMap, List.mem_cons, List.not_mem_nil,
      or_false] at hkey
    rcases hkey with (rfl | rfl) | ⟨entry, hentry, (rfl | rfl) | ⟨term, hterm, rfl | rfl⟩⟩
    · trivial
    · trivial
    all_goals have hentry := hfits _ _ ((OrdMap.mem_toList_iff _ _ _).mp hentry)
    · exact hentry.1
    · exact hentry.1
    · exact ⟨hentry.2 term hterm, hentry.1⟩
    · exact hentry.2 term hterm
  have hmem {id : DocumentId} {text : Text} (hid : docs[id]? = some text) {key : IndexKey}
      (hkey : key ∈ [.document id, .forward id] ++
        (tokens unicode text).flatMap fun term => [.posting term id, .df term]) :
      key ∈ indexKeys unicode docs :=
    List.mem_append_right _ (List.mem_flatMap.mpr
      ⟨(id, text), (OrdMap.mem_toList_iff _ _ _).mpr hid, hkey⟩)
  -- a record that has a value is one of the keys
  have hnone (key : IndexKey) (hkey : key ∉ indexKeys unicode docs) :
      indexValue unicode docs key = none := by
    cases key with
    | metadata | stats => simp [indexKeys] at hkey
    | document id | forward id =>
      rw [indexValue, Option.map_eq_none_iff, Option.eq_none_iff_forall_ne_some]
      exact fun text hid => hkey (hmem hid (by simp))
    | posting term id =>
      rw [indexValue, counter, if_pos]
      cases hid : docs[id]? with
      | none => simp [occurrences, hid]
      | some text =>
        simp only [occurrences, hid, Option.elim_some, List.count_eq_zero]
        exact fun hterm => hkey (hmem hid (by simp [hterm]))
    | df term =>
      rw [indexValue, counter, if_pos]
      refine OrdMap.sum_eq_zero_iff.mpr fun id text hid => if_neg fun hterm => ?_
      exact hkey (hmem hid (by simp [hterm]))
  refine ⟨fun key hkey => ?_, fun key _ hsome => ?_, hfits, hcount, htotal⟩
  · rw [get?_recordsOf]
    cases hfind : (indexKeys unicode docs).find? fun index => decide (index.bytes = key.bytes) with
    | none =>
      rw [List.find?_eq_none] at hfind
      exact (hnone key fun hin => hfind key hin (decide_eq_true rfl)).symm
    | some index =>
      have hsame : index.bytes = key.bytes := by simpa using List.find?_some hfind
      rw [IndexKey.bytes_injective (hall index (List.mem_of_find?_eq_some hfind)) hkey hsame]
      rfl
  · rw [get?_recordsOf] at hsome
    cases hfind : (indexKeys unicode docs).find? fun index => decide (index.bytes = key) with
    | none => exact absurd (by rw [hfind]; rfl) hsome
    | some index =>
      exact ⟨index, hall index (List.mem_of_find?_eq_some hfind),
        by simpa using List.find?_some hfind⟩

/-! ### Counting -/

theorem occurs_le_one (unicode : Unicode) (term text : Text) : occurs unicode term text ≤ 1 := by
  rw [occurs]
  split <;> omega

/-- No term is in more documents than there are. -/
theorem documentFrequency_le (unicode : Unicode) (docs : Documents) (term : Text) :
    documentFrequency unicode docs term ≤ documentCount docs :=
  OrdMap.sum_le_sum fun _ text _ => occurs_le_one unicode term text

theorem occurrences_le (unicode : Unicode) (docs : Documents) (id : DocumentId) (term : Text) :
    occurrences unicode docs id term ≤ corpusLength unicode docs := by
  refine le_trans ?_ (OrdMap.term_le_sum (fun _ text => (tokens unicode text).length) docs id)
  rw [occurrences, OrdMap.term]
  cases docs[id]? with
  | none => rfl
  | some text => exact List.count_le_length

/-- Without documents nothing has a length. -/
theorem corpusLength_eq_zero (h : documentCount docs = 0) : corpusLength unicode docs = 0 := by
  rw [documentCount, OrdMap.sum_eq_zero_iff] at h
  rw [corpusLength, OrdMap.sum_eq_zero_iff]
  intro id text hget
  exact absurd (h id text hget) one_ne_zero

/-! ### Reading values -/

theorem decodeU64_beBytes {n : Nat} (h : n < u64Limit) : decodeU64 (beBytes 8 n) = .ok n := by
  have hread := (Reader.Parses.readBe (corrupt "truncated integer")
    (show n < 256 ^ 8 from h)) []
  rw [List.append_nil] at hread
  rw [decodeU64, decodeAll, readU64, hread]
  rfl

theorem decodeStats_encodeStats {count total : Nat} (hcount : count < u64Limit)
    (htotal : total < u64Limit) (hzero : count = 0 → total = 0) :
    decodeStats (encodeStats count total) = .ok (count, total) := by
  have htake : (encodeStats count total).take 8 = beBytes 8 count := by
    rw [encodeStats, List.take_left' (length_beBytes 8 count)]
  have hdrop : (encodeStats count total).drop 8 = beBytes 8 total := by
    rw [encodeStats, List.drop_left' (length_beBytes 8 count)]
  rw [decodeStats, if_neg (by simp [encodeStats]), htake, hdrop, decodeU64_beBytes hcount,
    decodeU64_beBytes htotal]
  show (if _ then _ else _ : Exec (Nat × Nat)) = _
  rw [if_neg fun hbad => hbad.2 (hzero hbad.1)]
  rfl

namespace Represents

variable {term : Text} {id : DocumentId}

theorem eval_loadStats (h : Represents unicode docs records) :
    loadStats.eval records = .ok (documentCount docs, corpusLength unicode docs) := by
  simp only [loadStats, Query.eval_bind, Query.eval_getRecord, statsKey_eq, h.value .stats trivial,
    indexValue, Exec.ok_bind, Query.eval_ofExec]
  exact decodeStats_encodeStats h.count h.total corpusLength_eq_zero

theorem eval_loadDf (h : Represents unicode docs records) (hterm : Short term.bytes) :
    (loadDf term).eval records = .ok (documentFrequency unicode docs term) := by
  have hkey : (IndexKey.df term).Fits := hterm
  simp only [loadDf, dfKey_of_fits hkey, Query.eval_bind, Query.eval_ofExec, Exec.ok_bind,
    Query.eval_getRecord, h.value _ hkey, indexValue, counter]
  by_cases hzero : documentFrequency unicode docs term = 0
  · simp only [hzero, if_true, Query.eval_pure]
  · have hlt := (documentFrequency_le unicode docs term).trans_lt h.count
    simp only [hzero, if_false, Query.eval_bind, Query.eval_ofExec, decodeU64_beBytes hlt,
      Exec.ok_bind, Query.eval_pure]

/-! ### The state of a document -/

section
variable {text : Text}

/-- A document has no more tokens than all documents. -/
theorem length_tokens_lt (h : Represents unicode docs records) (hid : docs[id]? = some text) :
    (tokens unicode text).length < u64Limit := by
  have hterm := OrdMap.term_le_sum (fun _ text => (tokens unicode text).length) docs id
  rw [OrdMap.term, hid] at hterm
  exact hterm.trans_lt h.total

theorem eval_checkPosting (h : Represents unicode docs records) (hid : docs[id]? = some text)
    {n : Nat} (hterm : (tokenize unicode text)[term]? = some n) :
    (checkPosting id (term, n)).eval records = .ok () := by
  obtain ⟨hshort, hterms⟩ := h.fits id text hid
  have hkey : (IndexKey.posting term id).Fits := ⟨hterms term (mem_tokens_of_get? hterm), hshort⟩
  have hcount : (tokens unicode text).count term = n := by
    rw [← frequency_tokenize, frequency, hterm]
    rfl
  have hoccurs : occurrences unicode docs id term = n := by
    rw [occurrences, hid]
    exact hcount
  have hlt : n < u64Limit := hoccurs ▸ (occurrences_le unicode docs id term).trans_lt h.total
  simp only [checkPosting, postingKey_of_fits hkey, Query.eval_bind, Query.eval_ofExec,
    Exec.ok_bind, Query.eval_getRecord, h.value _ hkey, indexValue, counter, hoccurs,
    get?_tokenize_ne_zero hterm, if_false, decodeU64_beBytes hlt, if_true, Query.eval_pure]

/-- What the index knows about a document. -/
def stateOf (unicode : Unicode) (text : Text) : DocumentState where
  document := text.bytes
  terms := tokenize unicode text
  length := (tokens unicode text).length

/-- The loading of a document, up to the check of its forward record. -/
theorem loadDocumentState_eq (h : Represents unicode docs records)
    (hshort : Short id.text.bytes) :
    (loadDocumentState unicode id).eval records = match docs[id]? with
      | none => .ok none
      | some text => do
          let (terms, length) ← decodeTerms unicode (termsBytes (tokenize unicode text))
          if terms.toList ≠ (tokenize unicode text).toList then
            .error (corrupt "document and forward terms disagree")
          else do
            let _ ← terms.toList.mapM fun entry => (checkPosting id entry).eval records
            return some { document := text.bytes, terms, length } := by
  have hdocument : (IndexKey.document id).Fits := hshort
  have hforward : (IndexKey.forward id).Fits := hshort
  simp only [loadDocumentState, documentKey_of_fits hdocument, forwardKey_of_fits hforward,
    Query.eval_bind, Query.eval_ofExec, Exec.ok_bind, Query.eval_getRecord, h.value _ hdocument,
    h.value _ hforward, indexValue]
  cases docs[id]? with
  | none => rfl
  | some text =>
    simp only [Option.map_some, Text.ofBytes?_bytes, Query.eval_bind, Query.eval_ofExec]
    congr 1
    funext result
    obtain ⟨terms, length⟩ := result
    simp only
    split
    · rfl
    · simp only [Query.eval_bind, Query.eval_mapM]
      rfl

/-- The terms of a document pass the check of its forward record. -/
theorem acceptable (h : Represents unicode docs records) (hstable : unicode.Stable)
    (hid : docs[id]? = some text) {n : Nat} (hterm : (tokenize unicode text)[term]? = some n) :
    Acceptable unicode (term, n) := by
  have hmem := mem_tokens_of_get? hterm
  obtain ⟨hnonempty, chars, hchars⟩ := mem_tokens unicode hmem
  refine ⟨(h.fits id text hid).2 term hmem, hnonempty, ?_, get?_tokenize_ne_zero hterm⟩
  show unicode.strToLowercase term.chars = term.chars
  rw [hchars]
  exact hstable chars

/-- A document of the index can be loaded. -/
theorem eval_loadDocumentState (h : Represents unicode docs records) (hstable : unicode.Stable)
    (hshort : Short id.text.bytes) :
    (loadDocumentState unicode id).eval records = .ok ((docs[id]?).map (stateOf unicode)) := by
  rw [h.loadDocumentState_eq hshort]
  cases hid : docs[id]? with
  | none => rfl
  | some text =>
    have hlt : OrdMap.sum (fun _ n => n) (tokenize unicode text) < u64Limit := by
      rw [sum_tokenize]
      exact h.length_tokens_lt hid
    have hchecks : (tokenize unicode text).toList.mapM
        (fun entry => (checkPosting id entry).eval records)
          = .ok ((tokenize unicode text).toList.map fun _ => ()) := by
      refine Exec.mapM_of_ok fun entry hentry => ?_
      exact h.eval_checkPosting hid ((OrdMap.mem_toList_iff _ _ _).mp hentry)
    simp only [decodeTerms_termsBytes (fun term n => h.acceptable hstable hid) hlt, Exec.ok_bind,
      ne_eq, not_true_eq_false, if_false, hchecks, sum_tokenize]
    rfl

end

end Represents

end

end CereDB.Fts
