import CereDB.Fts.Search
import CereDB.Proofs.FtsCodec
import CereDB.Proofs.FtsIndex

/-!
# `CereDB.Proofs.FtsSearch`: a search finds the documents that match

Over a consistent index the posting scan of a term lists the documents with the term and no others
(`eval_postings`): the prefix of the term picks its own postings out of all records, each row parses,
and each document passes the check against its forward record. `search_exact` gives the hits: the
first documents that match, in the order of their ids. No check of `search` reports corruption.
-/

set_option autoImplicit false

namespace CereDB.Fts

open CereDB.Lib CereDB.Storage

/-! ### Combining sets -/

/-- A fold that intersects, from a set on. -/
theorem has_foldl_inter
    {step : Option (OrdSet DocumentId) → OrdSet DocumentId → Option (OrdSet DocumentId)}
    (hstep : ∀ current ids, step (some current) ids = some (OrdSet.inter current ids))
    (sets : List (OrdSet DocumentId)) (found : OrdSet DocumentId) (id : DocumentId) :
    OrdSet.has ((sets.foldl step (some found)).getD ∅) id = true ↔
      OrdSet.has found id = true ∧ ∀ set ∈ sets, OrdSet.has set id = true := by
  induction sets generalizing found with
  | nil => simp
  | cons set sets ih => simp [hstep, ih, and_assoc]

/-- What the documents of a query have in common with those of its terms. -/
theorem has_matchingIds {isAnd : Bool} {sets : List (OrdSet DocumentId)} (h : sets ≠ [])
    (id : DocumentId) :
    OrdSet.has (matchingIds isAnd sets) id = true ↔
      if isAnd then ∀ set ∈ sets, OrdSet.has set id = true
      else ∃ set ∈ sets, OrdSet.has set id = true := by
  cases isAnd with
  | false => simp [matchingIds, OrdSet.mem_keyList_iff]
  | true =>
    -- the order of the intersections does not matter, only that there is a first set
    have hperm := List.mergeSort_perm sets fun a b => decide (a.size ≤ b.size)
    simp only [matchingIds, intersectAll, if_true]
    cases hsorted : sets.mergeSort fun a b => decide (a.size ≤ b.size) with
    | nil =>
      rw [hsorted] at hperm
      exact absurd hperm.nil_eq.symm h
    | cons first rest =>
      rw [hsorted] at hperm
      show OrdSet.has ((rest.foldl _ (some first)).getD ∅) id = true ↔ _
      rw [has_foldl_inter fun _ _ => rfl]
      refine (List.forall_mem_cons (p := fun set => OrdSet.has set id = true)).symm.trans ?_
      exact forall_congr' fun set => imp_congr_left hperm.mem_iff

/-! ### Postings -/

section
variable {unicode : Unicode} {docs : Documents} {records : Records} {term text : Text}
  {id : DocumentId}

/-- The document of an id has a term. -/
def Contains (unicode : Unicode) (docs : Documents) (term : Text) (id : DocumentId) : Prop :=
  ∃ text, docs[id]? = some text ∧ term ∈ tokens unicode text

theorem occurrences_ne_zero_iff :
    occurrences unicode docs id term ≠ 0 ↔ Contains unicode docs term id := by
  rw [occurrences, Contains]
  cases docs[id]? <;> simp [List.count_eq_zero]

/-- The key and the value of a posting parse to its document and its frequency. -/
theorem parsePosting_posting {n : Nat} (hid : Short id.text.bytes) (hn : n < u64Limit) :
    parsePosting (postingStart term) (IndexKey.posting term id).bytes (beBytes 8 n)
      = .ok (id, n) := by
  have hread := parses_readComponent hid []
  rw [List.append_nil] at hread
  have hnew : DocumentId.new id.text = .ok id := dif_pos id.nonempty
  simp [parsePosting, posting_bytes, hread, Text.ofBytes?_bytes, hnew, decodeU64_beBytes hn]

namespace Represents

/-- A row under the prefix of a term is the posting of a document with the term, and passes. -/
theorem eval_postingRow (h : Represents unicode docs records) (hstable : unicode.Stable)
    (hterm : Short term.bytes) {row : Key × Bytes}
    (hrow : row ∈ scanRecords records (prefixRange (postingStart term))) :
    ∃ id, row.1 = (IndexKey.posting term id).bytes ∧ Contains unicode docs term id ∧
      (postingRow unicode term (postingStart term) row).eval records
        = .ok (id, occurrences unicode docs id term) := by
  obtain ⟨key, value⟩ := row
  rw [scanRecords, List.mem_filter, keyInRange_prefixRange, List.isPrefixOf_iff_prefix] at hrow
  obtain ⟨hmem, hstart⟩ := hrow
  have hget : records[key]? = some value := (OrdMap.mem_toList_iff _ _ _).mp hmem
  -- a key with this prefix is reserved, so it is a key of the index, and a posting of the term
  have hreserved : reserved key = true :=
    List.isPrefixOf_iff_prefix.mpr ((List.prefix_append _ _).trans hstart)
  obtain ⟨index, hfits, rfl⟩ := h.known key hreserved (by rw [hget]; exact Option.some_ne_none _)
  obtain ⟨id, rfl⟩ := (postingStart_prefix_iff hterm hfits).mp hstart
  rw [h.value _ hfits, indexValue, counter] at hget
  split at hget
  · cases hget
  rename_i hne
  obtain rfl := Option.some.inj hget
  have hcontains := occurrences_ne_zero_iff.mp hne
  obtain ⟨text, hid, hin⟩ := hcontains
  have hlt := (occurrences_le unicode docs id term).trans_lt h.total
  have hnone : ((stateOf unicode text).terms[term]?).isNone = false :=
    Option.isNone_eq_false_iff.mpr (get?_tokenize_isSome_iff.mpr hin)
  refine ⟨id, rfl, ⟨text, hid, hin⟩, ?_⟩
  simp only [postingRow, Query.eval_bind, Query.eval_ofExec, parsePosting_posting hfits.2 hlt,
    Exec.ok_bind, if_neg hne, validatePosting, h.eval_loadDocumentState hstable hfits.2, hid,
    Option.map_some, hnone, Bool.false_eq_true, if_false, Query.eval_pure]

/-- The posting scan of a term finds the documents with the term. -/
theorem eval_postings (h : Represents unicode docs records) (hstable : unicode.Stable)
    (hterm : Short term.bytes) :
    ∃ found, (postings unicode term).eval records = .ok found ∧
      ∀ id, OrdSet.has (OrdSet.ofList (found.map Prod.fst)) id = true ↔
        Contains unicode docs term id := by
  have hnonempty : Nonempty DocumentId := ⟨⟨⟨['a']⟩, List.cons_ne_nil _ _⟩⟩
  choose! idOf hrow using fun row => @h.eval_postingRow _ _ _ term hstable hterm row
  refine ⟨(scanRecords records (prefixRange (postingStart term))).map
    fun row => (idOf row, occurrences unicode docs (idOf row) term), ?_, fun id => ?_⟩
  · simp only [postings, Query.eval_bind, Query.eval_ofExec, postingPrefix_of_short hterm,
      Exec.ok_bind, Query.eval_scanRange, Query.eval_mapM]
    exact Exec.mapM_of_ok fun row hmem => (hrow row hmem).2.2
  · rw [OrdSet.has_ofList, List.map_map, List.mem_map]
    constructor
    · rintro ⟨row, hmem, rfl⟩
      exact (hrow row hmem).2.1
    · rintro ⟨text, hid, hin⟩
      -- the posting of the document is one of the rows
      have hfits : (IndexKey.posting term id).Fits := ⟨hterm, (h.fits id text hid).1⟩
      have hmem : ((IndexKey.posting term id).bytes, beBytes 8 (occurrences unicode docs id term))
          ∈ scanRecords records (prefixRange (postingStart term)) := by
        rw [scanRecords, List.mem_filter, keyInRange_prefixRange, List.isPrefixOf_iff_prefix,
          OrdMap.mem_toList_iff, h.value _ hfits, indexValue, counter,
          if_neg (occurrences_ne_zero_iff.mpr ⟨text, hid, hin⟩)]
        exact ⟨rfl, (postingStart_prefix_iff hterm hfits).mpr ⟨id, rfl⟩⟩
      obtain ⟨hkey, ⟨text', hid', -⟩, -⟩ := hrow _ hmem
      have hother : (IndexKey.posting term (idOf _)).Fits := ⟨hterm, (h.fits _ text' hid').1⟩
      have hsame := IndexKey.posting.inj (IndexKey.bytes_injective hfits hother hkey)
      exact ⟨_, hmem, hsame.2.symm⟩

end Represents

/-! ### The search -/

/-- A text matches a query. -/
def FtsQuery.selects (unicode : Unicode) (query : FtsQuery) (text : Text) : Bool :=
  let terms := normalizeTerms unicode query.input
  if query.isAnd then terms.all fun term => decide (term ∈ tokens unicode text)
  else terms.any fun term => decide (term ∈ tokens unicode text)

/-- The documents that match, in the order of their ids. -/
def matching (unicode : Unicode) (docs : Documents) (query : FtsQuery) : List (DocumentId × Text) :=
  docs.toList.filter fun entry => query.selects unicode entry.2

/-- A document matches when it has all terms of the query, or one of them. -/
theorem mem_matching_iff {query : FtsQuery} (hne : normalizeTerms unicode query.input ≠ []) :
    (if query.isAnd then ∀ term ∈ normalizeTerms unicode query.input, Contains unicode docs term id
      else ∃ term ∈ normalizeTerms unicode query.input, Contains unicode docs term id) ↔
      ∃ entry ∈ matching unicode docs query, entry.1 = id := by
  have hmatching : (∃ entry ∈ matching unicode docs query, entry.1 = id) ↔
      ∃ text, docs[id]? = some text ∧ query.selects unicode text = true := by
    constructor
    · rintro ⟨⟨id, text⟩, hmem, rfl⟩
      obtain ⟨hin, hselects⟩ := List.mem_filter.mp hmem
      exact ⟨text, (OrdMap.mem_toList_iff _ _ _).mp hin, hselects⟩
    · rintro ⟨text, hget, hselects⟩
      exact ⟨(id, text), List.mem_filter.mpr ⟨(OrdMap.mem_toList_iff _ _ _).mpr hget, hselects⟩, rfl⟩
  -- without a document, a query with a term has no match
  obtain ⟨first, hfirst⟩ := List.exists_mem_of_ne_nil _ hne
  simp only [hmatching, FtsQuery.selects, Contains]
  cases docs[id]? with
  | none =>
    cases query.isAnd with
    | true => simpa using ⟨first, hfirst⟩
    | false => simp
  | some text => cases query.isAnd <;> simp

theorem queryTerms_eq_ok {query : FtsQuery} {limit : Nat} {terms : List Text}
    (h : queryTerms unicode query limit = .ok terms) :
    terms = normalizeTerms unicode query.input ∧ terms ≠ [] := by
  simp only [queryTerms] at h
  split at h
  · cases h
  split at h
  · cases h
  rename_i hne
  split at h
  · cases h
  obtain rfl := Except.ok.inj h
  exact ⟨rfl, hne⟩

/-- The sets of the terms combine to the documents that match. -/
theorem keyList_matchingIds {query : FtsQuery} {terms : List Text}
    (hterms : terms = normalizeTerms unicode query.input) (hne : terms ≠ [])
    {sets : Text → OrdSet DocumentId} (hsets : ∀ term ∈ terms, ∀ id,
      OrdSet.has (sets term) id = true ↔ Contains unicode docs term id) :
    (matchingIds query.isAnd (terms.map sets)).keyList
      = (matching unicode docs query).map Prod.fst := by
  -- both lists ascend, and they have the same documents
  refine (OrdMap.sorted_keyList _).eq_of_mem_iff ?_ fun id => ?_
  · rw [List.pairwise_map]
    exact (OrdMap.sorted_toList docs).sublist List.filter_sublist
  · rw [OrdSet.mem_keyList_iff, has_matchingIds (by simpa using hne), List.mem_map,
      ← mem_matching_iff (hterms ▸ hne), ← hterms]
    cases query.isAnd with
    | true =>
      simpa only [if_true, List.forall_mem_map] using forall₂_congr fun term hterm =>
        hsets term hterm id
    | false =>
      simpa only [Bool.false_eq_true, if_false, List.mem_map, exists_exists_and_eq_and]
        using exists_congr fun term => and_congr_right fun hterm => hsets term hterm id

end

/-- Over a consistent index `search` returns the first documents that match the query, each with its
current bytes, whenever the query passes the checks on its terms and its limit. -/
theorem search_exact {E : Type} [AsyncKVEngine E] {records : E → Records}
    (hanswers : Answering records) (unicode : Unicode) (hstable : unicode.Stable) {docs : Documents}
    {engine : E} (h : Represents unicode docs (records engine)) (query : FtsQuery) (limit : Nat)
    (terms : List Text) (hterms : queryTerms unicode query limit = .ok terms)
    (hshort : ∀ term ∈ terms, Short term.bytes) :
    ∃ engine', records engine' = records engine ∧
      Act.exec (search unicode query limit).run engine
        = (.ok (((matching unicode docs query).take limit).map
            fun entry => ⟨entry.1, entry.2.bytes⟩), engine') := by
  obtain ⟨engine', hsame, hexec⟩ := hanswers.run_query (search unicode query limit) engine
  refine ⟨engine', hsame, hexec.trans (congrArg (·, engine') ?_)⟩
  obtain ⟨hnormal, hne⟩ := queryTerms_eq_ok hterms
  simp only [search, Query.eval_bind, Query.eval_await, Exec.ok_bind, Query.eval_ofExec, hterms]
  by_cases hlimit : limit = 0
  · simp [hlimit]
  choose! found heval hfound using fun (term : Text) (hterm : Short term.bytes) =>
    h.eval_postings hstable hterm
  have hsets : terms.mapM (fun term => Query.eval (records engine) (do
        return OrdSet.ofList ((← postings unicode term).map Prod.fst)))
      = .ok (terms.map fun term => OrdSet.ofList ((found term).map Prod.fst)) := by
    refine Exec.mapM_of_ok fun term hterm => ?_
    simp only [Query.eval_bind, heval term (hshort term hterm), Exec.ok_bind, Query.eval_pure]
  rw [if_neg hlimit, Query.eval_bind, Query.eval_mapM, hsets, Exec.ok_bind, Query.eval_mapM,
    keyList_matchingIds hnormal hne fun term hterm => hfound term (hshort term hterm),
    ← List.map_take, List.mapM_map]
  refine Exec.mapM_of_ok fun entry hentry => ?_
  have hget : docs[entry.1]? = some entry.2 :=
    (OrdMap.mem_toList_iff _ _ _).mp (List.mem_filter.mp (List.mem_of_mem_take hentry)).1
  have hfits : (IndexKey.document entry.1).Fits := (h.fits _ _ hget).1
  simp [searchHit, documentKey_of_fits hfits, h.value _ hfits, indexValue, hget]

/-- Over a consistent index the statistics, the document frequency of a term and a document are read as
the documents have them. -/
theorem index_reads_exact {unicode : Unicode} (hstable : unicode.Stable) {docs : Documents}
    {records : Records} (h : Represents unicode docs records) (term : Text) (id : DocumentId)
    (hterm : Short term.bytes) (hid : Short id.text.bytes) :
    loadStats.eval records = .ok (documentCount docs, corpusLength unicode docs) ∧
    (loadDf term).eval records = .ok (documentFrequency unicode docs term) ∧
    (FtsIndex.getDocument unicode id).eval records = .ok ((docs[id]?).map Text.bytes) := by
  refine ⟨h.eval_loadStats, h.eval_loadDf hterm, ?_⟩
  simp only [FtsIndex.getDocument, Query.eval_bind, Query.eval_await, Exec.ok_bind,
    h.eval_loadDocumentState hstable hid, Query.eval_pure, Option.map_map]
  rfl

/-- A map of records is an engine. -/
instance recordsEngine : AsyncKVEngine Records where
  get key := do return (← get)[key]?
  put key value := modify (applyOperation · (.put key value))
  delete key := modify (applyOperation · (.delete key))
  writeBatch operations := modify (applyBatch · operations)
  awaitPendingWrites := pure ()
  scan range := do return scanRecords (← get) range

theorem answering_recordsEngine : Answering (E := Records) id where
  get _ records := ⟨records, rfl, rfl⟩
  scan _ records := ⟨records, rfl, rfl⟩
  awaitPendingWrites records := ⟨records, rfl, rfl⟩

/-- An alphabet of two letters. -/
def Unicode.ab : Unicode where
  isAlphanumeric character := character == 'a' || character == 'b'
  toLowercase character := [character]
  strToLowercase chars := chars

theorem letter_ne_nil (letter : Char) : [letter] ≠ [] := List.cons_ne_nil letter []

/-- An id of one letter. -/
def DocumentId.letter (letter : Char) : DocumentId := ⟨⟨[letter]⟩, letter_ne_nil letter⟩

/-- Two documents with a term in common. -/
def twoDocuments : Documents :=
  ((∅ : Documents).insert (.letter 'x') ⟨['a', ' ', 'b']⟩).insert (.letter 'y') ⟨['b']⟩

/-- The index of them. -/
def twoRecords : Records := recordsOf .ab twoDocuments (indexKeys .ab twoDocuments)

theorem represents_twoDocuments : Represents .ab twoDocuments twoRecords := by
  have hall : ∀ entry ∈ twoDocuments.toList, entry.1.text.bytes.length < u32Limit ∧
      ∀ term ∈ tokens .ab entry.2, term.bytes.length < u32Limit := by decide +kernel
  exact represents_recordsOf (fun id text hget => hall (id, text)
    ((OrdMap.mem_toList_iff _ _ _).mpr hget)) (by decide +kernel) (by decide +kernel)

theorem search_exact_twoDocuments :
    Act.exec (search .ab (.or [⟨['b']⟩]) 10).run twoRecords
      = (.ok [⟨.letter 'x', [97, 32, 98]⟩, ⟨.letter 'y', [98]⟩], twoRecords) := by
  obtain ⟨_, rfl, hexec⟩ := search_exact answering_recordsEngine .ab (fun _ => rfl)
    represents_twoDocuments (.or [⟨['b']⟩]) 10 [⟨['b']⟩]
    (by decide +kernel) (by unfold Short; decide +kernel)
  exact hexec.trans (congrArg (fun hits => (Except.ok hits, _)) (by decide +kernel))

theorem index_reads_exact_twoDocuments : (loadDf ⟨['b']⟩).eval twoRecords = .ok 2 := by
  have hreads := index_reads_exact (fun _ => rfl) represents_twoDocuments ⟨['b']⟩ (.letter 'x')
    (by unfold Short; decide +kernel) (by unfold Short; decide +kernel)
  exact hreads.2.1.trans (congrArg Except.ok (by decide +kernel))

end CereDB.Fts
