import CereDB.Fts.Index

/-!
# `CereDB.Fts.Search`: searching the index

`search` and `search_ranked` of `src/fts/mod.rs`. Both scan the postings of the query terms and check
every posting against the forward record of its document. A loop that collects a set or a map is the
list of its rounds, collected afterwards.

Scores are numbers of a type with the operations of `f64` that the code uses (`FloatOps`). Nothing is
assumed about them.
-/

set_option autoImplicit false

namespace CereDB.Fts

open CereDB.Lib CereDB.Storage

/-- `MAX_QUERY_TERMS`. -/
def maxQueryTerms : Nat := 32

/-- `MAX_LIMIT`. -/
def maxLimit : Nat := 1000

/-- `FtsQuery`. -/
inductive FtsQuery where
  | and (terms : List Text)
  | or (terms : List Text)
deriving DecidableEq, Repr

namespace FtsQuery

/-- Every term has to occur. -/
def isAnd : FtsQuery → Bool
  | .and _ => true
  | .or _ => false

/-- The terms as they were given. -/
def input : FtsQuery → List Text
  | .and terms | .or terms => terms

end FtsQuery

/-- `SearchHit`. -/
structure SearchHit where
  id : DocumentId
  document : Bytes
deriving DecidableEq

section
variable (unicode : Unicode)

/-- The checks of both searches, and the normalized terms. -/
def queryTerms (query : FtsQuery) (limit : Nat) : Exec (List Text) :=
  if maxLimit < limit then .error (.error (.storageError "FTS result limit exceeds 1000"))
  else
    let terms := normalizeTerms unicode query.input
    if terms = [] then
      .error (.error (.storageError "FTS query contains no searchable terms"))
    else if maxQueryTerms < terms.length then
      .error (.error (.storageError "FTS query exceeds 32 distinct terms"))
    else .ok terms

/-- One row of a posting scan: the document and the frequency. -/
def postingRow (term : Text) (start : Bytes) (row : Key × Bytes) : Query (DocumentId × Nat) := do
  let (id, tf) ← .ofExec (parsePosting start row.1 row.2)
  if tf = 0 then .throw (corrupt "zero posting frequency")
  else do
    validatePosting unicode id term
    return (id, tf)

/-- The postings of a term. -/
def postings (term : Text) : Query (List (DocumentId × Nat)) := do
  let start ← .ofExec (postingPrefix term)
  let rows ← Query.scanRange (prefixRange start)
  rows.mapM (postingRow unicode term start)

/-- The intersection of sets, the smallest first. -/
def intersectAll (sets : List (OrdSet DocumentId)) : OrdSet DocumentId :=
  ((sets.mergeSort fun a b => decide (a.size ≤ b.size)).foldl (fun found ids => match found with
    | none => some ids
    | some current => some (OrdSet.inter current ids)) none).getD ∅

/-- The documents of a query, from those of its terms. -/
def matchingIds (isAnd : Bool) (sets : List (OrdSet DocumentId)) : OrdSet DocumentId :=
  if isAnd then intersectAll sets else OrdSet.ofList (sets.flatMap OrdMap.keyList)

/-- One hit of `search`. -/
def searchHit (id : DocumentId) : Query SearchHit := do
  let key ← .ofExec (documentKey id)
  match ← Query.getRecord key with
  | none => .throw (corrupt "posting references a missing document")
  | some document => return { id, document }

/-- `search`. -/
def search (query : FtsQuery) (limit : Nat) : Query (List SearchHit) := do
  Query.await
  let terms ← .ofExec (queryTerms unicode query limit)
  if limit = 0 then return []
  else do
    let sets ← terms.mapM fun term => do
      return OrdSet.ofList ((← postings unicode term).map Prod.fst)
    ((matchingIds query.isAnd sets).keyList.take limit).mapM searchHit

/-! ### Ranking -/

/-- The operations of `f64` that the ranking uses. -/
structure FloatOps where
  F : Type
  ofNat : Nat → F
  half : F
  add : F → F → F
  sub : F → F → F
  mul : F → F → F
  div : F → F → F
  ln : F → F
  isFinite : F → Bool
  le : F → F → Bool
  totalCmp : F → F → Ordering

/-- `Bm25Config`. -/
structure Bm25Config (ops : FloatOps) where
  k1 : ops.F
  b : ops.F

/-- `RankedSearchHit`. -/
structure RankedSearchHit (ops : FloatOps) where
  id : DocumentId
  document : Bytes
  score : ops.F

/-- A query term with its weight and its postings. -/
structure RankedTerm (ops : FloatOps) where
  term : Text
  idf : ops.F
  frequencies : OrdMap DocumentId Nat

variable (ops : FloatOps)

/-- `<`. -/
def FloatOps.lt (a b : ops.F) : Bool := ops.le a b && !ops.le b a

/-- `average`. -/
def averageLength (count total : Nat) : Exec ops.F :=
  let average := ops.div (ops.ofNat total) (ops.ofNat count)
  if !ops.isFinite average || ops.le average (ops.ofNat 0) then
    .error (corrupt "invalid average document length")
  else .ok average

/-- `idf`. -/
def inverseFrequency (count df : Nat) : Exec ops.F :=
  let idf := ops.sub (ops.ln (ops.add (ops.ofNat count) (ops.ofNat 1)))
    (ops.ln (ops.add (ops.ofNat df) ops.half))
  if !ops.isFinite idf || ops.lt idf (ops.ofNat 0) then
    .error (corrupt "invalid BM25 inverse document frequency")
  else .ok idf

/-- `length_factor`. -/
def lengthFactor (config : Bm25Config ops) (average : ops.F) (length : Nat) : ops.F :=
  ops.add (ops.sub (ops.ofNat 1) config.b)
    (ops.mul config.b (ops.div (ops.ofNat length) average))

/-- `contribution`. -/
def contribution (config : Bm25Config ops) (idf lengthFactor : ops.F) (tf : Nat) : ops.F :=
  let tf := ops.ofNat tf
  if ops.le config.k1 (ops.ofNat 1) then
    ops.div (ops.mul idf (ops.mul tf (ops.add (ops.ofNat 1) config.k1)))
      (ops.add tf (ops.mul config.k1 lengthFactor))
  else
    let k1Inverse := ops.div (ops.ofNat 1) config.k1
    ops.div (ops.mul idf (ops.mul tf (ops.add (ops.ofNat 1) k1Inverse)))
      (ops.add (ops.mul tf k1Inverse) lengthFactor)

/-- One term in the score of a document. -/
def scoreTerm (config : Bm25Config ops) (average : ops.F) (id : DocumentId)
    (state : DocumentState) (score : ops.F) (term : RankedTerm ops) : Exec ops.F :=
  match term.frequencies[id]? with
  | none => .ok score
  | some tf =>
    let factor := lengthFactor ops config average state.length
    let contribution := contribution ops config term.idf factor tf
    if !ops.isFinite contribution || ops.le factor (ops.ofNat 0) ||
        (state.terms[term.term]?).isNone then .error (corrupt "invalid BM25 score state")
    else .ok (ops.add score contribution)

/-- One candidate of `search_ranked`. -/
def rankedHit (config : Bm25Config ops) (average : ops.F) (terms : List (RankedTerm ops))
    (id : DocumentId) : Query (RankedSearchHit ops) := do
  match ← loadDocumentState unicode id with
  | none => .throw (corrupt "posting references a missing document")
  | some state => do
      let score ← .ofExec (terms.foldlM (scoreTerm ops config average id state) (ops.ofNat 0))
      if !ops.isFinite score then .throw (corrupt "BM25 score overflow")
      else return { id, document := state.document, score }

/-- A query term of `search_ranked`. -/
def rankedTerm (count : Nat) (term : Text) : Query (RankedTerm ops) := do
  let df ← loadDf term
  if count < df then .throw (corrupt "document frequency exceeds document count")
  else do
    let found ← postings unicode term
    let frequencies := found.foldl (fun (frequencies : OrdMap DocumentId Nat) entry =>
      frequencies.insert entry.1 entry.2) ∅
    if frequencies.size ≠ df then .throw (corrupt "document frequency disagrees with postings")
    else do
      let idf ← .ofExec (inverseFrequency ops count df)
      return { term, idf, frequencies }

/-- The check of `search_ranked` on a term when no document has a term. -/
def checkUnused (term : Text) : Query Unit := do
  let df ← loadDf term
  if df ≠ 0 then .throw (corrupt "zero corpus length has indexed terms")
  else do
    let start ← .ofExec (postingPrefix term)
    let rows ← Query.scanRange (prefixRange start)
    if rows ≠ [] then .throw (corrupt "zero corpus length has indexed terms") else return

/-- The candidates of `search_ranked`. -/
def candidates (isAnd : Bool) (terms : List (RankedTerm ops)) : OrdSet DocumentId :=
  let all := OrdSet.ofList (terms.flatMap fun term => term.frequencies.keyList)
  if isAnd then
    OrdSet.ofList (all.keyList.filter fun id =>
      terms.all fun term => (term.frequencies[id]?).isSome)
  else all

/-- The order of ranked hits: higher scores first, then by id. -/
def rankedBefore (left right : RankedSearchHit ops) : Bool :=
  ((ops.totalCmp right.score left.score).then (compare left.id right.id)).isLE

/-- `search_ranked`. -/
def searchRanked (query : FtsQuery) (limit : Nat) (config : Bm25Config ops) :
    Query (List (RankedSearchHit ops)) := do
  Query.await
  let terms ← .ofExec (queryTerms unicode query limit)
  let (count, total) ← loadStats
  if count = 0 ∨ total = 0 then
    if count = 0 ∧ total ≠ 0 then .throw (corrupt "invalid FTS corpus statistics")
    else do
      let _ ← terms.mapM checkUnused
      return []
  else do
    let average ← .ofExec (averageLength ops count total)
    let perTerm ← terms.mapM (rankedTerm unicode ops count)
    let ranked ← (candidates ops query.isAnd perTerm).keyList.mapM
      (rankedHit unicode ops config average perTerm)
    return (ranked.mergeSort (rankedBefore ops)).take limit

end

end CereDB.Fts
