import CereDB.Fts.Codec

/-!
# `CereDB.Fts.Index`: documents in the index

`FtsIndex` of `src/fts/mod.rs`: opening, the operations that change documents, and the raw
operations of the engine behind the reserved namespace.

A function that changes documents reads first and ends with at most one `write_batch`. So it is
written as a query for the operations of that batch, none when there is nothing to write, and
`commit` does the rest.

The text of a UTF-8 error does not say where the bytes are wrong.
-/

set_option autoImplicit false

namespace CereDB.Fts

open CereDB.Lib CereDB.Storage

/-- `MAX_DOCUMENT_BATCH_DOCUMENTS`. -/
def maxDocumentBatchDocuments : Nat := 256

/-- `MAX_DOCUMENT_BATCH_INPUT_BYTES`. -/
def maxDocumentBatchInputBytes : Nat := 4 * 1024 * 1024

/-- `MAX_DOCUMENT_BATCH_MUTATION_BYTES`. -/
def maxDocumentBatchMutationBytes : Nat := 8 * 1024 * 1024

/-- `MAX_DOCUMENT_BATCH_MUTATIONS`. -/
def maxDocumentBatchMutations : Nat := 16384

/-- `WAL_UPDATE_FRAME_OVERHEAD_BYTES`. -/
def walUpdateFrameOverheadBytes : Nat := 62

/-- `WAL_COMMIT_FRAME_BYTES`. -/
def walCommitFrameBytes : Nat := 37

/-! ### Loading -/

/-- `load_stats`. -/
def loadStats : Query (Nat × Nat) := do
  match ← Query.getRecord statsKey with
  | none => .throw (corrupt "missing FTS corpus statistics")
  | some value => .ofExec (decodeStats value)

/-- `load_df`. -/
def loadDf (term : Text) : Query Nat := do
  let key ← .ofExec (dfKey term)
  match ← Query.getRecord key with
  | none => return 0
  | some value => do
      let df ← .ofExec (decodeU64 value)
      if df = 0 then .throw (corrupt "zero document frequency") else return df

/-- What `load_document_state` returns of a document. -/
structure DocumentState where
  document : Bytes
  terms : Frequencies
  length : Nat

section
variable (unicode : Unicode)

/-- The posting of a forward term has its frequency. -/
def checkPosting (id : DocumentId) (entry : Text × Nat) : Query Unit := do
  let key ← .ofExec (postingKey entry.1 id)
  match ← Query.getRecord key with
  | none => .throw (corrupt "forward term and posting disagree")
  | some value => do
      let tf ← .ofExec (decodeU64 value)
      if tf = entry.2 then return else .throw (corrupt "forward term and posting disagree")

/-- `load_document_state`. -/
def loadDocumentState (id : DocumentId) : Query (Option DocumentState) := do
  let documentKey ← .ofExec (documentKey id)
  let document ← Query.getRecord documentKey
  let forwardKey ← .ofExec (forwardKey id)
  let forward ← Query.getRecord forwardKey
  match document, forward with
  | none, none => return none
  | some document, some forward =>
    match Text.ofBytes? document with
    | none => .throw (corrupt "stored document is not UTF-8")
    | some text => do
        let (terms, length) ← .ofExec (decodeTerms unicode forward)
        if terms.toList ≠ (tokenize unicode text).toList then
          .throw (corrupt "document and forward terms disagree")
        else do
          let _ ← terms.toList.mapM (checkPosting id)
          return some { document, terms, length }
  | _, _ => .throw (corrupt "document and forward index disagree")

/-- `validate_posting`. -/
def validatePosting (id : DocumentId) (term : Text) : Query Unit := do
  match ← loadDocumentState unicode id with
  | none => .throw (corrupt "posting references a missing document")
  | some state =>
    if (state.terms[term]?).isNone then .throw (corrupt "posting is absent from forward index")
    else return

/-! ### The operations of a batch -/

/-- Writes a value, or removes the record when there is none. -/
def assign (key : Key) : Option Bytes → BatchOperation
  | some value => .put key value
  | none => .delete key

/-- A counter as a record: no record for zero. -/
def counter (n : Nat) : Option Bytes := if n = 0 then none else some (beBytes 8 n)

/-- The operation on a document frequency. -/
def dfOperation (term : Text) (updated : Nat) : Exec BatchOperation := do
  return assign (← dfKey term) (counter updated)

/-- The operation on a posting. -/
def postingOperation (term : Text) (id : DocumentId) (next : Nat) : Exec BatchOperation := do
  return assign (← postingKey term id) (counter next)

/-- The operations on the document and the forward record. -/
def documentOperations (id : DocumentId) (document : Bytes) (frequencies : Frequencies) :
    Exec (List BatchOperation) := do
  let documentKey ← documentKey id
  let forwardKey ← forwardKey id
  let forward ← encodeTerms frequencies
  return [.put documentKey document, .put forwardKey forward]

/-- The operation on the corpus record. -/
def statsOperation (count total : Nat) : BatchOperation := .put statsKey (encodeStats count total)

/-- `checked_sub`. -/
def checkedSub (a b : Nat) : Option Nat := if b ≤ a then some (a - b) else none

/-- `ok_or_else`. -/
def orHalt {α : Type} (halt : Halt) : Option α → Exec α
  | some a => .ok a
  | none => .error halt

/-- The terms of a document that was there. -/
def oldTerms (old : Option DocumentState) : Frequencies := (old.map DocumentState.terms).getD ∅

/-- The length of a document that was there. -/
def oldLength (old : Option DocumentState) : Nat := (old.map DocumentState.length).getD 0

/-- The number of documents after a document is written. -/
def updateCount (old : Option DocumentState) (count : Nat) : Exec Nat :=
  if old.isNone then orHalt (corrupt "document count overflow") (checkedAdd count 1) else .ok count

/-- How a document changes the corpus record. -/
def updateStats (old : Option DocumentState) (frequencies : Frequencies) (count total : Nat) :
    Exec (Nat × Nat) := do
  let newLength ← sumOr (corrupt "document length overflow") (frequencies.toList.map Prod.snd)
  let count ← updateCount old count
  let total ← orHalt (corrupt "corpus length overflow")
    ((checkedSub total (oldLength old)).bind fun total => checkedAdd total newLength)
  return (count, total)

/-- The terms of either version of a document, in order. -/
def changedTerms (old new : Frequencies) : List Text :=
  (OrdSet.ofList (old.keyList ++ new.keyList)).keyList

/-- The frequency of a term, zero when it does not occur. -/
def frequency (terms : Frequencies) (term : Text) : Nat := (terms[term]?).getD 0

/-- The text of a document. -/
def documentText (document : Bytes) : Exec Text :=
  orHalt (.error (.storageError "document is not valid UTF-8")) (Text.ofBytes? document)

/-! ### Changing documents -/

/-- The operations of `open`: none when the index is there. -/
def openOperations : Query (Option (List BatchOperation)) := do
  Query.await
  match ← Query.getRecord metaKey with
  | some value =>
    if value = [formatVersion, tokenizerVersion] then return none
    else if value = [1, tokenizerVersion] then
      .throw (corrupt "FTS format 1 requires rebuilding the index")
    else .throw (corrupt "unknown or malformed FTS metadata")
  | none => do
      let rows ← Query.scanRange namespaceRange
      if rows ≠ [] then .throw (corrupt "FTS records exist without metadata")
      else return some [.put metaKey [formatVersion, tokenizerVersion], statsOperation 0 0]

/-- The operations of `put_document` on one term. -/
def termOperations (id : DocumentId) (old new : Frequencies) (term : Text) :
    Query (List BatchOperation) := do
  let previous := frequency old term
  let next := frequency new term
  if previous = next then return []
  else do
    let df ← loadDf term
    let updated ← .ofExec (
      if previous = 0 then orHalt (corrupt "document frequency overflow") (checkedAdd df 1)
      else if next = 0 then orHalt (corrupt "document frequency underflow") (checkedSub df 1)
      else .ok df)
    let dfOperation ← .ofExec (dfOperation term updated)
    let postingOperation ← .ofExec (postingOperation term id next)
    return [dfOperation, postingOperation]

/-- The operations of `put_document`. -/
def putDocumentOperations (id : DocumentId) (document : Bytes) :
    Query (Option (List BatchOperation)) := do
  Query.await
  let text ← .ofExec (documentText document)
  let frequencies := tokenize unicode text
  let old ← loadDocumentState unicode id
  let (count, total) ← loadStats
  let (count, total) ← .ofExec (updateStats old frequencies count total)
  let terms ← (changedTerms (oldTerms old) frequencies).mapM
    (termOperations id (oldTerms old) frequencies)
  let documents ← .ofExec (documentOperations id document frequencies)
  return some (terms.flatten ++ documents ++ [statsOperation count total])

/-- The operations of `delete_document` on one term. -/
def removedTermOperations (id : DocumentId) (term : Text) : Query (List BatchOperation) := do
  let df ← loadDf term
  let df ← .ofExec (orHalt (corrupt "document frequency underflow") (checkedSub df 1))
  let dfOperation ← .ofExec (dfOperation term df)
  let postingKey ← .ofExec (postingKey term id)
  return [dfOperation, .delete postingKey]

/-- The operations of `delete_document`: none when the document is not there. -/
def deleteDocumentOperations (id : DocumentId) : Query (Option (List BatchOperation)) := do
  Query.await
  match ← loadDocumentState unicode id with
  | none => return none
  | some state => do
      let (count, total) ← loadStats
      let count ← .ofExec (orHalt (corrupt "document count underflow") (checkedSub count 1))
      let total ← .ofExec (orHalt (corrupt "corpus length underflow")
        (checkedSub total state.length))
      let terms ← state.terms.keyList.mapM (removedTermOperations id)
      let documentKey ← .ofExec (documentKey id)
      let forwardKey ← .ofExec (forwardKey id)
      return some (terms.flatten ++ [.delete documentKey, .delete forwardKey,
        statsOperation count total])

/-! ### Batches of documents -/

/-- The documents of a batch by id: the last one of each wins. -/
abbrev FinalDocuments := OrdMap DocumentId (Bytes × Frequencies)

/-- What the loop of `put_documents` has collected. -/
structure DocumentBatch where
  count : Nat
  total : Nat
  dfDeltas : OrdMap Text Int
  operations : List BatchOperation

/-- The number of bytes of a batch. -/
def inputBytes (documents : List (DocumentId × Bytes)) : Exec Nat :=
  sumOr (.error (.storageError "FTS document batch size overflow"))
    (documents.map fun entry => entry.2.length)

/-- The documents of a batch, tokenized. -/
def finalDocuments (documents : List (DocumentId × Bytes)) : Exec FinalDocuments :=
  documents.foldlM (fun final entry => do
    let text ← documentText entry.2
    return final.insert entry.1 (entry.2, tokenize unicode text)) ∅

/-- The change of a document frequency. -/
def dfDelta (previous next : Nat) : Int :=
  if previous = 0 ∧ next ≠ 0 then 1 else if previous ≠ 0 ∧ next = 0 then -1 else 0

/-- One term of a document in the loop of `put_documents`. -/
def batchTerm (id : DocumentId) (old new : Frequencies) (batch : DocumentBatch) (term : Text) :
    Exec DocumentBatch := do
  let previous := frequency old term
  let next := frequency new term
  if previous = next then return batch
  else do
    -- A term that only changes its frequency has no entry among the deltas.
    let dfDeltas := if dfDelta previous next = 0 then batch.dfDeltas
      else batch.dfDeltas.insert term ((batch.dfDeltas[term]?).getD 0 + dfDelta previous next)
    let operation ← postingOperation term id next
    return { batch with dfDeltas, operations := batch.operations ++ [operation] }

/-- One document in the loop of `put_documents`. -/
def batchDocument (oldStates : OrdMap DocumentId (Option DocumentState)) (batch : DocumentBatch)
    (entry : DocumentId × (Bytes × Frequencies)) : Exec DocumentBatch := do
  let (id, document, frequencies) := entry
  match oldStates[id]? with
  | none => .error (.panic "state loaded for every batch ID")
  | some old => do
      let (count, total) ← updateStats old frequencies batch.count batch.total
      let batch ← (changedTerms (oldTerms old) frequencies).foldlM
        (batchTerm id (oldTerms old) frequencies) { batch with count, total }
      let documents ← documentOperations id document frequencies
      return { batch with operations := batch.operations ++ documents }

/-- The document frequency of a term after a batch. -/
def dfDeltaOperation (entry : Text × Int) : Query BatchOperation := do
  let current ← loadDf entry.1
  let updated ← .ofExec (
    if 0 ≤ entry.2 then
      orHalt (corrupt "document frequency overflow") (checkedAdd current entry.2.toNat)
    else orHalt (corrupt "document frequency underflow") (checkedSub current entry.2.natAbs))
  .ofExec (dfOperation entry.1 updated)

/-- The bytes of a batch in the WAL. -/
def mutationBytes (operations : List BatchOperation) : Exec Nat := do
  let bytes ← operations.foldlM (fun sum operation =>
    let (key, length) := match operation with
      | .put key value => (key, value.length)
      | .delete key => (key, 0)
    orHalt (.error (.storageError "FTS mutation size overflow"))
      (((checkedAdd sum key.length).bind (checkedAdd · length)).bind
        (checkedAdd · walUpdateFrameOverheadBytes))) 0
  orHalt (.error (.storageError "FTS mutation size overflow")) (checkedAdd bytes walCommitFrameBytes)

/-- The old states of the documents of a batch. -/
def loadOldStates (final : FinalDocuments) :
    Query (OrdMap DocumentId (Option DocumentState)) :=
  final.keyList.foldlM (fun states id => do
    return states.insert id (← loadDocumentState unicode id)) ∅

/-- The operations of `put_documents`: none for an empty list. -/
def putDocumentsOperations (documents : List (DocumentId × Bytes)) :
    Query (Option (List BatchOperation)) := do
  if documents = [] then return none
  else if maxDocumentBatchDocuments < documents.length then
    .throw (.error (.storageError "FTS document batch exceeds document limit"))
  else do
    let inputBytes ← .ofExec (inputBytes documents)
    if maxDocumentBatchInputBytes < inputBytes then
      .throw (.error (.storageError "FTS document batch exceeds input byte limit"))
    else do
      let final ← .ofExec (finalDocuments unicode documents)
      Query.await
      let oldStates ← loadOldStates unicode final
      let (count, total) ← loadStats
      let batch ← .ofExec (final.toList.foldlM (batchDocument oldStates) ⟨count, total, ∅, []⟩)
      let frequencies ← batch.dfDeltas.toList.mapM dfDeltaOperation
      let operations := batch.operations ++ frequencies ++ [statsOperation batch.count batch.total]
      let bytes ← .ofExec (mutationBytes operations)
      if maxDocumentBatchMutations < operations.length ∨ maxDocumentBatchMutationBytes < bytes then
        .throw (.error (.storageError "FTS document batch exceeds mutation limit"))
      else return some operations

/-! ### The functions of the index -/

variable {E : Type} [AsyncKVEngine E]

/-- Writes the operations a query asks for, and returns whether there were any. -/
def commit (query : Query (Option (List BatchOperation))) : Op E Bool := do
  match ← query.run with
  | none => return false
  | some operations => do
      AsyncKVEngine.writeBatch operations
      return true

namespace FtsIndex

/-- `open`. -/
def openIndex : Op E Unit := do
  let _ ← commit openOperations

/-- `put_document`. -/
def putDocument (id : DocumentId) (document : Bytes) : Op E Unit := do
  let _ ← commit (putDocumentOperations unicode id document)

/-- `put_documents`. -/
def putDocuments (documents : List (DocumentId × Bytes)) : Op E Unit := do
  let _ ← commit (putDocumentsOperations unicode documents)

/-- `delete_document`. -/
def deleteDocument (id : DocumentId) : Op E Bool := commit (deleteDocumentOperations unicode id)

/-- `get_document`. -/
def getDocument (id : DocumentId) : Query (Option Bytes) := do
  Query.await
  return (← loadDocumentState unicode id).map DocumentState.document

/-! ### Raw operations -/

/-- `get`. -/
def get (key : Key) : Op E (Option Bytes) := do
  AsyncKVEngine.awaitPendingWrites
  if reserved key then throw reservedError else AsyncKVEngine.get key

/-- `put`. -/
def put (key : Key) (value : Bytes) : Op E Unit :=
  if reserved key then throw reservedError else AsyncKVEngine.put key value

/-- `delete`. -/
def delete (key : Key) : Op E Unit :=
  if reserved key then throw reservedError else AsyncKVEngine.delete key

/-- `write_batch`. -/
def writeBatch (operations : List BatchOperation) : Op E Unit :=
  if operations.any fun operation => reserved operation.key then throw reservedError
  else AsyncKVEngine.writeBatch operations

/-- `scan`. -/
def scan (range : KeyRange) : Op E (List (Key × Bytes)) := do
  AsyncKVEngine.awaitPendingWrites
  let rows ← AsyncKVEngine.scan range
  return rows.filter fun row => !reserved row.1

end FtsIndex

end

end CereDB.Fts
