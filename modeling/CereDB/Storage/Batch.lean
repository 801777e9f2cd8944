import CereDB.Storage.Base

/-!
# `CereDB.Storage.Batch`: validation of batches and the commands they become

`validate_batch` and the command building of `run_write_admission`
(`src/storage/writemanager/write.rs`).
-/

set_option autoImplicit false

namespace CereDB.Storage

open CereDB.Lib

/-- `MAX_WAL_FRAME_BYTES` of `write.rs`. -/
def maxWalFrameBytes : Nat := 64 * 1024 * 1024

/-- `MAX_WAL_TRANSACTION_BYTES` of `write.rs`. -/
def maxWalTransactionBytes : Nat := 256 * 1024 * 1024

/-- `checked_add` with the error `validate_batch` returns on overflow. -/
def addOr (message : String) (a b : Nat) : Exec Nat :=
  match checkedAdd a b with
  | some n => .ok n
  | none => storageError message

/-- The value `validate_batch` counts for an operation. -/
def BatchOperation.value : BatchOperation → Bytes
  | .put _ value => value
  | .delete _ => []

/-- The record type of the command an operation becomes. -/
def BatchOperation.recordType : BatchOperation → RecordType
  | .put _ _ => .put
  | .delete _ => .delete

/-- One step of the loop in `validate_batch`. -/
def validateOperation (transactionBytes : Nat) (operation : BatchOperation) : Exec Nat := do
  let size ← addOr "WAL frame size overflow" 42 operation.key.length
  let framePayload ← addOr "WAL frame size overflow" size operation.value.length
  if maxWalFrameBytes < framePayload then
    throw (.error (.storageError "WAL frame exceeds 64 MiB"))
  let frameBytes ← addOr "WAL frame size overflow" 20 framePayload
  let transactionBytes ← addOr "WAL transaction size overflow" transactionBytes frameBytes
  if maxWalTransactionBytes < transactionBytes then
    throw (.error (.storageError "WAL transaction exceeds group limit"))
  return transactionBytes

/-- `validate_batch`: the size of the transaction, or why it is refused. -/
def validateBatch (operations : List BatchOperation) : Exec Nat :=
  operations.foldlM validateOperation 37

/-- The command an operation becomes under its sequence number. -/
def BatchOperation.toCommand (operation : BatchOperation) (lsn : Nat) : LogCommand :=
  { recordType := operation.recordType, key := operation.key, value := operation.value, lsn }

/-- The inner loop of `run_write_admission`: the commands of one request and the last sequence
number used. -/
def buildCommands : Nat → List BatchOperation → Exec (List LogCommand × Nat)
  | nextLsn, [] => .ok ([], nextLsn)
  | nextLsn, operation :: operations => do
      let lsn ← addOr "batch sequence exhausted" nextLsn 1
      let (commands, last) ← buildCommands lsn operations
      return (operation.toCommand lsn :: commands, last)

/-- The outer loop of `run_write_admission`: the commands of every request of a group. -/
def buildGroups : Nat → List (List BatchOperation) → Exec (List (List LogCommand) × Nat)
  | nextLsn, [] => .ok ([], nextLsn)
  | nextLsn, request :: requests => do
      let (commands, last) ← buildCommands nextLsn request
      let (groups, last) ← buildGroups last requests
      return (commands :: groups, last)

end CereDB.Storage
