import CereDB.Storage.Base

/-!
# `CereDB.Storage.Record`: the record a memtable and a table store

`MemtableRecord` of `src/storage/record.rs` with its byte format. A record in the memtable
leaves its `key` field empty, because the memtable's own key carries it. A record in a table
block carries its key.
-/

set_option autoImplicit false

namespace CereDB.Storage

open CereDB.Lib

/-- `MemtableRecord` of `record.rs`. -/
structure MemtableRecord where
  recordType : RecordType
  lsn : Nat
  key : Key
  value : Bytes
deriving DecidableEq, Repr

namespace MemtableRecord

/-- `MemtableRecord::new`: the key field is empty. -/
def new (value : Bytes) (recordType : RecordType) (lsn : Nat) : MemtableRecord :=
  { recordType, lsn, key := [], value }

/-- `MemtableRecord::with_key`. -/
def withKey (record : MemtableRecord) (key : Key) : MemtableRecord := { record with key }

/-- `MemtableRecord::encode`: the fields in little-endian order, under the given key. -/
def encode (record : MemtableRecord) (key : Key) : Bytes :=
  leBytes 4 key.length ++ key ++ leBytes 4 record.value.length ++ record.value ++
    [record.recordType.toByte] ++ leBytes 8 record.lsn

/-- `MemtableRecord::record_length`. -/
def recordLength (record : MemtableRecord) (key : Key) : Nat :=
  4 + key.length + 4 + record.value.length + 1 + 8

/-- The `match` on the record type byte. -/
def decodeRecordType (kind : Bytes) : Decode RecordType :=
  match kind with
  | [1] => pure .put
  | [2] => pure .delete
  | _ => throw (.error (.corrupted "Invalid record type"))

/-- `MemtableRecord::decode`. -/
def decode : Decode MemtableRecord := do
  let keyLen ← readLe eof 4
  let key ← readExact eof keyLen
  let valueLen ← readLe eof 4
  let value ← readExact eof valueLen
  let kind ← readExact eof 1
  let recordType ← decodeRecordType kind
  let lsn ← readLe eof 8
  return { recordType, lsn, key, value }

/-- `record_length` is the length of the encoding. -/
@[simp] theorem length_encode (record : MemtableRecord) (key : Key) :
    (record.encode key).length = record.recordLength key := by
  simp only [encode, recordLength, List.length_append, length_leBytes, List.length_singleton]

/-- The fields fit the widths they are stored in. -/
structure Encodable (record : MemtableRecord) : Prop where
  key : record.key.length < 256 ^ 4
  value : record.value.length < 256 ^ 4
  lsn : record.lsn < 256 ^ 8

/-- A record that fits is decoded back from its encoding. -/
theorem decode_parses {record : MemtableRecord} (h : record.Encodable) :
    Reader.Parses decode (record.encode record.key) record := by
  have hkind : Reader.Parses (decodeRecordType [record.recordType.toByte]) []
      record.recordType := by
    cases record.recordType <;> exact Reader.Parses.pure _
  have henc : record.encode record.key = leBytes 4 record.key.length ++ (record.key ++
      (leBytes 4 record.value.length ++ (record.value ++ ([record.recordType.toByte] ++
        ([] ++ (leBytes 8 record.lsn ++ [])))))) := by
    simp only [encode, List.append_assoc, List.append_nil, List.nil_append]
  rw [henc]
  refine (Reader.Parses.readLe eof h.key).bind ?_
  refine (Reader.Parses.readExact eof rfl).bind ?_
  refine (Reader.Parses.readLe eof h.value).bind ?_
  refine (Reader.Parses.readExact eof rfl).bind ?_
  refine (Reader.Parses.readExact eof (List.length_singleton)).bind ?_
  refine hkind.bind ?_
  exact (Reader.Parses.readLe eof h.lsn).bind (Reader.Parses.pure record)

end MemtableRecord

end CereDB.Storage
