import CereDB.Storage.Record

/-!
# `CereDB.Storage.Block`: data blocks and their builder

`Block` and `BlockBuilder` of `src/storage/writemanager/block.rs`. The builder takes records
one by one and cuts a block when the next record would exceed `SSTABLE_BLOCK_SIZE`. On a cut
it hands back the finished block and does not take the record: the caller adds it again.

The builder keeps its first and last key as options, and compares a new key with the empty
key where no last key is set yet. `build` unwraps both options, so it can panic.
-/

set_option autoImplicit false

namespace CereDB.Storage

open CereDB.Lib

/-- `SSTABLE_BLOCK_SIZE` of `constant.rs`. -/
def sstableBlockSize : Nat := 4096

/-- `Block` of `writemanager/block.rs`. -/
structure Block where
  offset : Nat
  firstKey : Key
  lastKey : Key
  recordCount : Nat
  dataSize : Nat
  data : Option (List MemtableRecord)
deriving DecidableEq, Repr

/-- The records a block holds, none when its data is not loaded. -/
def Block.records (block : Block) : List MemtableRecord := block.data.getD []

/-- The part of `Block::encode` that the checksum covers. -/
def Block.body (block : Block) : Bytes :=
  beBytes 4 block.firstKey.length ++ block.firstKey ++ beBytes 4 block.lastKey.length ++
    block.lastKey ++ beBytes 4 block.recordCount ++ beBytes 4 block.dataSize ++
    block.records.flatMap fun record => record.encode record.key

/-- `Block::encode`: header, records, and the CRC-32 of both. -/
def Block.encode (block : Block) : Bytes := block.body ++ beBytes 4 (crc32 block.body)

/-- `Block::async_decode`: header, records and checksum. The offset is not known here. -/
def Block.asyncDecode : ReadFile Block := do
  let firstKeyLen ← FileProg.readBe 4
  let firstKey ← FileProg.readExact firstKeyLen
  let lastKeyLen ← FileProg.readBe 4
  let lastKey ← FileProg.readExact lastKeyLen
  let recordCount ← FileProg.readBe 4
  let dataSize ← FileProg.readBe 4
  let recordBytes ← FileProg.readExact dataSize
  let storedChecksum ← FileProg.readBe 4
  let blockData := beBytes 4 firstKeyLen ++ firstKey ++ beBytes 4 lastKeyLen ++ lastKey ++
    beBytes 4 recordCount ++ beBytes 4 dataSize ++ recordBytes
  FileProg.ofExcept (verifyCrc32 blockData storedChecksum)
  let (records, _) ← FileProg.ofExcept (MemtableRecord.decode.replicate recordCount recordBytes)
  return { offset := 0, firstKey, lastKey, recordCount, dataSize, data := some records }

/-- `BlockBuilder` of `writemanager/block.rs`. -/
structure BlockBuilder where
  data : List MemtableRecord
  dataSize : Nat
  firstKey : Option Key
  lastKey : Option Key
  recordCount : Nat
  blockOffset : Nat
deriving DecidableEq, Repr

/-- `BlockBuilderState`: what `add_record` reports. -/
inductive BlockBuilderState where
  | enoughSpace
  | full (block : Block) (blockData : Bytes)
deriving DecidableEq, Repr

namespace BlockBuilder

/-- `BlockBuilder::new`. -/
def new (blockOffset : Nat) : BlockBuilder :=
  { data := [], dataSize := 0, firstKey := none, lastKey := none, recordCount := 0, blockOffset }

/-- The block a cut hands back: `unwrap_or_default` on both keys. -/
def cutBlock (b : BlockBuilder) : Block :=
  { offset := b.blockOffset
    firstKey := b.firstKey.getD []
    lastKey := b.lastKey.getD []
    recordCount := b.recordCount
    dataSize := b.dataSize % u32Limit
    data := some b.data }

/-- The branch of `add_record` that takes the record. -/
def push (b : BlockBuilder) (key : Key) (record : MemtableRecord) : BlockBuilder :=
  let firstKey := if b.firstKey.isNone then some key else b.firstKey
  { data := b.data ++ [{ record with key }]
    dataSize := b.dataSize + record.recordLength key
    firstKey := if key < firstKey.getD [] then some key else firstKey
    lastKey := if b.lastKey.getD [] < key then some key else b.lastKey
    recordCount := b.recordCount + 1
    blockOffset := b.blockOffset }

/-- `BlockBuilder::add_record`. A record that does not fit cuts the block: the builder starts
over behind the encoded block, and panics when the offset leaves `u64`. -/
def addRecord (b : BlockBuilder) (key : Key) (record : MemtableRecord) :
    Exec (BlockBuilder × BlockBuilderState) :=
  if b.data ≠ [] ∧ sstableBlockSize < b.dataSize + record.recordLength key then
    let block := b.cutBlock
    let blockData := block.encode
    match checkedAdd b.blockOffset blockData.length with
    | some blockOffset => .ok (new blockOffset, .full block blockData)
    | none => .error (.panic "block offset overflow")
  else
    .ok (b.push key record, .enoughSpace)

/-- `BlockBuilder::build`: no block without records. Both keys are unwrapped, so a missing
one panics. -/
def build (b : BlockBuilder) : Exec (Option (Block × Bytes)) :=
  if b.data = [] then .ok none
  else
    match b.firstKey, b.lastKey with
    | some firstKey, some lastKey =>
      .ok (some
        ({ offset := b.blockOffset
           firstKey
           lastKey
           recordCount := b.recordCount
           dataSize := b.dataSize % u32Limit
           data := some b.data }, []))
    | _, _ => .error (.panic "called `Option::unwrap()` on a `None` value")

end BlockBuilder

/-- The two calls of `flush_winner` and of the loop in `flush_inner`: add a record, and on a
cut add it again to the fresh block. -/
def flushRecord (state : BlockBuilder × List Block) (key : Key) (record : MemtableRecord) :
    Exec (BlockBuilder × List Block) := do
  let (builder, blocks) := state
  let (builder, outcome) ← builder.addRecord key record
  match outcome with
  | .enoughSpace => return (builder, blocks)
  | .full block _ =>
    let (builder, _) ← builder.addRecord key record
    return (builder, blocks ++ [block])

/-- The end of the block building loops: the last block, if it holds a record. -/
def finishBlocks (state : BlockBuilder × List Block) : Exec (List Block) := do
  match ← state.1.build with
  | some (block, _) => return state.2 ++ [block]
  | none => return state.2

end CereDB.Storage
