import CereDB.Lib.SharedCursor
import CereDB.Storage.Read

/-!
# `CereDB.Storage.FileCache`: the handle cache and calls that read through it

`LruFileCache` of `src/storage/manifest_codec.rs` keeps a template handle for each path. A read
clones the template (`try_clone`), and a clone shares the open file description of its template,
cursor included. A description is a number here: the cache hands out the description of the
template it holds, or opens a new one.
-/

set_option autoImplicit false

namespace CereDB.Storage

open CereDB.Lib

/-- `LruFileCache`: the description of each cached template, the paths from least to most recently
used, and the number of descriptions opened so far. -/
structure LruFileCache where
  handles : OrdMap String Nat
  order : List String
  capacity : Nat
  opened : Nat

namespace LruFileCache

/-- `DEFAULT_FILE_CACHE_CAPACITY`. -/
def defaultCapacity : Nat := 64

/-- `LruFileCache::new`. -/
def new (capacity : Nat) : LruFileCache := { handles := ∅, order := [], capacity, opened := 0 }

/-- `touch`. -/
def touch (cache : LruFileCache) (path : String) : LruFileCache :=
  { cache with order := cache.order.filter (· ≠ path) ++ [path] }

/-- `evict_oldest`. -/
def evictOldest (cache : LruFileCache) : LruFileCache :=
  match cache.order with
  | [] => cache
  | oldest :: order => { cache with handles := cache.handles.erase oldest, order }

/-- `get_or_open` on a file that exists: the description of the template. -/
def getOrOpen (cache : LruFileCache) (path : String) : Nat × LruFileCache :=
  match cache.handles[path]? with
  | some fd => (fd, cache.touch path)
  | none =>
    let room := if cache.capacity ≤ cache.handles.size then cache.evictOldest else cache
    (cache.opened, { room with
      handles := room.handles.insert path cache.opened
      order := room.order ++ [path]
      opened := cache.opened + 1 })

/-- `get_or_open`, with the error of `File::open` on a file that does not open. A hit opens
nothing. -/
def getOrOpenWith (cache : LruFileCache) (path : String) (openError : Option DBError) :
    Exec Nat × LruFileCache :=
  match cache.handles[path]?, openError with
  | none, some e => (.error (.error e), cache)
  | _, _ =>
    let (fd, cache) := cache.getOrOpen path
    (.ok fd, cache)

/-- `remove`. -/
def remove (cache : LruFileCache) (path : String) : LruFileCache :=
  { cache with handles := cache.handles.erase path, order := cache.order.filter (· ≠ path) }

/-- `clear`. -/
def clear (cache : LruFileCache) : LruFileCache := { cache with handles := ∅, order := [] }

end LruFileCache

/-- A call of one of the two read operations. -/
inductive ReadCall where
  | get (key : Key) (sequenceNumber : Nat)
  | scan (range : KeyRange) (sequenceNumber : Nat)
deriving DecidableEq, Repr

/-- What a read returns. -/
inductive ReadResult where
  | record (found : Option MemtableRecord)
  | entries (found : List (Key × Bytes))
deriving DecidableEq, Repr

/-- The program a read runs, on one memtable and one manifest snapshot. -/
def ReadCall.prog (fastbloom : FastBloom) (memtable : Memtable) (levels : Levels) :
    ReadCall → ReadFile ReadResult
  | .get key sequenceNumber => do
      return .record (← ReadManager.get fastbloom memtable levels key sequenceNumber)
  | .scan range sequenceNumber => do
      return .entries (← ReadManager.scanRange memtable levels range sequenceNumber)

end CereDB.Storage
