import CereDB.Lib.Disk
import CereDB.Lib.FileProg

/-!
# `CereDB.Storage.Base`: errors, operations and constants

The vocabulary the storage modules share. `DBError` is the crate's error enumeration
(`src/error.rs`). A computation of the storage engine either returns a value, returns a
`DBError`, panics, or stops with the process; `Exec` is the type of its outcome.
`BatchOperation` and `LogCommand` are the operations a client submits (`src/api/api.rs`) and the
commands the log stores (`src/storage/recovermanager/log_store.rs`).

Keys and values are byte strings, and keys are ordered lexicographically. Sequence numbers,
file ids and offsets are natural numbers; where the source checks for overflow or casts, the
definition does so explicitly at `u64Limit` or `u32Limit`.
-/

set_option autoImplicit false

namespace CereDB.Storage

open CereDB.Lib

/-- A key, ordered lexicographically. -/
abbrev Key := Bytes

instance keyTransCmp : Std.TransCmp (@compare Key LinearOrder.toOrd) := OrdMap.transCmp

/-- One more than the largest `u64`. -/
def u64Limit : Nat := 2 ^ 64

/-- One more than the largest `u32`. -/
def u32Limit : Nat := 2 ^ 32

/-- `isize::MAX`, the largest number of bytes one allocation may hold. -/
def isizeMax : Nat := 2 ^ 63 - 1

/-- The kinds of `std::io::Error` the code tells apart. -/
inductive IoKind where
  | unexpectedEof
  | alreadyExists
  | notFound
  | other
deriving DecidableEq, Repr

/-- `DBError` of `src/error.rs`. -/
inductive DBError where
  | io (kind : IoKind)
  | tryIntoError
  | corrupted (message : String)
  | mutexPoisoned (message : String)
  | storageError (message : String)
  | notFound
deriving DecidableEq, Repr

/-- The text of an I/O error kind. -/
def IoKind.display : IoKind → String
  | .unexpectedEof => "unexpected end of file"
  | .alreadyExists => "entity already exists"
  | .notFound => "entity not found"
  | .other => "other error"

/-- The text of an error, as `thiserror` derives it. -/
def DBError.display : DBError → String
  | .io kind => "io error occurred: " ++ kind.display
  | .tryIntoError => "serialization error: could not convert slice to array"
  | .corrupted message => "Corrupted page: " ++ message
  | .mutexPoisoned _ => "mutex poisoned"
  | .storageError message => "storage error: " ++ message
  | .notFound => "key not found"

/-- Why a computation did not return a value: it returned an error, it panicked, or the process
stopped on the way. -/
inductive Halt where
  | error (e : DBError)
  | panic (message : String)
  | crash
deriving DecidableEq, Repr

/-- The outcome of a computation of the storage engine. -/
abbrev Exec (α : Type) := Except Halt α

@[simp] theorem Exec.ok_bind {α β : Type} (a : α) (f : α → Exec β) :
    (Except.ok a >>= f : Exec β) = f a := rfl

@[simp] theorem Exec.error_bind {α β : Type} (halt : Halt) (f : α → Exec β) :
    (Except.error halt >>= f : Exec β) = .error halt := rfl

/-- A bind that returned: both parts returned. -/
theorem Exec.bind_eq_ok {α β : Type} {x : Exec α} {f : α → Exec β} {b : β}
    (h : x >>= f = .ok b) : ∃ a, x = .ok a ∧ f a = .ok b := by
  cases x with
  | error e => cases h
  | ok a => exact ⟨a, rfl, h⟩

theorem Exec.map_eq_ok {α β : Type} {x : Exec α} {f : α → β} {b : β} (h : x.map f = .ok b) :
    ∃ a, x = .ok a ∧ f a = b := by
  cases x with
  | error e => cases h
  | ok a => exact ⟨a, rfl, Except.ok.inj h⟩

/-- A loop that returned: every round returned its result. -/
theorem Exec.mapM_eq_ok {α β : Type} {f : α → Exec β} {as : List α} {bs : List β}
    (h : as.mapM f = .ok bs) : List.Forall₂ (fun a b => f a = .ok b) as bs := by
  induction as generalizing bs with
  | nil =>
    obtain rfl := Except.ok.inj h
    exact .nil
  | cons a as ih =>
    rw [List.mapM_cons] at h
    obtain ⟨b, hb, h⟩ := Exec.bind_eq_ok h
    obtain ⟨rest, hrest, h⟩ := Exec.bind_eq_ok h
    obtain rfl := Except.ok.inj h
    exact .cons hb (ih hrest)

/-- Every result of a loop that returned comes from a round. -/
theorem Exec.exists_of_mem_mapM {α β : Type} {f : α → Exec β} {as : List α} {bs : List β}
    (h : as.mapM f = .ok bs) {b : β} (hb : b ∈ bs) : ∃ a ∈ as, f a = .ok b := by
  induction as generalizing bs with
  | nil =>
    obtain rfl := Except.ok.inj h
    cases hb
  | cons first as ih =>
    rw [List.mapM_cons] at h
    obtain ⟨b', hb', h⟩ := Exec.bind_eq_ok h
    obtain ⟨rest, hrest, h⟩ := Exec.bind_eq_ok h
    obtain rfl := Except.ok.inj h
    rcases List.mem_cons.mp hb with rfl | hb
    · exact ⟨first, List.mem_cons_self, hb'⟩
    · obtain ⟨a, hmem, ha⟩ := ih hrest hb
      exact ⟨a, List.mem_cons_of_mem first hmem, ha⟩

/-- A loop whose rounds all return returns. -/
theorem Exec.mapM_of_ok {α β : Type} {f : α → Exec β} {g : α → β} {as : List α}
    (h : ∀ a ∈ as, f a = .ok (g a)) : as.mapM f = .ok (as.map g) := by
  induction as with
  | nil => rfl
  | cons a as ih =>
    rw [List.mapM_cons, h a List.mem_cons_self,
      ih fun b hb => h b (List.mem_cons_of_mem a hb)]
    rfl

/-- A value without state that stops with errors only: it neither panics nor ends the process. -/
def Exec.Regular {α : Type} (r : Exec α) : Prop := ∀ halt, r = .error halt → ∃ e, halt = .error e

section Regular
variable {α β : Type}

theorem Exec.Regular.ok (a : α) : Exec.Regular (.ok a : Exec α) := by
  rintro halt ⟨⟩

theorem Exec.Regular.error (e : DBError) : Exec.Regular (.error (.error e) : Exec α) := by
  rintro halt ⟨⟩
  exact ⟨e, rfl⟩

/-- The second part may use what the first one returned. -/
theorem Exec.Regular.bind_of_ok {x : Exec α} {f : α → Exec β} (hx : Exec.Regular x)
    (hf : ∀ a, x = .ok a → Exec.Regular (f a)) : Exec.Regular (x >>= f) := by
  cases x with
  | error halt =>
    rintro _ ⟨⟩
    exact hx halt rfl
  | ok a => exact hf a rfl

theorem Exec.Regular.bind {x : Exec α} {f : α → Exec β} (hx : Exec.Regular x)
    (hf : ∀ a, Exec.Regular (f a)) : Exec.Regular (x >>= f) :=
  hx.bind_of_ok fun a _ => hf a

theorem Exec.Regular.map {x : Exec α} (hx : Exec.Regular x) (f : α → β) :
    Exec.Regular (x.map f) := by
  cases x with
  | error halt =>
    rintro _ ⟨⟩
    exact hx halt rfl
  | ok a => exact .ok (f a)

theorem Exec.Regular.ite {c : Prop} [Decidable c] {x y : Exec α} (hx : Exec.Regular x)
    (hy : Exec.Regular y) : Exec.Regular (if c then x else y) := by
  split
  · exact hx
  · exact hy

theorem Exec.Regular.foldlM {f : β → α → Exec β} (hf : ∀ b a, Exec.Regular (f b a))
    (as : List α) (b : β) : Exec.Regular (as.foldlM f b) := by
  induction as generalizing b with
  | nil => exact .ok b
  | cons a as ih =>
    rw [List.foldlM_cons]
    exact (hf b a).bind ih

theorem Exec.Regular.mapM {f : α → Exec β} (hf : ∀ a, Exec.Regular (f a)) (as : List α) :
    Exec.Regular (as.mapM f) := by
  induction as with
  | nil => exact .ok []
  | cons a as ih =>
    rw [List.mapM_cons]
    exact (hf a).bind fun b => ih.bind fun bs => .ok (b :: bs)

/-- A value that is not returned by a regular computation is an error. -/
theorem Exec.Regular.exists_error {r : Exec α} (h : Exec.Regular r) (hne : ∀ a, r ≠ .ok a) :
    ∃ e, r = .error (.error e) := by
  cases r with
  | ok a => exact absurd rfl (hne a)
  | error halt =>
    obtain ⟨e, rfl⟩ := h halt rfl
    exact ⟨e, rfl⟩

end Regular

/-- A computation on a state of the storage engine. -/
abbrev Op (σ α : Type) := Act Halt σ α

/-- Returns `Err(DBError::Corrupted(message))`. -/
def corrupted {α : Type} (message : String) : Exec α := .error (.error (.corrupted message))

/-- Returns `Err(DBError::StorageError(message))`. -/
def storageError {α : Type} (message : String) : Exec α :=
  .error (.error (.storageError message))

/-- The end-of-file error that `read_exact` and the WAL decoder return. -/
def eof : Halt := .error (.io .unexpectedEof)

/-- A reader of one of the storage formats. -/
abbrev Decode (α : Type) := Reader Halt α

/-- A reader that stops with errors only. -/
def Decode.Regular {α : Type} (r : Decode α) : Prop := ∀ bs, Exec.Regular (r bs)

namespace Decode.Regular

variable {α β : Type}

theorem pure (a : α) : Regular (Pure.pure a : Decode α) := fun _ => .ok _

theorem throw (e : DBError) : Regular (MonadExcept.throw (.error e) : Decode α) := fun _ => .error e

theorem bind {x : Decode α} {f : α → Decode β} (hx : Regular x) (hf : ∀ a, Regular (f a)) :
    Regular (x >>= f) :=
  fun bs => (hx bs).bind fun r => hf r.1 r.2

theorem ite {c : Prop} [Decidable c] {x y : Decode α} (hx : Regular x) (hy : Regular y) :
    Regular (if c then x else y) := by
  split
  · exact hx
  · exact hy

theorem readExact (e : DBError) (n : Nat) : Regular (readExact (.error e) n) := by
  intro bs
  rw [Lib.readExact]
  split
  · exact .ok _
  · exact .error e

theorem readBe (e : DBError) (w : Nat) : Regular (readBe (.error e) w) :=
  (readExact e w).bind fun _ => .pure _

theorem readLe (e : DBError) (w : Nat) : Regular (readLe (.error e) w) :=
  (readExact e w).bind fun _ => .pure _

theorem replicate {r : Decode α} (hr : Regular r) (n : Nat) : Regular (r.replicate n) := by
  induction n with
  | zero => exact .pure []
  | succ n ih => exact hr.bind fun a => ih.bind fun as => .pure (a :: as)

end Decode.Regular

/-- The errors of opening, seeking and reading a file. -/
def fileErrors : FileErrors Halt where
  eof := eof
  badSeek := .error (.io .other)
  notFound := .error (.io .notFound)

/-- The errors of I/O calls that change a directory. -/
def ioErrors : IoErrors Halt where
  failed := .error (.io .other)
  alreadyExists := .error (.io .alreadyExists)
  notFound := .error (.io .notFound)
  crashed := .crash

/-- A program that decodes one of the storage formats from an open file. -/
abbrev ReadFile (α : Type) := FileProg Halt α

/-- A vector of more than `isize::MAX` bytes panics when it is allocated. -/
def allocate (bytes : Nat) : Exec Unit :=
  if bytes ≤ isizeMax then .ok () else .error (.panic "capacity overflow")

/-- `checked_add` on `u64`. -/
def checkedAdd (a b : Nat) : Option Nat := if a + b < u64Limit then some (a + b) else none

/-- `+` on `u64`, which panics on overflow. -/
def addOrPanic (a b : Nat) : Exec Nat :=
  match checkedAdd a b with
  | some sum => .ok sum
  | none => .error (.panic "attempt to add with overflow")

theorem addOrPanic_of_lt {a b : Nat} (h : a + b < u64Limit) : addOrPanic a b = .ok (a + b) := by
  rw [addOrPanic, checkedAdd, if_pos h]

/-- `saturating_add` on `u64`. -/
def saturatingAdd (a b : Nat) : Nat := min (a + b) (u64Limit - 1)

/-- `RecordType` of `record.rs`, with the byte each variant is stored as. -/
inductive RecordType where
  | put
  | delete
deriving DecidableEq, Repr

/-- `record_type as u8`. -/
def RecordType.toByte : RecordType → UInt8
  | .put => 1
  | .delete => 2

/-- `BatchOperation` of `api.rs`. -/
inductive BatchOperation where
  | put (key : Key) (value : Bytes)
  | delete (key : Key)
deriving DecidableEq, Repr

/-- The key an operation writes. -/
def BatchOperation.key : BatchOperation → Key
  | .put key _ => key
  | .delete key => key

/-- `LogCommand` of `log_store.rs`. -/
structure LogCommand where
  recordType : RecordType
  key : Key
  value : Bytes
  lsn : Nat
deriving DecidableEq, Repr

/-! ### The checksum -/

/-- One shift of the reflected CRC-32 register with the IEEE polynomial. -/
def crcShift (c : UInt32) : UInt32 :=
  if c &&& 1 = 1 then (c >>> 1) ^^^ 0xEDB88320 else c >>> 1

/-- The register after one byte: eight shifts of the register with the byte mixed in. -/
def crcByte (c : UInt32) (b : UInt8) : UInt32 :=
  crcShift (crcShift (crcShift (crcShift (crcShift (crcShift (crcShift (crcShift
    (c ^^^ b.toUInt32))))))))

/-- `f n`, with `n` reduced to a numeral first, so that a long loop can be evaluated. -/
def withNumeral {α : Type} (n : Nat) (f : Nat → α) : α :=
  match n with
  | 0 => f 0
  | k + 1 => f (k + 1)

/-- The register after a byte string. -/
def crcFold (c : UInt32) : Bytes → UInt32
  | [] => c
  | b :: bs => withNumeral (crcByte c b).toNat fun n => crcFold (UInt32.ofNat n) bs

/-- `crc32fast::hash`: CRC-32 as IEEE 802.3 defines it. -/
def crc32 (bytes : Bytes) : Nat := (crcFold 0xFFFFFFFF bytes ^^^ 0xFFFFFFFF).toNat

/-- A checksum fits in four bytes. -/
theorem crc32_lt (bytes : Bytes) : crc32 bytes < 256 ^ 4 :=
  UInt32.toNat_lt _

/-- `verify_crc32` of `checksum.rs`, without the checksums its message prints. -/
def verifyCrc32 (bytes : Bytes) (expected : Nat) : Exec Unit :=
  if crc32 bytes = expected then .ok () else corrupted "CRC32 mismatch"

/-- The check value of CRC-32: the checksum of the digits `123456789`. -/
example : crc32 [49, 50, 51, 52, 53, 54, 55, 56, 57] = 0xCBF43926 := by decide +kernel

end CereDB.Storage
