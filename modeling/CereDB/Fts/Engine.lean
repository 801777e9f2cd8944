import CereDB.Lib.OrdSet
import CereDB.Storage.Read

/-!
# `CereDB.Fts.Engine`: the engine under the index

`AsyncKVEngine` of `src/api/api.rs`, the engine the full-text index is generic over. What the index
asks of its reads is stated over the records of an engine, a map from keys to values: `Answering` says
that they return and reflect the records.

The index reads with a `Query`, a program that gets and scans. `Query.run` runs it on an engine and
`Query.eval` on a map of records. On an answering engine both have the same result
(`Answering.run_query`).
-/

set_option autoImplicit false

namespace CereDB.Fts

open CereDB.Lib CereDB.Storage

/-! ### Engines -/

/-- `AsyncKVEngine`. -/
class AsyncKVEngine (E : Type) where
  get : Key → Op E (Option Bytes)
  put : Key → Bytes → Op E Unit
  delete : Key → Op E Unit
  writeBatch : List BatchOperation → Op E Unit
  awaitPendingWrites : Op E Unit
  scan : KeyRange → Op E (List (Key × Bytes))

/-- The records of an engine. -/
abbrev Records := OrdMap Key Bytes

/-- The records after one operation of a batch. -/
def applyOperation (records : Records) : BatchOperation → Records
  | .put key value => records.insert key value
  | .delete key => records.erase key

/-- The records after a batch. -/
def applyBatch (records : Records) (operations : List BatchOperation) : Records :=
  operations.foldl applyOperation records

/-- The records of a range, in key order. -/
def scanRecords (records : Records) (range : KeyRange) : List (Key × Bytes) :=
  records.toList.filter fun entry => ReadManager.keyInRange entry.1 range

section
variable {E : Type} [AsyncKVEngine E]

/-- Reads return, and reflect the records. -/
structure Answering (records : E → Records) : Prop where
  get : ∀ key engine, ∃ engine', records engine' = records engine ∧
    Act.exec (AsyncKVEngine.get key) engine = (.ok (records engine)[key]?, engine')
  scan : ∀ range engine, ∃ engine', records engine' = records engine ∧
    Act.exec (AsyncKVEngine.scan range) engine = (.ok (scanRecords (records engine) range), engine')
  awaitPendingWrites : ∀ engine : E, ∃ engine', records engine' = records engine ∧
    Act.exec AsyncKVEngine.awaitPendingWrites engine = (.ok (), engine')

end

/-! ### Queries -/

/-- A program that reads an engine. -/
inductive Query (α : Type) where
  | pure (a : α)
  | throw (halt : Halt)
  | awaitPendingWrites (next : Query α)
  | get (key : Key) (next : Option Bytes → Query α)
  | scan (range : KeyRange) (next : List (Key × Bytes) → Query α)

namespace Query

variable {α β : Type}

/-- Runs a program, then the one its result gives. -/
def bind : Query α → (α → Query β) → Query β
  | .pure a, f => f a
  | .throw halt, _ => .throw halt
  | .awaitPendingWrites next, f => .awaitPendingWrites (next.bind f)
  | .get key next, f => .get key fun value => (next value).bind f
  | .scan range next, f => .scan range fun rows => (next rows).bind f

instance : Monad Query where
  pure := .pure
  bind := bind

theorem bind_pure_eq (query : Query α) : query.bind .pure = query := by
  induction query with
  | pure a => rfl
  | throw halt => rfl
  | awaitPendingWrites next ih => rw [bind, ih]
  | get key next ih => rw [bind, funext ih]
  | scan range next ih => rw [bind, funext ih]

theorem bind_assoc_eq {γ : Type} (query : Query α) (f : α → Query β) (g : β → Query γ) :
    (query.bind f).bind g = query.bind fun a => (f a).bind g := by
  induction query with
  | pure a => rfl
  | throw halt => rfl
  | awaitPendingWrites next ih => rw [bind, bind, bind, ih]
  | get key next ih => rw [bind, bind, bind, funext ih]
  | scan range next ih => rw [bind, bind, bind, funext ih]

instance : LawfulMonad Query := LawfulMonad.mk' Query
  (fun query => bind_pure_eq query)
  (fun _ _ => rfl)
  (fun query f g => bind_assoc_eq query f g)

/-- A step that does not read. -/
def ofExec : Exec α → Query α
  | .ok a => .pure a
  | .error halt => .throw halt

/-- `engine.get(key)`. -/
def getRecord (key : Key) : Query (Option Bytes) := .get key .pure

/-- `engine.scan(range)`. -/
def scanRange (range : KeyRange) : Query (List (Key × Bytes)) := .scan range .pure

/-- `engine.await_pending_writes()`. -/
def await : Query Unit := .awaitPendingWrites (.pure ())

/-- Runs a program on an engine. -/
def run {E : Type} [AsyncKVEngine E] : Query α → Op E α
  | .pure a => Pure.pure a
  | .throw halt => MonadExcept.throw halt
  | .awaitPendingWrites next => do
      AsyncKVEngine.awaitPendingWrites
      next.run
  | .get key next => do
      let value ← AsyncKVEngine.get key
      (next value).run
  | .scan range next => do
      let rows ← AsyncKVEngine.scan range
      (next rows).run

/-- The result of a program on records. -/
def eval (records : Records) : Query α → Exec α
  | .pure a => .ok a
  | .throw halt => .error halt
  | .awaitPendingWrites next => next.eval records
  | .get key next => (next records[key]?).eval records
  | .scan range next => (next (scanRecords records range)).eval records

section
variable (records : Records)

@[simp] theorem eval_pure (a : α) : eval records (Pure.pure a : Query α) = .ok a := rfl

@[simp] theorem eval_bind (query : Query α) (f : α → Query β) :
    eval records (query >>= f) = eval records query >>= fun a => eval records (f a) := by
  show eval records (query.bind f) = _
  induction query with
  | pure a => rfl
  | throw halt => rfl
  | awaitPendingWrites next ih => exact ih
  | get key next ih => exact ih _
  | scan range next ih => exact ih _

@[simp] theorem eval_ofExec (r : Exec α) : eval records (ofExec r) = r := by
  cases r <;> rfl

@[simp] theorem eval_getRecord (key : Key) : eval records (getRecord key) = .ok records[key]? := rfl

@[simp] theorem eval_scanRange (range : KeyRange) :
    eval records (scanRange range) = .ok (scanRecords records range) := rfl

@[simp] theorem eval_await : eval records await = .ok () := rfl

/-- A loop evaluates to the loop of its rounds. -/
theorem eval_mapM (f : α → Query β) (as : List α) :
    eval records (as.mapM f) = as.mapM fun a => eval records (f a) := by
  induction as with
  | nil => rfl
  | cons a as ih =>
    rw [List.mapM_cons, List.mapM_cons, eval_bind]
    congr 1
    funext b
    rw [eval_bind, ih]
    rfl

end

end Query

/-! ### Queries on engines -/

section
variable {E α : Type} [AsyncKVEngine E] {records : E → Records}

/-- On an answering engine a query has the result of the records. -/
theorem Answering.run_query (h : Answering records) (query : Query α) (engine : E) :
    ∃ engine', records engine' = records engine ∧
      Act.exec query.run engine = (query.eval (records engine), engine') := by
  induction query generalizing engine with
  | pure a => exact ⟨engine, rfl, rfl⟩
  | throw halt => exact ⟨engine, rfl, rfl⟩
  | awaitPendingWrites next ih =>
    obtain ⟨engine₁, hsame, hexec⟩ := h.awaitPendingWrites engine
    obtain ⟨engine₂, hsame₂, hnext⟩ := ih engine₁
    refine ⟨engine₂, hsame₂.trans hsame, ?_⟩
    rw [Query.run, Act.exec_bind_ok hexec, hnext, hsame]
    rfl
  | get key next ih =>
    obtain ⟨engine₁, hsame, hexec⟩ := h.get key engine
    obtain ⟨engine₂, hsame₂, hnext⟩ := ih (records engine)[key]? engine₁
    refine ⟨engine₂, hsame₂.trans hsame, ?_⟩
    rw [Query.run, Act.exec_bind_ok hexec, hnext, hsame]
    rfl
  | scan range next ih =>
    obtain ⟨engine₁, hsame, hexec⟩ := h.scan range engine
    obtain ⟨engine₂, hsame₂, hnext⟩ := ih (scanRecords (records engine) range) engine₁
    refine ⟨engine₂, hsame₂.trans hsame, ?_⟩
    rw [Query.run, Act.exec_bind_ok hexec, hnext, hsame]
    rfl

end

end CereDB.Fts
