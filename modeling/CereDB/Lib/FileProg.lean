import CereDB.Lib.Bytes

/-!
# `CereDB.Lib.FileProg`: programs that open, seek and read files

`FileProg ε α` is a program that opens files by name and seeks and reads in the file it opened
last: each step is chosen from the bytes read before, and the program ends in a value or an
error. The program is data, so it can be run alone (`FileProg.run`, over fixed contents) or one
step at a time together with other programs.

`Parses p enc a` says that `p`, started in front of the bytes `enc` anywhere in a file, reads
exactly those bytes and returns `a`. Its rules (`Parses.pure`, `Parses.bind`, `Parses.read`,
`Parses.readBe`, `Parses.replicate`) follow the shape of a decoder, so a round-trip proof
walks down the decoder once. `Reaches` is the same for a decoder that checks what it read and may
fail. `reads` lists where a run reads; `Sequential.reads_within` bounds it for a decoder.
-/

set_option autoImplicit false

namespace CereDB.Lib

/-- The target of a seek: an offset from the start, or a distance back from the end. -/
inductive SeekFrom where
  | start (pos : Nat)
  | fromEnd (back : Nat)
deriving DecidableEq, Repr

/-- The errors of the operating system. -/
structure FileErrors (ε : Type) where
  eof : ε
  badSeek : ε
  notFound : ε

/-- A program of opens, seeks and exact reads. -/
inductive FileProg (ε α : Type) where
  | pure (a : α)
  | throw (e : ε)
  | openFile (name : String) (next : FileProg ε α)
  | seek (target : SeekFrom) (next : FileProg ε α)
  | read (n : Nat) (next : Bytes → FileProg ε α)

namespace FileProg

variable {ε α β : Type}

/-- Runs `f` on the result of `p`. -/
def bind (p : FileProg ε α) (f : α → FileProg ε β) : FileProg ε β :=
  match p with
  | .pure a => f a
  | .throw e => .throw e
  | .openFile name next => .openFile name (next.bind f)
  | .seek target next => .seek target (next.bind f)
  | .read n next => .read n fun bs => (next bs).bind f

instance : Monad (FileProg ε) where
  pure := .pure
  bind := bind

/-- Opens a file. -/
def openNamed (name : String) : FileProg ε Unit := .openFile name (.pure ())

/-- Moves the cursor. -/
def seekTo (target : SeekFrom) : FileProg ε Unit := .seek target (.pure ())

/-- Reads exactly `n` bytes. -/
def readExact (n : Nat) : FileProg ε Bytes := .read n .pure

/-- Reads a big-endian integer of `w` bytes. -/
def readBe (w : Nat) : FileProg ε Nat := .read w fun bs => .pure (beNat bs)

/-- Ends with the outcome of a computation that reads nothing. -/
def ofExcept : Except ε α → FileProg ε α
  | .ok a => .pure a
  | .error e => .throw e

/-- Runs `p` `n` times and lists the results. -/
def replicate (p : FileProg ε α) : Nat → FileProg ε (List α)
  | 0 => .pure []
  | n + 1 => p.bind fun a => (p.replicate n).bind fun as => .pure (a :: as)

/-- The cursor after a seek in a file of the given length, none before the start. -/
def seekPos (length : Nat) : SeekFrom → Option Nat
  | .start pos => some pos
  | .fromEnd back => if back ≤ length then some (length - back) else none

/-- The contents of the open file and the cursor in it. -/
abbrev Cursor := Bytes × Nat

section Run
variable (err : FileErrors ε) (files : String → Option Bytes)

/-- Runs a program alone: the contents do not change and nobody else moves the cursor. -/
def run : FileProg ε α → Cursor → Except ε (α × Cursor)
  | .pure a, cur => .ok (a, cur)
  | .throw e, _ => .error e
  | .openFile name next, _ =>
    match files name with
    | some file => next.run (file, 0)
    | none => .error err.notFound
  | .seek target next, (file, _) =>
    match seekPos file.length target with
    | some pos => next.run (file, pos)
    | none => .error err.badSeek
  | .read n next, (file, pos) =>
    if n ≤ (file.drop pos).length then (next ((file.drop pos).take n)).run (file, pos + n)
    else .error err.eof

/-- What a program returns when it runs alone with no file open yet. -/
def result (p : FileProg ε α) : Except ε α := (run err files p ([], 0)).map Prod.fst

/-- The program and its cursor after one primitive step; a program that has ended stays. -/
def next : FileProg ε α × Cursor → FileProg ε α × Cursor
  | (.pure a, cur) => (.pure a, cur)
  | (.throw e, cur) => (.throw e, cur)
  | (.openFile name rest, cur) =>
    match files name with
    | some file => (rest, (file, 0))
    | none => (.throw err.notFound, cur)
  | (.seek target rest, (file, pos)) =>
    match seekPos file.length target with
    | some pos => (rest, (file, pos))
    | none => (.throw err.badSeek, (file, pos))
  | (.read n rest, (file, pos)) =>
    if n ≤ (file.drop pos).length then (rest ((file.drop pos).take n), (file, pos + n))
    else (.throw err.eof, (file, pos))

variable {err files}

/-- A step does not change where a run ends that returns. -/
theorem run_next {p : FileProg ε α} {cur : Cursor} {r : α × Cursor}
    (h : run err files p cur = .ok r) :
    run err files (next err files (p, cur)).1 (next err files (p, cur)).2 = .ok r := by
  cases p with
  | pure a => exact h
  | throw e => exact h
  | openFile name rest =>
    rw [run] at h
    rw [next]
    cases hfile : files name with
    | none =>
      rw [hfile] at h
      cases h
    | some file =>
      rw [hfile] at h
      exact h
  | seek target rest =>
    rw [run] at h
    rw [next]
    cases hpos : seekPos cur.1.length target with
    | none =>
      rw [hpos] at h
      cases h
    | some pos =>
      rw [hpos] at h
      exact h
  | read n rest =>
    rw [run] at h
    rw [next]
    split at h
    · rename_i hle
      rw [if_pos hle]
      exact h
    · cases h

/-- A run that returns does so with more files as well. -/
theorem run_mono {files' : String → Option Bytes}
    (hfiles : ∀ name file, files name = some file → files' name = some file)
    {p : FileProg ε α} {cur : Cursor} {r : α × Cursor} (h : run err files p cur = .ok r) :
    run err files' p cur = .ok r := by
  induction p generalizing cur with
  | pure a => exact h
  | throw e => exact h
  | openFile name rest ih =>
    rw [run] at h ⊢
    cases hfile : files name with
    | none =>
      rw [hfile] at h
      cases h
    | some file =>
      rw [hfile] at h
      rw [hfiles name file hfile]
      exact ih h
  | seek target rest ih =>
    rw [run] at h ⊢
    cases hpos : seekPos cur.1.length target with
    | none =>
      rw [hpos] at h
      cases h
    | some pos =>
      rw [hpos] at h
      exact ih h
  | read n rest ih =>
    rw [run] at h ⊢
    split at h
    · rename_i hle
      rw [if_pos hle]
      exact ih _ h
    · cases h

/-- A program that returns when it runs alone has ended after enough steps. -/
theorem exists_iterate_next {p : FileProg ε α} {cur : Cursor} {r : α × Cursor}
    (h : run err files p cur = .ok r) :
    ∃ n, (next err files)^[n] (p, cur) = (.pure r.1, r.2) := by
  induction p generalizing cur with
  | pure a =>
    obtain rfl := Except.ok.inj h
    exact ⟨0, rfl⟩
  | throw e => cases h
  | openFile name rest ih =>
    rw [run] at h
    cases hfile : files name with
    | none =>
      rw [hfile] at h
      cases h
    | some file =>
      rw [hfile] at h
      obtain ⟨n, hn⟩ := ih h
      refine ⟨n + 1, ?_⟩
      rw [Function.iterate_succ_apply, next, hfile]
      exact hn
  | seek target rest ih =>
    rw [run] at h
    cases hpos : seekPos cur.1.length target with
    | none =>
      rw [hpos] at h
      cases h
    | some pos =>
      rw [hpos] at h
      obtain ⟨n, hn⟩ := ih h
      refine ⟨n + 1, ?_⟩
      rw [Function.iterate_succ_apply, next, hpos]
      exact hn
  | read n rest ih =>
    rw [run] at h
    split at h
    · rename_i hle
      obtain ⟨m, hm⟩ := ih _ h
      refine ⟨m + 1, ?_⟩
      rw [Function.iterate_succ_apply, next, if_pos hle]
      exact hm
    · cases h

/-- A run of a sequence is the run of the first part, then of the second from the cursor the
first one left. -/
theorem run_bind (p : FileProg ε α) (f : α → FileProg ε β) (cur : Cursor) :
    run err files (p >>= f) cur
      = (run err files p cur).bind fun r => run err files (f r.1) r.2 := by
  show run err files (p.bind f) cur = _
  induction p generalizing cur with
  | pure a => rfl
  | throw e => rfl
  | openFile name next ih =>
    rw [bind, run, run]
    cases files name with
    | none => rfl
    | some file => exact ih (file, 0)
  | seek target next ih =>
    rw [bind, run, run]
    cases seekPos cur.1.length target with
    | none => rfl
    | some pos => exact ih (cur.1, pos)
  | read n next ih =>
    rw [bind, run, run]
    split
    · exact ih _ _
    · rfl

theorem result_bind_pure (p : FileProg ε α) (f : α → β) :
    result err files (p >>= fun a => Pure.pure (f a)) = (result err files p).map f := by
  rw [result, result, run_bind]
  cases run err files p ([], 0) <;> rfl

/-- A run of a sequence whose first part returned. -/
theorem run_bind_ok {p : FileProg ε α} {f : α → FileProg ε β} {cur cur' : Cursor} {a : α}
    (h : run err files p cur = .ok (a, cur')) :
    run err files (p >>= f) cur = run err files (f a) cur' := by
  rw [run_bind, h]
  rfl

@[simp] theorem run_seek_start (file : Bytes) (target pos : Nat) :
    run err files (seekTo (.start target) : FileProg ε Unit) (file, pos)
      = .ok ((), (file, target)) := rfl

theorem run_open {name : String} {file : Bytes} (h : files name = some file) (cur : Cursor) :
    run err files (openNamed name : FileProg ε Unit) cur = .ok ((), (file, 0)) := by
  rw [openNamed, run, h]
  rfl

theorem run_ofExcept (r : Except ε α) (cur : Cursor) :
    run err files (ofExcept r) cur = r.map fun a => (a, cur) := by
  cases r <;> rfl

/-- A sequence that returned: both parts returned. -/
theorem run_bind_eq_ok {p : FileProg ε α} {f : α → FileProg ε β} {cur cur' : Cursor} {b : β}
    (h : run err files (p >>= f) cur = .ok (b, cur')) :
    ∃ a mid, run err files p cur = .ok (a, mid) ∧ run err files (f a) mid = .ok (b, cur') := by
  rw [run_bind] at h
  cases hp : run err files p cur with
  | error e =>
    rw [hp] at h
    cases h
  | ok r =>
    rw [hp] at h
    exact ⟨r.1, r.2, rfl, h⟩

theorem run_readExact_eq_ok {n : Nat} {cur cur' : Cursor} {bs : Bytes}
    (h : run err files (readExact n : FileProg ε Bytes) cur = .ok (bs, cur')) : bs.length = n := by
  rw [readExact, run] at h
  split at h
  · rename_i hle
    obtain ⟨rfl, -⟩ := Prod.ext_iff.mp (Except.ok.inj h)
    exact List.length_take_of_le hle
  · cases h

theorem run_readBe_eq_ok {w : Nat} {cur cur' : Cursor} {n : Nat}
    (h : run err files (readBe w : FileProg ε Nat) cur = .ok (n, cur')) : n < 256 ^ w := by
  obtain ⟨bs, mid, hread, hpure⟩ := run_bind_eq_ok (p := readExact w)
    (f := fun bs => .pure (beNat bs)) h
  obtain ⟨rfl, -⟩ := Prod.ext_iff.mp (Except.ok.inj hpure)
  have hlt := beNat_lt bs
  rw [run_readExact_eq_ok hread] at hlt
  exact hlt

theorem run_ofExcept_eq_ok {r : Except ε α} {cur cur' : Cursor} {a : α}
    (h : run err files (ofExcept r) cur = .ok (a, cur')) : r = .ok a ∧ cur' = cur := by
  cases r with
  | error e => cases h
  | ok b =>
    obtain ⟨rfl, rfl⟩ := Prod.ext_iff.mp (Except.ok.inj h)
    exact ⟨rfl, rfl⟩

end Run

/-! ### Decoders -/

section Parses
variable (err : FileErrors ε)

/-- Started in front of `enc`, the program reads exactly `enc` and returns `a`. -/
def Parses (p : FileProg ε α) (enc : Bytes) (a : α) : Prop :=
  ∀ (files : String → Option Bytes) (before after : Bytes),
    run err files p (before ++ (enc ++ after), before.length)
      = .ok (a, (before ++ (enc ++ after), before.length + enc.length))

variable {err}

theorem Parses.pure (a : α) : Parses err (Pure.pure a : FileProg ε α) [] a :=
  fun _ _ _ => rfl

variable (err) in
/-- Started in front of `enc`, the program goes on as `q` does behind it. This is `Parses` for a
program that may still fail on what it read. -/
def Reaches (p : FileProg ε α) (enc : Bytes) (q : FileProg ε α) : Prop :=
  ∀ (files : String → Option Bytes) (before after : Bytes),
    run err files p (before ++ (enc ++ after), before.length)
      = run err files q (before ++ (enc ++ after), before.length + enc.length)

theorem Reaches.bind {p : FileProg ε α} {f : α → FileProg ε β} {enc enc' : Bytes} {a : α}
    {q : FileProg ε β} (hp : Parses err p enc a) (hf : Reaches err (f a) enc' q) :
    Reaches err (p >>= f) (enc ++ enc') q := by
  intro files before after
  have hfirst := hp files before (enc' ++ after)
  have hsecond := hf files (before ++ enc) after
  rw [List.append_assoc, List.length_append] at hsecond
  rw [List.append_assoc, run_bind_ok hfirst, hsecond, List.length_append, Nat.add_assoc]

/-- Decoders in sequence parse encodings in sequence. -/
theorem Parses.bind {p : FileProg ε α} {f : α → FileProg ε β} {enc enc' : Bytes} {a : α} {b : β}
    (hp : Parses err p enc a) (hf : Parses err (f a) enc' b) :
    Parses err (p >>= f) (enc ++ enc') b :=
  Reaches.bind (q := .pure b) hp hf

/-- A check that succeeds reads nothing. -/
theorem Parses.ofExcept {r : Except ε α} {a : α} (h : r = .ok a) :
    Parses err (FileProg.ofExcept r) [] a := by
  rw [h]
  exact Parses.pure a

/-- An exact read parses any bytes of that length. -/
theorem Parses.read {n : Nat} {enc : Bytes} (h : enc.length = n) :
    Parses err (readExact n : FileProg ε Bytes) enc enc := by
  intro files before after
  rw [readExact, run, List.drop_left, ← h, List.take_left, if_pos (by simp)]
  rfl

/-- A big-endian integer that fits is parsed back. -/
theorem Parses.readBe {w n : Nat} (h : n < 256 ^ w) :
    Parses err (readBe w : FileProg ε Nat) (beBytes w n) n := by
  have hread : Parses err (readExact w >>= fun bs => Pure.pure (beNat bs) : FileProg ε Nat)
      (beBytes w n ++ []) (beNat (beBytes w n)) :=
    (Parses.read (length_beBytes w n)).bind (Parses.pure _)
  rw [List.append_nil, beNat_beBytes w n h] at hread
  exact hread

/-- A repeated decoder parses the encodings of a list. -/
theorem Parses.replicate {p : FileProg ε α} {enc : α → Bytes} {as : List α}
    (h : ∀ a ∈ as, Parses err p (enc a) a) :
    Parses err (p.replicate as.length) (as.flatMap enc) as := by
  induction as with
  | nil => exact Parses.pure []
  | cons a as ih =>
    have htail := ih fun b hb => h b (List.mem_cons_of_mem a hb)
    have hcons : Parses err
        (p.replicate as.length >>= fun rest => (Pure.pure (a :: rest) : FileProg ε (List α)))
        (as.flatMap enc ++ []) (a :: as) := htail.bind (Parses.pure (a :: as))
    rw [List.append_nil] at hcons
    rw [List.flatMap_cons]
    exact (h a List.mem_cons_self).bind (f := fun b =>
      p.replicate as.length >>= fun rest => (Pure.pure (b :: rest) : FileProg ε (List α))) hcons

end Parses

/-! ### Where a program reads -/

section Reads
variable (files : String → Option Bytes)

/-- The reads of a run, the position and the length of each, with the one that fails. -/
def reads : FileProg ε α → Cursor → List (Nat × Nat)
  | .pure _, _ => []
  | .throw _, _ => []
  | .openFile name next, _ =>
    match files name with
    | some file => next.reads (file, 0)
    | none => []
  | .seek target next, (file, _) =>
    match seekPos file.length target with
    | some pos => next.reads (file, pos)
    | none => []
  | .read n next, (file, pos) =>
    (pos, n) ::
      if n ≤ (file.drop pos).length then
        (next ((file.drop pos).take n)).reads (file, pos + n)
      else []

/-- A program that only reads on. -/
def Sequential : FileProg ε α → Prop
  | .pure _ => True
  | .throw _ => True
  | .openFile _ _ => False
  | .seek _ _ => False
  | .read _ next => ∀ bs, (next bs).Sequential

theorem Sequential.readExact (n : Nat) : (readExact n : FileProg ε Bytes).Sequential :=
  fun _ => trivial

theorem Sequential.readBe (w : Nat) : (readBe w : FileProg ε Nat).Sequential := fun _ => trivial

theorem Sequential.pure (a : α) : (Pure.pure a : FileProg ε α).Sequential := trivial

theorem Sequential.ofExcept (r : Except ε α) : (FileProg.ofExcept r).Sequential := by
  cases r <;> trivial

theorem Sequential.bind {p : FileProg ε α} {f : α → FileProg ε β} (hp : p.Sequential)
    (hf : ∀ a, (f a).Sequential) : (p >>= f).Sequential := by
  show (p.bind f).Sequential
  induction p with
  | pure a => exact hf a
  | throw e => trivial
  | openFile name next ih => exact hp.elim
  | seek target next ih => exact hp.elim
  | read n next ih => exact fun bs => ih bs (hp bs)

theorem Sequential.replicate {p : FileProg ε α} (hp : p.Sequential) (n : Nat) :
    (p.replicate n).Sequential := by
  induction n with
  | zero => trivial
  | succ n ih => exact hp.bind fun a => ih.bind fun as => Sequential.pure (a :: as)

variable {files} {err : FileErrors ε}

variable (err) in
/-- A program that reads on and does not run into the end of the file cut off at `stop` reads nothing
behind `stop` in the whole file either. -/
theorem Sequential.reads_within {p : FileProg ε α} (h : p.Sequential) {file : Bytes} {pos stop : Nat}
    (hpos : pos ≤ stop) (hstop : stop ≤ file.length)
    (hrun : run err files p (file.take stop, pos) ≠ .error err.eof) :
    ∀ read ∈ reads files p (file, pos), pos ≤ read.1 ∧ read.1 + read.2 ≤ stop := by
  induction p generalizing pos with
  | pure a => exact fun read hread => absurd hread List.not_mem_nil
  | throw e => exact fun read hread => absurd hread List.not_mem_nil
  | openFile name next ih => exact h.elim
  | seek target next ih => exact h.elim
  | read n next ih =>
    have hcut : ((file.take stop).drop pos).length = stop - pos := by
      rw [List.length_drop, List.length_take_of_le hstop]
    rw [run, hcut] at hrun
    by_cases hn : n ≤ stop - pos
    · rw [if_pos hn] at hrun
      have hsame : ((file.take stop).drop pos).take n = (file.drop pos).take n := by
        rw [List.drop_take, List.take_take, Nat.min_eq_left hn]
      have hfits : n ≤ (file.drop pos).length := by
        rw [List.length_drop]
        omega
      rw [hsame] at hrun
      rw [reads, if_pos hfits]
      intro read hread
      rcases List.mem_cons.mp hread with rfl | hread
      · exact ⟨le_refl pos, by show pos + n ≤ stop; omega⟩
      · obtain ⟨hfrom, hto⟩ := ih _ (h _) (by omega) hrun read hread
        exact ⟨by omega, hto⟩
    · rw [if_neg hn] at hrun
      exact absurd rfl hrun

end Reads

end FileProg

end CereDB.Lib
