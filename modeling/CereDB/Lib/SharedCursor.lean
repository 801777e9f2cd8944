import CereDB.Lib.FileProg

/-!
# `CereDB.Lib.SharedCursor`: file programs that run together over shared cursors

Several programs run in steps, in any order. Each open yields a handle with a read-ahead buffer
of its own, on an open file description that other handles may share. The cursor belongs to the
description: a seek and a refill of the buffer move it for every handle of that description.

`acquire` says which description an open gets, and is arbitrary. `mover` remembers for each
description which handle moved its cursor last. A refill is undisturbed when that was the handle
itself. `outcome_of_undisturbed` is the result: in every run whose refills are all undisturbed,
a program that has ended returned what it returns when it runs alone, and a program that was
given enough steps has ended.
-/

set_option autoImplicit false

namespace CereDB.Lib

/-- An open file: which description it uses, the contents, and the bytes read ahead. -/
structure Handle where
  token : Nat
  fd : Nat
  file : Bytes
  buffer : Bytes

/-- A program under way and the file it opened last. -/
structure Proc (ε α : Type) where
  prog : FileProg ε α
  handle : Option Handle

/-- What the programs share: the handle cache, the cursor of each description, and the handle
that moved it last. -/
structure Shared (γ : Type) where
  cache : γ
  cursor : Nat → Nat
  mover : Nat → Option Nat
  nextToken : Nat

/-- The programs and what they share. -/
structure System (ι ε α γ : Type) where
  shared : Shared γ
  procs : ι → Proc ε α

/-- The handle moves the cursor of its description. -/
def Shared.moveCursor {γ : Type} (s : Shared γ) (h : Handle) (pos : Nat) : Shared γ :=
  { s with
    cursor := fun fd => if fd = h.fd then pos else s.cursor fd
    mover := fun fd => if fd = h.fd then some h.token else s.mover fd }

/-- How a program ended, if it has. -/
def Proc.outcome {ε α : Type} (p : Proc ε α) : Option (Except ε α) :=
  match p.prog with
  | .pure a => some (.ok a)
  | .throw e => some (.error e)
  | _ => none

section
variable {ι ε α γ : Type} [DecidableEq ι]
variable (err : FileErrors ε) (files : String → Option Bytes) (acquire : γ → String → Nat × γ)

/-- One step of a program. A read takes from the buffer when that is long enough. Otherwise it
refills the buffer at the cursor with up to `count + 1` bytes, and finds the end of the file when
there are none. -/
def stepProc (count : Nat) (p : Proc ε α) (s : Shared γ) : Proc ε α × Shared γ :=
  match p.prog, p.handle with
  | .pure _, _ => (p, s)
  | .throw _, _ => (p, s)
  | .openFile name next, handle =>
    match files name with
    | none => (⟨.throw err.notFound, handle⟩, s)
    | some file =>
      (⟨next, some ⟨s.nextToken, (acquire s.cache name).1, file, []⟩⟩,
        { s with cache := (acquire s.cache name).2, nextToken := s.nextToken + 1 })
  | .seek target next, none =>
    match FileProg.seekPos 0 target with
    | none => (⟨.throw err.badSeek, none⟩, s)
    | some _ => (⟨next, none⟩, s)
  | .seek target next, some h =>
    match FileProg.seekPos h.file.length target with
    | none => (⟨.throw err.badSeek, some h⟩, s)
    | some pos => (⟨next, some { h with buffer := [] }⟩, s.moveCursor h pos)
  | .read n next, none => if n = 0 then (⟨next [], none⟩, s) else (⟨.throw err.eof, none⟩, s)
  | .read n next, some h =>
    if n ≤ h.buffer.length then
      (⟨next (h.buffer.take n), some { h with buffer := h.buffer.drop n }⟩, s)
    else
      let chunk := (h.file.drop (s.cursor h.fd)).take (count + 1)
      if chunk = [] then (⟨.throw err.eof, some h⟩, s)
      else (⟨.read n next, some { h with buffer := h.buffer ++ chunk }⟩,
        s.moveCursor h (s.cursor h.fd + chunk.length))

/-- One step of the system: the program `i` runs. -/
def System.step (sys : System ι ε α γ) (i : ι) (count : Nat) : System ι ε α γ :=
  { shared := (stepProc err files acquire count (sys.procs i) sys.shared).2
    procs := fun j =>
      if j = i then (stepProc err files acquire count (sys.procs i) sys.shared).1
      else sys.procs j }

/-- A run: which program goes next, and how many bytes a refill may bring. -/
def System.run (sys : System ι ε α γ) (schedule : List (ι × Nat)) : System ι ε α γ :=
  schedule.foldl (fun sys turn => sys.step err files acquire turn.1 turn.2) sys

/-- The next step of the program is not a refill, or its own handle moved the cursor last. -/
def Undisturbed (p : Proc ε α) (s : Shared γ) : Prop :=
  match p.prog, p.handle with
  | .read n _, some h => n ≤ h.buffer.length ∨ s.mover h.fd = some h.token
  | _, _ => True

instance : (p : Proc ε α) → (s : Shared γ) → Decidable (Undisturbed p s)
  | ⟨.pure _, _⟩, _ => inferInstanceAs (Decidable True)
  | ⟨.throw _, _⟩, _ => inferInstanceAs (Decidable True)
  | ⟨.openFile _ _, _⟩, _ => inferInstanceAs (Decidable True)
  | ⟨.seek _ _, _⟩, _ => inferInstanceAs (Decidable True)
  | ⟨.read _ _, none⟩, _ => inferInstanceAs (Decidable True)
  | ⟨.read _ _, some _⟩, _ => inferInstanceAs (Decidable (_ ∨ _))

/-- Every step of the run is undisturbed. -/
def UndisturbedRun (sys : System ι ε α γ) : List (ι × Nat) → Prop
  | [] => True
  | turn :: schedule => Undisturbed (sys.procs turn.1) sys.shared ∧
      UndisturbedRun (sys.step err files acquire turn.1 turn.2) schedule

instance : (sys : System ι ε α γ) → (schedule : List (ι × Nat)) →
    Decidable (UndisturbedRun err files acquire sys schedule)
  | _, [] => inferInstanceAs (Decidable True)
  | sys, turn :: schedule =>
    have := instDecidableUndisturbedRun (sys.step err files acquire turn.1 turn.2) schedule
    inferInstanceAs (Decidable (_ ∧ _))

/-- The system before the first step. -/
def System.start (cache : γ) (progs : ι → FileProg ε α) : System ι ε α γ :=
  { shared := { cache, cursor := fun _ => 0, mover := fun _ => none, nextToken := 0 }
    procs := fun i => ⟨progs i, none⟩ }

/-! ### The steps a program takes alone -/

/-- A bound on the steps of a program along its run alone: one for each operation, and one for
each byte a refill may bring alone. -/
def FileProg.steps : FileProg ε α → FileProg.Cursor → Nat
  | .pure _, _ => 0
  | .throw _, _ => 0
  | .openFile name next, _ =>
    match files name with
    | some file => next.steps (file, 0) + 1
    | none => 1
  | .seek target next, (file, _) =>
    match seekPos file.length target with
    | some pos => next.steps (file, pos) + 1
    | none => 1
  | .read n next, (file, pos) =>
    if n ≤ (file.drop pos).length then
      (next ((file.drop pos).take n)).steps (file, pos + n) + n + 1
    else n + 1

/-! ### One step of one program -/

/-- The contents of the open file, nothing before the first open. -/
def Proc.file (p : Proc ε α) : Bytes := (p.handle.map Handle.file).getD []

/-- The bytes read ahead. -/
def Proc.buffer (p : Proc ε α) : Bytes := (p.handle.map Handle.buffer).getD []

/-- The bytes read ahead that the next operation will take. -/
def Proc.pending (p : Proc ε α) : Nat :=
  match p.prog with
  | .read n _ => min p.buffer.length n
  | _ => 0

/-- The program is where a run alone would be: from some position in its file it still has the
given result, its buffer holds the bytes at that position, and the cursor is behind the buffer if
its handle moved it last. It has at most `budget` steps left. -/
def Consistent (s : Shared γ) (result : Except ε α) (budget : Nat) (p : Proc ε α) : Prop :=
  ∃ pos, (FileProg.run err files p.prog (p.file, pos)).map Prod.fst = result ∧
    p.buffer = (p.file.drop pos).take p.buffer.length ∧
    (∀ h, p.handle = some h → s.mover h.fd = some h.token →
      s.cursor h.fd = pos + h.buffer.length) ∧
    p.prog.steps files (p.file, pos) ≤ budget + p.pending

variable {err files acquire}

omit [DecidableEq ι] in
/-- An undisturbed step of a program that has not ended keeps it consistent and uses up one step
of its budget. -/
theorem Consistent.step {s : Shared γ} {result : Except ε α} {budget : Nat} {p : Proc ε α}
    (hmover : ∀ fd token, s.mover fd = some token → token < s.nextToken)
    (h : Consistent err files s result (budget + 1) p) (hundisturbed : Undisturbed p s)
    (hrunning : p.outcome = none) (count : Nat) :
    Consistent err files (stepProc err files acquire count p s).2 result budget
      (stepProc err files acquire count p s).1 := by
  obtain ⟨prog, handle⟩ := p
  obtain ⟨pos, hrun, hbuffer, hcursor, hsteps⟩ := h
  cases prog with
  | pure a => cases hrunning
  | throw e => cases hrunning
  | openFile name next =>
    simp only [FileProg.run, FileProg.steps, Proc.pending] at hrun hsteps
    simp only [stepProc]
    cases hfile : files name with
    | none =>
      simp only [hfile] at hrun
      exact ⟨pos, hrun, hbuffer, hcursor, Nat.zero_le _⟩
    | some file =>
      simp only [hfile] at hrun hsteps
      refine ⟨0, hrun, rfl, fun h hh hm => ?_, ?_⟩
      · -- the new handle has moved no cursor yet: its token is fresh
        obtain rfl := Option.some.inj hh
        exact absurd (hmover _ _ hm) (lt_irrefl _)
      · show next.steps files (file, 0) ≤ _
        omega
  | seek target next =>
    simp only [FileProg.run, FileProg.steps, Proc.pending] at hrun hsteps
    cases handle with
    | none =>
      have hlength : (Proc.mk (FileProg.seek target next) none).file.length = 0 := rfl
      simp only [hlength] at hrun hsteps
      simp only [stepProc]
      cases hpos : FileProg.seekPos 0 target with
      | none =>
        simp only [hpos] at hrun
        exact ⟨pos, hrun, rfl, (fun _ hh => by cases hh), Nat.zero_le _⟩
      | some target' =>
        simp only [hpos] at hrun hsteps
        refine ⟨target', hrun, rfl, (fun _ hh => by cases hh), ?_⟩
        show next.steps files ([], target') ≤ _
        change next.steps files ([], target') + 1 ≤ budget + 1 + 0 at hsteps
        omega
    | some h =>
      have hlength : (Proc.mk (FileProg.seek target next) (some h)).file.length
          = h.file.length := rfl
      simp only [hlength] at hrun hsteps
      simp only [stepProc]
      cases hpos : FileProg.seekPos h.file.length target with
      | none =>
        simp only [hpos] at hrun
        exact ⟨pos, hrun, hbuffer, hcursor, Nat.zero_le _⟩
      | some target' =>
        simp only [hpos] at hrun hsteps
        refine ⟨target', hrun, rfl, fun h' hh _ => ?_, ?_⟩
        · obtain rfl := Option.some.inj hh
          show (if h.fd = h.fd then target' else s.cursor h.fd) = target' + 0
          rw [if_pos rfl, Nat.add_zero]
        · show next.steps files (h.file, target') ≤ _
          change next.steps files (h.file, target') + 1 ≤ budget + 1 + 0 at hsteps
          omega
  | read n next =>
    cases handle with
    | none =>
      have hdrop : (Proc.mk (FileProg.read n next) none).file.drop pos = [] :=
        List.drop_nil
      simp only [FileProg.run, FileProg.steps, hdrop, List.length_nil, Nat.le_zero] at hrun hsteps
      simp only [stepProc]
      by_cases hn : n = 0
      · simp only [if_pos hn, List.take_nil] at hrun hsteps ⊢
        refine ⟨pos + n, hrun, rfl, (fun _ hh => by cases hh), ?_⟩
        change (next []).steps files ([], pos + n) + n + 1 ≤ budget + 1 + min 0 n at hsteps
        show (next []).steps files ([], pos + n) ≤ _
        omega
      · simp only [if_neg hn] at hrun ⊢
        exact ⟨pos, hrun, rfl, (fun _ hh => by cases hh), Nat.zero_le _⟩
    | some h =>
      change h.buffer = (h.file.drop pos).take h.buffer.length at hbuffer
      have hahead : h.buffer.length ≤ (h.file.drop pos).length := by
        have hlen := congrArg List.length hbuffer
        rw [List.length_take] at hlen
        omega
      change ((if n ≤ (h.file.drop pos).length then _ else _ : Except ε (α × FileProg.Cursor)).map
        Prod.fst) = result at hrun
      change (if n ≤ (h.file.drop pos).length then _ else _ : Nat)
        ≤ budget + 1 + min h.buffer.length n at hsteps
      simp only [stepProc]
      by_cases hn : n ≤ h.buffer.length
      · -- the buffer holds the next `n` bytes: no shared state is touched
        have hlong : n ≤ (h.file.drop pos).length := le_trans hn hahead
        have htake : h.buffer.take n = (h.file.drop pos).take n := by
          rw [hbuffer, List.take_take, Nat.min_eq_left hn]
        have hdrop : h.buffer.drop n
            = (h.file.drop (pos + n)).take (h.buffer.length - n) := by
          conv_lhs => rw [hbuffer]
          rw [List.drop_take, List.drop_drop]
        rw [if_pos hlong] at hrun hsteps
        change (next ((h.file.drop pos).take n)).steps files (h.file, pos + n) + n + 1 ≤ _ at hsteps
        simp only [if_pos hn]
        refine ⟨pos + n, ?_, ?_, fun h' hh hm => ?_, ?_⟩
        · show (FileProg.run err files (next (h.buffer.take n)) (h.file, pos + n)).map Prod.fst = _
          rw [htake]
          exact hrun
        · show h.buffer.drop n = (h.file.drop (pos + n)).take (h.buffer.drop n).length
          rw [List.length_drop]
          exact hdrop
        · obtain rfl := Option.some.inj hh
          have hc := hcursor h rfl hm
          show s.cursor h.fd = pos + n + (h.buffer.drop n).length
          rw [hc, List.length_drop]
          omega
        · show (next (h.buffer.take n)).steps files (h.file, pos + n) ≤ _
          rw [htake]
          omega
      · -- a refill: its own handle moved the cursor last, so the cursor is behind the buffer
        have hc : s.cursor h.fd = pos + h.buffer.length := by
          rcases hundisturbed with hle | hm
          · exact absurd hle hn
          · exact hcursor h rfl hm
        simp only [if_neg hn]
        by_cases hchunk : (h.file.drop (s.cursor h.fd)).take (count + 1) = []
        · have hend : ¬ n ≤ (h.file.drop pos).length := by
            have hlen := congrArg List.length hchunk
            rw [hc, List.length_take, List.length_drop, List.length_nil] at hlen
            rw [List.length_drop]
            omega
          rw [if_neg hend] at hrun
          simp only [if_pos hchunk]
          refine ⟨pos, hrun, hbuffer, fun h' hh hm => ?_, Nat.zero_le _⟩
          obtain rfl := Option.some.inj hh
          exact hc
        · have hpos : 0 < ((h.file.drop (s.cursor h.fd)).take (count + 1)).length :=
            List.length_pos_iff.mpr hchunk
          have hlonger : h.buffer ++ (h.file.drop (s.cursor h.fd)).take (count + 1)
              = (h.file.drop pos).take (h.buffer.length + (count + 1)) := by
            have hsplit : (h.file.drop pos).take (h.buffer.length + (count + 1))
                = (h.file.drop pos).take h.buffer.length ++
                  ((h.file.drop pos).drop h.buffer.length).take (count + 1) := List.take_add
            rw [hsplit, ← hbuffer, List.drop_drop, hc]
          simp only [if_neg hchunk]
          refine ⟨pos, hrun, ?_, fun h' hh _ => ?_, ?_⟩
          · show h.buffer ++ _ = (h.file.drop pos).take (h.buffer ++ _).length
            rw [hlonger, List.length_take, List.take_eq_take_iff]
            omega
          · obtain rfl := Option.some.inj hh
            show (if h.fd = h.fd then _ else _) = pos + (h.buffer ++ _).length
            rw [if_pos rfl, List.length_append, hc]
            omega
          · show (if n ≤ (h.file.drop pos).length then _ else _ : Nat)
              ≤ budget + min (h.buffer ++ _).length n
            rw [List.length_append]
            refine le_trans hsteps ?_
            omega

omit [DecidableEq ι] in
/-- A program with no steps left has ended. -/
theorem Consistent.ended {s : Shared γ} {result : Except ε α} {p : Proc ε α}
    (h : Consistent err files s result 0 p) : p.outcome ≠ none := by
  obtain ⟨prog, handle⟩ := p
  obtain ⟨pos, -, -, -, hsteps⟩ := h
  cases prog with
  | pure a => simp [Proc.outcome]
  | throw e => simp [Proc.outcome]
  | openFile name next =>
    simp only [FileProg.steps, Proc.pending] at hsteps
    split at hsteps <;> omega
  | seek target next =>
    simp only [FileProg.steps, Proc.pending] at hsteps
    split at hsteps <;> omega
  | read n next =>
    simp only [FileProg.steps, Proc.pending] at hsteps
    split at hsteps <;> omega

omit [DecidableEq ι] in
/-- A program that has ended returned the result of its run alone. -/
theorem Consistent.outcome_eq {s : Shared γ} {result r : Except ε α} {budget : Nat} {p : Proc ε α}
    (h : Consistent err files s result budget p) (hended : p.outcome = some r) : r = result := by
  obtain ⟨prog, handle⟩ := p
  obtain ⟨pos, hrun, -, -, -⟩ := h
  cases prog with
  | pure a =>
    rw [← Option.some.inj hended]
    exact hrun
  | throw e =>
    rw [← Option.some.inj hended]
    exact hrun
  | openFile name next => cases hended
  | seek target next => cases hended
  | read n next => cases hended

omit [DecidableEq ι] in
/-- A program that has ended stays as it is, with any budget. -/
theorem Consistent.of_ended {s : Shared γ} {result : Except ε α} {budget budget' : Nat}
    {p : Proc ε α} (h : Consistent err files s result budget p) (hended : p.outcome ≠ none)
    (count : Nat) : stepProc err files acquire count p s = (p, s) ∧
      Consistent err files s result budget' p := by
  obtain ⟨prog, handle⟩ := p
  obtain ⟨pos, hrun, hbuffer, hcursor, -⟩ := h
  cases prog with
  | pure a => exact ⟨rfl, pos, hrun, hbuffer, hcursor, Nat.zero_le _⟩
  | throw e => exact ⟨rfl, pos, hrun, hbuffer, hcursor, Nat.zero_le _⟩
  | openFile name next => exact absurd rfl hended
  | seek target next => exact absurd rfl hended
  | read n next => exact absurd rfl hended

/-! ### The system -/

/-- What a step does to the shared part and to the handle of the program: it opens a handle with
a fresh token, it moves the cursor of its own description, or it touches nothing shared. -/
inductive Effect (p : Proc ε α) (s : Shared γ) : Proc ε α × Shared γ → Prop where
  | opened (p' : Proc ε α) (h : Handle) (cache : γ) (hhandle : p'.handle = some h)
      (htoken : h.token = s.nextToken) :
      Effect p s (p', { s with cache, nextToken := s.nextToken + 1 })
  | moved (p' : Proc ε α) (h : Handle) (buffer : Bytes) (pos : Nat) (hbefore : p.handle = some h)
      (hafter : p'.handle = some { h with buffer }) : Effect p s (p', s.moveCursor h pos)
  | quiet (p' : Proc ε α) (hsame : ∀ h', p'.handle = some h' →
      ∃ h, p.handle = some h ∧ h'.token = h.token) : Effect p s (p', s)

omit [DecidableEq ι] in
theorem stepProc_effect (count : Nat) (p : Proc ε α) (s : Shared γ) :
    Effect p s (stepProc err files acquire count p s) := by
  have hkeep : ∀ {q : Proc ε α}, q.handle = p.handle → Effect p s (q, s) := fun {q} hq =>
    .quiet q fun h' hh => ⟨h', by rw [← hq, hh], rfl⟩
  obtain ⟨prog, handle⟩ := p
  cases prog with
  | pure a => exact hkeep rfl
  | throw e => exact hkeep rfl
  | openFile name next =>
    simp only [stepProc]
    cases files name with
    | none => exact hkeep rfl
    | some file => exact .opened _ _ _ rfl rfl
  | seek target next =>
    cases handle with
    | none =>
      simp only [stepProc]
      cases FileProg.seekPos 0 target with
      | none => exact hkeep rfl
      | some pos => exact hkeep rfl
    | some h =>
      simp only [stepProc]
      cases FileProg.seekPos h.file.length target with
      | none => exact hkeep rfl
      | some pos => exact .moved _ h [] pos rfl rfl
  | read n next =>
    cases handle with
    | none =>
      simp only [stepProc]
      split <;> exact hkeep rfl
    | some h =>
      simp only [stepProc]
      split
      · refine .quiet _ fun h' hh => ⟨h, rfl, ?_⟩
        rw [← Option.some.inj hh]
      · split
        · exact hkeep rfl
        · exact .moved _ h _ _ rfl rfl

/-- Tokens are handed out once, and every program is where a run alone would be. -/
structure System.Inv (err : FileErrors ε) (files : String → Option Bytes)
    (progs : ι → FileProg ε α) (budget : ι → Nat) (sys : System ι ε α γ) : Prop where
  handleToken : ∀ i h, (sys.procs i).handle = some h → h.token < sys.shared.nextToken
  moverToken : ∀ fd token, sys.shared.mover fd = some token → token < sys.shared.nextToken
  distinct : ∀ i j h h', i ≠ j → (sys.procs i).handle = some h → (sys.procs j).handle = some h' →
    h.token ≠ h'.token
  consistent : ∀ i, Consistent err files sys.shared (FileProg.result err files (progs i))
    (budget i) (sys.procs i)

omit [DecidableEq ι] in
theorem System.start_inv (cache : γ) (progs : ι → FileProg ε α) :
    (System.start cache progs).Inv err files progs
      fun i => (progs i).steps files ([], 0) where
  handleToken _ _ hh := by cases hh
  moverToken _ _ hm := by cases hm
  distinct _ _ _ _ _ hh := by cases hh
  consistent _ := ⟨0, rfl, rfl, (fun _ hh => by cases hh), Nat.le_add_right _ _⟩

omit [DecidableEq ι] in
/-- A step of another program keeps a program consistent: where it moved a shared cursor, it is
now the one that moved it last. -/
theorem Consistent.frame {s : Shared γ} {result : Except ε α} {budget : Nat} {p q : Proc ε α}
    {r : Proc ε α × Shared γ} (heffect : Effect p s r) (h : Consistent err files s result budget q)
    (hdistinct : ∀ hp hq, p.handle = some hp → q.handle = some hq → hp.token ≠ hq.token) :
    Consistent err files r.2 result budget q := by
  obtain ⟨pos, hrun, hbuffer, hcursor, hsteps⟩ := h
  refine ⟨pos, hrun, hbuffer, ?_, hsteps⟩
  intro hq hhq hm
  cases heffect with
  | opened p' hnew cache hhandle htoken => exact hcursor hq hhq hm
  | quiet p' hsame => exact hcursor hq hhq hm
  | moved p' hp buffer at_ hbefore hafter =>
    by_cases hfd : hq.fd = hp.fd
    · have htoken : hp.token = hq.token := by
        simpa [Shared.moveCursor, hfd] using hm
      exact absurd htoken (hdistinct hp hq hbefore hhq)
    · have hsame : s.mover hq.fd = some hq.token := by
        simpa [Shared.moveCursor, hfd] using hm
      have hcur : (s.moveCursor hp at_).cursor hq.fd = s.cursor hq.fd := if_neg hfd
      rw [hcur]
      exact hcursor hq hhq hsame

/-- An undisturbed step keeps the invariant and uses up a step of the program that ran. -/
theorem System.Inv.step {progs : ι → FileProg ε α} {budget : ι → Nat} {sys : System ι ε α γ}
    (hinv : sys.Inv err files progs budget) {i : ι}
    (hundisturbed : Undisturbed (sys.procs i) sys.shared) (count : Nat) :
    (sys.step err files acquire i count).Inv err files progs
      fun j => if j = i then budget i - 1 else budget j := by
  have heffect : Effect (sys.procs i) sys.shared
      (stepProc err files acquire count (sys.procs i) sys.shared) := stepProc_effect count _ _
  have hown : Consistent err files (stepProc err files acquire count (sys.procs i) sys.shared).2
      (FileProg.result err files (progs i)) (budget i - 1)
      (stepProc err files acquire count (sys.procs i) sys.shared).1 := by
    by_cases hended : (sys.procs i).outcome = none
    · cases hbudget : budget i with
      | zero =>
        have hcons := hinv.consistent i
        rw [hbudget] at hcons
        exact absurd hended hcons.ended
      | succ b =>
        have hcons := hinv.consistent i
        rw [hbudget] at hcons
        exact hcons.step hinv.moverToken hundisturbed hended count
    · obtain ⟨hstep, hcons⟩ := @Consistent.of_ended ε α γ err files acquire _ _ _ (budget i - 1) _
        (hinv.consistent i) hended count
      rw [hstep]
      exact hcons
  have hother : ∀ j, j ≠ i → Consistent err files
      (stepProc err files acquire count (sys.procs i) sys.shared).2
      (FileProg.result err files (progs j)) (budget j) (sys.procs j) := fun j hj =>
    (hinv.consistent j).frame heffect fun hp hq hhp hhq =>
      hinv.distinct i j hp hq (Ne.symm hj) hhp hhq
  unfold System.step
  generalize stepProc err files acquire count (sys.procs i) sys.shared = r at heffect hown hother
  have hconsistent : ∀ j, Consistent err files r.2 (FileProg.result err files (progs j))
      (if j = i then budget i - 1 else budget j) (if j = i then r.1 else sys.procs j) := by
    intro j
    by_cases hj : j = i
    · rw [if_pos hj, if_pos hj, hj]
      exact hown
    · rw [if_neg hj, if_neg hj]
      exact hother j hj
  cases heffect with
  | opened p' hnew cache hhandle htoken =>
    refine ⟨fun j h hh => ?_, fun fd token hm => ?_, fun j k h h' hjk hh hh' => ?_, hconsistent⟩
    · simp only at hh
      split at hh
      · rw [hhandle] at hh
        rw [← Option.some.inj hh, htoken]
        exact Nat.lt_succ_self _
      · exact Nat.lt_succ_of_lt (hinv.handleToken j h hh)
    · exact Nat.lt_succ_of_lt (hinv.moverToken fd token hm)
    · -- the fresh token is above every token handed out before
      simp only at hh hh'
      split at hh
      · rename_i hj
        rw [hhandle] at hh
        have hk : k ≠ i := fun hk => hjk (hj.trans hk.symm)
        rw [if_neg hk] at hh'
        have hlt := hinv.handleToken k h' hh'
        rw [← Option.some.inj hh, htoken]
        omega
      · split at hh'
        · rw [hhandle] at hh'
          have hlt := hinv.handleToken j h hh
          rw [← Option.some.inj hh', htoken]
          omega
        · exact hinv.distinct j k h h' hjk hh hh'
  | moved p' hp buffer at_ hbefore hafter =>
    have htoken : ∀ j h, (if j = i then p' else sys.procs j).handle = some h →
        ∃ h₀, (sys.procs j).handle = some h₀ ∧ h.token = h₀.token := by
      intro j h hh
      split at hh
      · rename_i hj
        rw [hafter] at hh
        exact ⟨hp, by rw [hj, hbefore], by rw [← Option.some.inj hh]⟩
      · exact ⟨h, hh, rfl⟩
    refine ⟨fun j h hh => ?_, fun fd token hm => ?_, fun j k h h' hjk hh hh' => ?_, hconsistent⟩
    · obtain ⟨h₀, hh₀, ht⟩ := htoken j h hh
      rw [ht]
      exact hinv.handleToken j h₀ hh₀
    · by_cases hfd : fd = hp.fd
      · have ht : hp.token = token := by simpa [Shared.moveCursor, hfd] using hm
        rw [← ht]
        exact hinv.handleToken i hp hbefore
      · have hm' : sys.shared.mover fd = some token := by
          simpa [Shared.moveCursor, hfd] using hm
        exact hinv.moverToken fd token hm'
    · obtain ⟨h₀, hh₀, ht⟩ := htoken j h hh
      obtain ⟨h₁, hh₁, ht'⟩ := htoken k h' hh'
      rw [ht, ht']
      exact hinv.distinct j k h₀ h₁ hjk hh₀ hh₁
  | quiet p' hsame =>
    have htoken : ∀ j h, (if j = i then p' else sys.procs j).handle = some h →
        ∃ h₀, (sys.procs j).handle = some h₀ ∧ h.token = h₀.token := by
      intro j h hh
      split at hh
      · rename_i hj
        rw [hj]
        exact hsame h hh
      · exact ⟨h, hh, rfl⟩
    refine ⟨fun j h hh => ?_, hinv.moverToken, fun j k h h' hjk hh hh' => ?_, hconsistent⟩
    · obtain ⟨h₀, hh₀, ht⟩ := htoken j h hh
      rw [ht]
      exact hinv.handleToken j h₀ hh₀
    · obtain ⟨h₀, hh₀, ht⟩ := htoken j h hh
      obtain ⟨h₁, hh₁, ht'⟩ := htoken k h' hh'
      rw [ht, ht']
      exact hinv.distinct j k h₀ h₁ hjk hh₀ hh₁

/-- The invariant along an undisturbed run: every turn of a program uses up one of its steps. -/
theorem System.Inv.run {progs : ι → FileProg ε α} {budget : ι → Nat} {sys : System ι ε α γ}
    (hinv : sys.Inv err files progs budget) {schedule : List (ι × Nat)}
    (hundisturbed : UndisturbedRun err files acquire sys schedule) :
    (sys.run err files acquire schedule).Inv err files progs
      fun j => budget j - (schedule.map Prod.fst).count j := by
  induction schedule generalizing sys budget with
  | nil => exact hinv
  | cons turn schedule ih =>
    have hnext := ih (hinv.step hundisturbed.1 turn.2) hundisturbed.2
    have hbudget : (fun j => budget j - ((turn :: schedule).map Prod.fst).count j)
        = fun j => (if j = turn.1 then budget turn.1 - 1 else budget j) -
          (schedule.map Prod.fst).count j := by
      funext j
      rw [List.map_cons, List.count_cons]
      by_cases hj : j = turn.1
      · rw [if_pos hj, hj, if_pos (beq_self_eq_true turn.1)]
        omega
      · rw [if_neg hj, if_neg (by simpa using Ne.symm hj)]
        omega
    rw [hbudget]
    exact hnext

/-- In every run whose refills are all undisturbed, a program that has ended returned what it
returns alone, and a program with enough turns has ended. -/
theorem outcome_of_undisturbed (cache : γ) (progs : ι → FileProg ε α) {schedule : List (ι × Nat)}
    (hundisturbed : UndisturbedRun err files acquire (System.start cache progs) schedule) (i : ι) :
    (∀ r, (((System.start cache progs).run err files acquire schedule).procs i).outcome = some r →
      r = FileProg.result err files (progs i)) ∧
    ((progs i).steps files ([], 0) ≤ (schedule.map Prod.fst).count i →
      (((System.start cache progs).run err files acquire schedule).procs i).outcome
        = some (FileProg.result err files (progs i))) := by
  have hstart : (System.start cache progs).Inv err files progs
      fun i => (progs i).steps files ([], 0) := System.start_inv cache progs
  have hinv := hstart.run hundisturbed
  have hcons := hinv.consistent i
  refine ⟨fun r hr => hcons.outcome_eq hr, fun hturns => ?_⟩
  rw [Nat.sub_eq_zero_of_le hturns] at hcons
  cases hr : (((System.start cache progs).run err files acquire schedule).procs i).outcome with
  | none => exact absurd hr hcons.ended
  | some r => rw [hcons.outcome_eq hr]

end

end CereDB.Lib
