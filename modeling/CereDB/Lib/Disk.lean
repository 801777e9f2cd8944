import CereDB.Lib.Act
import CereDB.Lib.Bytes
import CereDB.Lib.OrdMap

/-!
# `CereDB.Lib.Disk`: files that may lose what was not synced

A `DurableFile` holds bytes, and remembers how many of them a sync has made durable. `cut` is
what a crash may do to it: the file loses a tail, but no synced byte.

`Io ν` is a directory of such files under names of type `ν`, together with a plan that says how
each coming I/O call ends: it does all it should, or it does a part and returns an error, or the
process stops there. The empty plan lets every call succeed. `Io.attempt` is the one way a call
changes the directory.

`Spec C P x Q E` is a triple for every plan, or, when `C` holds, for every plan without a failure.
`Spec.attempt` is the rule for a call, and the other rules follow the shape of a `do` block.
-/

set_option autoImplicit false

namespace CereDB.Lib

/-- A file and how many of its bytes are durable. -/
structure DurableFile where
  bytes : Bytes
  synced : Nat
  synced_le : synced ≤ bytes.length
deriving DecidableEq

namespace DurableFile

/-- A new file. -/
def empty : DurableFile := ⟨[], 0, le_refl 0⟩

/-- More bytes at the end. -/
def append (f : DurableFile) (bs : Bytes) : DurableFile :=
  ⟨f.bytes ++ bs, f.synced, by rw [List.length_append]; exact Nat.le_add_right_of_le f.synced_le⟩

/-- Every byte becomes durable. -/
def sync (f : DurableFile) : DurableFile := ⟨f.bytes, f.bytes.length, le_refl _⟩

/-- Keeps the first `n` bytes. -/
def setLen (f : DurableFile) (n : Nat) : DurableFile :=
  ⟨f.bytes.take n, min f.synced n, by
    rw [List.length_take]
    exact le_min (min_le_right _ _) ((min_le_left _ _).trans f.synced_le)⟩

/-- A crash keeps the first `n` bytes and every durable one. -/
def cut (f : DurableFile) (n : Nat) : DurableFile :=
  ⟨f.bytes.take (max n f.synced), f.synced, by
    rw [List.length_take]
    exact le_min (le_max_right _ _) f.synced_le⟩

section
variable (f : DurableFile) (bs : Bytes) (n : Nat)

@[simp] theorem bytes_append : (f.append bs).bytes = f.bytes ++ bs := rfl

@[simp] theorem synced_append : (f.append bs).synced = f.synced := rfl

@[simp] theorem bytes_sync : f.sync.bytes = f.bytes := rfl

@[simp] theorem synced_sync : f.sync.synced = f.bytes.length := rfl

@[simp] theorem bytes_setLen : (f.setLen n).bytes = f.bytes.take n := rfl

@[simp] theorem synced_setLen : (f.setLen n).synced = min f.synced n := rfl

@[simp] theorem bytes_cut : (f.cut n).bytes = f.bytes.take (max n f.synced) := rfl

end

end DurableFile

/-- How the environment ends an I/O call: all is done, or the call returns an error, or the
process stops. A call that writes may have written some bytes before that. -/
inductive Answer where
  | ok
  | fails (written : Nat)
  | crash (written : Nat)
deriving DecidableEq, Repr

/-- The errors of I/O calls. -/
structure IoErrors (ε : Type) where
  failed : ε
  alreadyExists : ε
  notFound : ε
  crashed : ε

/-- The files of a directory. -/
abbrev Disk (ν : Type) [LinearOrder ν] := OrdMap ν DurableFile

/-- Changes one file, if it exists. -/
def Disk.update {ν : Type} [LinearOrder ν] (disk : Disk ν) (name : ν)
    (f : DurableFile → DurableFile) : Disk ν :=
  match disk[name]? with
  | some file => disk.insert name (f file)
  | none => disk

/-- A lookup after a change of one file. -/
theorem Disk.get?_update {ν : Type} [LinearOrder ν] (disk : Disk ν) (name a : ν)
    (f : DurableFile → DurableFile) :
    (disk.update name f)[a]? = if name = a then disk[a]?.map f else disk[a]? := by
  unfold Disk.update
  by_cases hname : name = a
  · subst hname
    cases hfile : disk[name]? with
    | some file => simp
    | none => simp [hfile]
  · cases hfile : disk[name]? with
    | some file => simp [OrdMap.get?_insert, hname]
    | none => simp [hname]

/-- A change of a file that exists. -/
theorem Disk.update_of_get? {ν : Type} [LinearOrder ν] {disk : Disk ν} {name : ν}
    {file : DurableFile} (h : disk[name]? = some file) (f : DurableFile → DurableFile) :
    disk.update name f = disk.insert name (f file) := by
  rw [Disk.update, h]

/-- A directory in which every byte is durable. -/
def Disk.ofContents {ν : Type} [LinearOrder ν] (contents : OrdMap ν Bytes) : Disk ν :=
  contents.map fun _ bytes => ⟨bytes, bytes.length, le_refl _⟩

/-- What a power loss leaves: of each file the first bytes and all synced ones. -/
def Disk.powerLoss {ν : Type} [LinearOrder ν] (disk : Disk ν) (kept : ν → Nat) : Disk ν :=
  disk.map fun name file => (file.cut (kept name)).sync

theorem Disk.get?_ofContents {ν : Type} [LinearOrder ν] (contents : OrdMap ν Bytes) (name : ν) :
    (Disk.ofContents contents)[name]?
      = (contents[name]?).map fun bytes => ⟨bytes, bytes.length, le_refl _⟩ :=
  Std.ExtTreeMap.getElem?_map

theorem Disk.get?_powerLoss {ν : Type} [LinearOrder ν] (disk : Disk ν) (kept : ν → Nat) (name : ν) :
    (disk.powerLoss kept)[name]? = (disk[name]?).map fun file => (file.cut (kept name)).sync :=
  Std.ExtTreeMap.getElem?_map

/-- Every file of a directory is still there, and its bytes stand in front of what was added. -/
def Disk.Grows {ν : Type} [LinearOrder ν] (disk disk' : Disk ν) : Prop :=
  ∀ (name : ν) (file : DurableFile), disk[name]? = some file →
    ∃ file', disk'[name]? = some file' ∧ file.bytes <+: file'.bytes

section
variable {ν : Type} [LinearOrder ν]

instance : Std.Refl (Disk.Grows (ν := ν)) :=
  ⟨fun _ _ file hfile => ⟨file, hfile, List.prefix_rfl⟩⟩

instance : IsTrans (Disk ν) Disk.Grows where
  trans _ _ _ h h' name file hfile := by
    obtain ⟨file', hfile', hpre⟩ := h name file hfile
    obtain ⟨file'', hfile'', hpre'⟩ := h' name file' hfile'
    exact ⟨file'', hfile'', hpre.trans hpre'⟩

end

/-- A directory and how the coming calls end. -/
structure Io (ν : Type) [LinearOrder ν] where
  disk : Disk ν
  plan : List Answer

namespace Io

open Act

section
variable {ν ε : Type} [LinearOrder ν]

/-- How the next call ends. -/
def answer : Act ε (Io ν) Answer := do
  let io ← get
  match io.plan with
  | [] => return .ok
  | a :: plan =>
    set { io with plan }
    return a

/-- A call that changes the directory: `whole` is what it does when it succeeds, and `part` what
it may do otherwise. -/
def attempt (err : IoErrors ε) (whole : Disk ν → Disk ν) (part : Nat → Disk ν → Disk ν) :
    Act ε (Io ν) Unit := do
  match ← answer with
  | .ok => modify fun io => { io with disk := whole io.disk }
  | .fails written =>
    modify fun io => { io with disk := part written io.disk }
    throw err.failed
  | .crash written =>
    modify fun io => { io with disk := part written io.disk }
    throw err.crashed

variable (err : IoErrors ε)

/-- Creates a file that must not exist. -/
def createNew (name : ν) : Act ε (Io ν) Unit := do
  if (← get).disk[name]?.isSome then
    throw err.alreadyExists
  attempt err (fun disk => disk.insert name .empty) fun _ disk => disk

/-- Appends to a file. A call that does not succeed may have written some of the bytes. -/
def append (name : ν) (bs : Bytes) : Act ε (Io ν) Unit :=
  attempt err (fun disk => disk.update name (·.append bs))
    fun written disk => disk.update name (·.append (bs.take written))

/-- Makes the contents of a file durable. -/
def sync (name : ν) : Act ε (Io ν) Unit :=
  attempt err (fun disk => disk.update name (·.sync)) fun _ disk => disk

/-- Makes the entries of the directory durable. They are durable in this model from the start, so
only the outcome matters. -/
def syncDir : Act ε (Io ν) Unit := attempt err (fun disk => disk) fun _ disk => disk

/-- Cuts a file to its first `n` bytes. -/
def setLen (name : ν) (n : Nat) : Act ε (Io ν) Unit :=
  attempt err (fun disk => disk.update name (·.setLen n)) fun _ disk => disk

/-- Removes a file. -/
def remove (name : ν) : Act ε (Io ν) Unit :=
  attempt err (fun disk => disk.erase name) fun _ disk => disk

/-- The contents of a file. -/
def readFile (name : ν) : Act ε (Io ν) Bytes := do
  match (← get).disk[name]? with
  | some file => return file.bytes
  | none => throw err.notFound

/-- The calls that remove nothing from the directory. -/
def Grows (io io' : Io ν) : Prop := io.disk.Grows io'.disk

instance : Std.Refl (Grows (ν := ν)) := ⟨fun io => Std.Refl.refl io.disk⟩

instance : IsTrans (Io ν) Grows := ⟨fun _ _ _ h h' => IsTrans.trans (r := Disk.Grows) _ _ _ h h'⟩

variable {err}

end

end Io

/-! ### Specifications over all plans -/

/-- States that carry a plan. -/
class Planned (σ : Type) where
  plan : σ → List Answer

instance {ν : Type} [LinearOrder ν] : Planned (Io ν) := ⟨Io.plan⟩

/-- Under `C`, every coming call succeeds. With `C` true a specification says what happens when
nothing fails, and with `C` false what happens whatever fails. -/
def Calm (C : Prop) (plan : List Answer) : Prop := C → ∀ a ∈ plan, a = .ok

/-- A triple about states up to their plans, for every plan that is calm under `C`. -/
def Spec {σ ε α : Type} [Planned σ] (C : Prop) (P : σ → Prop) (x : Act ε σ α)
    (Q : α → σ → Prop) (E : ε → σ → Prop) : Prop :=
  Act.Triple (fun s => Calm C (Planned.plan s) ∧ P s) x
    (fun a s => Calm C (Planned.plan s) ∧ Q a s) fun e s => Calm C (Planned.plan s) ∧ E e s

namespace Spec

open Act

section
variable {σ τ ε α β : Type} [Planned σ] [Planned τ] {C : Prop}
variable {P : σ → Prop} {Q : α → σ → Prop} {R : β → σ → Prop} {E : ε → σ → Prop}

protected theorem pure {a : α} (h : ∀ s, P s → Q a s) : Spec C P (pure a : Act ε σ α) Q E :=
  fun s hs => ⟨hs.1, h s hs.2⟩

protected theorem throw {e : ε} (h : ∀ s, P s → E e s) : Spec C P (throw e : Act ε σ α) Q E :=
  fun s hs => ⟨hs.1, h s hs.2⟩

protected theorem bind {x : Act ε σ α} {f : α → Act ε σ β} (hx : Spec C P x Q E)
    (hf : ∀ a, Spec C (Q a) (f a) R E) : Spec C P (x >>= f) R E :=
  Triple.bind hx hf

theorem conseq {P' : σ → Prop} {Q' : α → σ → Prop} {E' : ε → σ → Prop} {x : Act ε σ α}
    (h : Spec C P x Q E) (hP : ∀ s, P' s → P s) (hQ : ∀ a s, Q a s → Q' a s)
    (hE : ∀ e s, E e s → E' e s) : Spec C P' x Q' E' :=
  Triple.conseq h (fun s hs => ⟨hs.1, hP s hs.2⟩) (fun a s hs => ⟨hs.1, hQ a s hs.2⟩)
    fun e s hs => ⟨hs.1, hE e s hs.2⟩

/-- It is enough to look at each state on its own. -/
theorem fix {x : Act ε σ α} (h : ∀ s₀, P s₀ → Spec C (· = s₀) x Q E) : Spec C P x Q E :=
  fun s hs => h s hs.2 s ⟨hs.1, rfl⟩

/-- A first step that does no I/O. -/
theorem step {x : Act ε σ α} {f : α → Act ε σ β} {s₀ t : σ} {a : α}
    (hexec : exec x s₀ = (.ok a, t)) (hplan : Planned.plan t = Planned.plan s₀)
    (h : Spec C (· = t) (f a) R E) : Spec C (· = s₀) (x >>= f) R E := by
  intro s hs
  obtain ⟨hcalm, rfl⟩ := hs
  rw [exec_bind_ok hexec]
  exact h t ⟨by rw [hplan]; exact hcalm, rfl⟩

/-- The last step, without I/O. -/
theorem done {x : Act ε σ α} {s₀ t : σ} {a : α} (hexec : exec x s₀ = (.ok a, t))
    (hplan : Planned.plan t = Planned.plan s₀) (h : Q a t) : Spec C (· = s₀) x Q E := by
  intro s hs
  obtain ⟨hcalm, rfl⟩ := hs
  rw [hexec]
  exact ⟨by rw [hplan]; exact hcalm, h⟩

/-- A step that stops without I/O. -/
theorem stop {x : Act ε σ α} {s₀ t : σ} {e : ε} (hexec : exec x s₀ = (.error e, t))
    (hplan : Planned.plan t = Planned.plan s₀) (h : E e t) : Spec C (· = s₀) x Q E := by
  intro s hs
  obtain ⟨hcalm, rfl⟩ := hs
  rw [hexec]
  exact ⟨by rw [hplan]; exact hcalm, h⟩

/-- A computation on a part of the state that holds the plan. -/
theorem zoom {part : σ → τ} {put : σ → τ → σ} {x : Act ε τ α} {s₀ : σ} {P' : τ → Prop}
    {Q' : α → τ → Prop} {E' : ε → τ → Prop} (hx : Spec C P' x Q' E')
    (hpart : Planned.plan (part s₀) = Planned.plan s₀)
    (hput : ∀ t, Planned.plan (put s₀ t) = Planned.plan t) (hP : P' (part s₀))
    (hQ : ∀ a t, Q' a t → Q a (put s₀ t)) (hE : ∀ e t, E' e t → E e (put s₀ t)) :
    Spec C (· = s₀) (Act.zoom part put x) Q E := by
  intro s hs
  obtain ⟨hcalm, rfl⟩ := hs
  have hpost := hx (part s) ⟨by rw [hpart]; exact hcalm, hP⟩
  rw [exec_zoom]
  cases hexec : exec x (part s) with
  | mk r t =>
    rw [hexec] at hpost
    cases r with
    | ok a => exact ⟨by rw [hput]; exact hpost.1, hQ a t hpost.2⟩
    | error e => exact ⟨by rw [hput]; exact hpost.1, hE e t hpost.2⟩

/-- What a specification says about any run. -/
theorem outcome {x : Act ε σ α} (h : Spec False P x Q E) {s : σ} (hs : P s) :
    (∃ a s', exec x s = (.ok a, s') ∧ Q a s') ∨ ∃ e s', exec x s = (.error e, s') ∧ E e s' := by
  have hpost := h s ⟨fun hC => hC.elim, hs⟩
  cases hexec : exec x s with
  | mk r s' =>
    rw [hexec] at hpost
    cases r with
    | ok a => exact .inl ⟨a, s', rfl, hpost.2⟩
    | error e => exact .inr ⟨e, s', rfl, hpost.2⟩

/-- What a specification says about a run in which nothing fails. -/
theorem ok_of_calm {x : Act ε σ α} (h : Spec True P x Q E) (hE : ∀ e s, ¬E e s) {s : σ}
    (hplan : Planned.plan s = []) (hs : P s) : ∃ a s', exec x s = (.ok a, s') ∧ Q a s' := by
  have hcalm : Calm True (Planned.plan s) := by
    rw [hplan]
    intro _ a ha
    cases ha
  have hpost := h s ⟨hcalm, hs⟩
  cases hexec : exec x s with
  | mk r s' =>
    rw [hexec] at hpost
    cases r with
    | ok a => exact ⟨a, s', rfl, hpost.2⟩
    | error e => exact (hE e s' hpost.2).elim

end

section
variable {ν ε : Type} [LinearOrder ν] {err : IoErrors ε} {C : Prop}
variable {Q : Unit → Io ν → Prop} {E : ε → Io ν → Prop} {io : Io ν}

/-- The rule for a call: what holds when all is done, and what holds when it stopped on the
way, which is only possible when not all calls succeed. -/
theorem attempt {whole : Disk ν → Disk ν} {part : Nat → Disk ν → Disk ν}
    (hok : ∀ plan, Q () { disk := whole io.disk, plan })
    (hfail : ∀ e plan written, ¬C → e = err.failed ∨ e = err.crashed →
      E e { disk := part written io.disk, plan }) :
    Spec C (· = io) (Io.attempt err whole part) Q E := by
  intro s hs
  obtain ⟨hcalm, rfl⟩ := hs
  obtain ⟨disk, plan⟩ := s
  cases plan with
  | nil => exact ⟨hcalm, hok []⟩
  | cons a plan =>
    have hrest : Calm C plan := fun hC b hb => hcalm hC b (List.mem_cons_of_mem a hb)
    -- A calm plan starts with a call that succeeds.
    have hnot (ha : a ≠ .ok) : ¬C := fun hC => ha (hcalm hC a List.mem_cons_self)
    cases a with
    | ok => exact ⟨hrest, hok plan⟩
    | fails written => exact ⟨hrest, hfail _ plan written (hnot (by simp)) (.inl rfl)⟩
    | crash written => exact ⟨hrest, hfail _ plan written (hnot (by simp)) (.inr rfl)⟩

theorem createNew {name : ν} (hnew : io.disk[name]? = none)
    (hok : ∀ plan, Q () { disk := io.disk.insert name .empty, plan })
    (hfail : ∀ e plan, ¬C → e = err.failed ∨ e = err.crashed → E e { disk := io.disk, plan }) :
    Spec C (· = io) (Io.createNew err name) Q E := by
  refine Spec.step (t := io) (Act.exec_get io) rfl ?_
  rw [if_neg (by simp [hnew])]
  exact Spec.attempt hok fun e plan _ => hfail e plan

theorem append {name : ν} {file : DurableFile} {bs : Bytes} (hfile : io.disk[name]? = some file)
    (hok : ∀ plan, Q () { disk := io.disk.insert name (file.append bs), plan })
    (hfail : ∀ e plan written, ¬C → e = err.failed ∨ e = err.crashed →
      E e { disk := io.disk.insert name (file.append (bs.take written)), plan }) :
    Spec C (· = io) (Io.append err name bs) Q E := by
  refine Spec.attempt (fun plan => ?_) fun e plan written hC he => ?_
  · rw [Disk.update_of_get? hfile]
    exact hok plan
  · rw [Disk.update_of_get? hfile]
    exact hfail e plan written hC he

theorem sync {name : ν} {file : DurableFile} (hfile : io.disk[name]? = some file)
    (hok : ∀ plan, Q () { disk := io.disk.insert name file.sync, plan })
    (hfail : ∀ e plan, ¬C → e = err.failed ∨ e = err.crashed → E e { disk := io.disk, plan }) :
    Spec C (· = io) (Io.sync err name) Q E := by
  refine Spec.attempt (fun plan => ?_) fun e plan _ => hfail e plan
  rw [Disk.update_of_get? hfile]
  exact hok plan

theorem setLen {name : ν} {file : DurableFile} {n : Nat} (hfile : io.disk[name]? = some file)
    (hok : ∀ plan, Q () { disk := io.disk.insert name (file.setLen n), plan })
    (hfail : ∀ e plan, ¬C → e = err.failed ∨ e = err.crashed → E e { disk := io.disk, plan }) :
    Spec C (· = io) (Io.setLen err name n) Q E := by
  refine Spec.attempt (fun plan => ?_) fun e plan _ => hfail e plan
  rw [Disk.update_of_get? hfile]
  exact hok plan

theorem syncDir (hok : ∀ plan, Q () { disk := io.disk, plan })
    (hfail : ∀ e plan, ¬C → e = err.failed ∨ e = err.crashed → E e { disk := io.disk, plan }) :
    Spec C (· = io) (Io.syncDir err) Q E :=
  Spec.attempt hok fun e plan _ => hfail e plan

end

end Spec

end CereDB.Lib
