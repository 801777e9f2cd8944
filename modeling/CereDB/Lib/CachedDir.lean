import CereDB.Lib.Disk

/-!
# `CereDB.Lib.CachedDir`: directories that a power loss sets back

A `CachedDir` is a directory as the processes see it, with the versions of it since the last sync
of the directory. A power loss brings one of these versions back, and every file that was not
synced may come back shorter or empty (`CachedDir.powerLoss`). What has survived a power loss is
durable.

`atomicWrite` is the usual way to replace a file: the contents go to a second name, which is then
renamed, and the directory is synced. `Spec.atomicWrite` says what each version of the directory
holds after it, whether it succeeded or not. The contents are not synced, so the rule says nothing
about what is left of them after a power loss.
-/

set_option autoImplicit false

namespace CereDB.Lib

namespace Io

variable {ν ε : Type} [LinearOrder ν] (err : IoErrors ε)

/-- Creates a file, or empties it, and writes the contents. -/
def write (name : ν) (bs : Bytes) : Act ε (Io ν) Unit :=
  attempt err (fun disk => disk.insert name (DurableFile.empty.append bs))
    fun written disk => disk.insert name (DurableFile.empty.append (bs.take written))

/-- Gives a file another name, in place of the file that has that name. -/
def rename (source target : ν) : Act ε (Io ν) Unit := do
  match (← get).disk[source]? with
  | none => throw err.notFound
  | some file =>
    attempt err (fun disk => (disk.erase source).insert target file) fun _ disk => disk

end Io

/-- A directory and its versions since it was last synced, newest first. -/
structure CachedDir (ν : Type) [LinearOrder ν] where
  io : Io ν
  older : List (Disk ν)

namespace CachedDir

variable {ν ε : Type} [LinearOrder ν]

instance : Planned (CachedDir ν) := ⟨fun dir => dir.io.plan⟩

/-- An empty directory. -/
def empty : CachedDir ν := ⟨⟨∅, []⟩, []⟩

/-- The versions a power loss may bring back. -/
def versions (dir : CachedDir ν) : List (Disk ν) := dir.io.disk :: dir.older

/-- A call that changes the directory leaves the version before it behind. -/
def change (x : Act ε (Io ν) Unit) : Act ε (CachedDir ν) Unit :=
  Act.zoom CachedDir.io (fun dir io => ⟨io, dir.io.disk :: dir.older⟩) x

/-- Syncs the directory, so that no older version comes back. -/
def syncDir (err : IoErrors ε) : Act ε (CachedDir ν) Unit := do
  Act.zoom CachedDir.io (fun dir io => { dir with io }) (Io.syncDir err)
  modify fun dir => { dir with older := [] }

/-- Replaces a file through a file with a temporary name. -/
def atomicWrite (err : IoErrors ε) (path temporary : ν) (bs : Bytes) :
    Act ε (CachedDir ν) Unit := do
  change (Io.write err temporary bs)
  change (Io.rename err temporary path)
  syncDir err

/-- A power loss brings a version of the directory back, and of each file the first bytes and all
synced ones. -/
def powerLoss (back : Nat) (kept : ν → Nat) (dir : CachedDir ν) : CachedDir ν where
  io := {
    disk := (dir.versions[back]?.getD dir.io.disk).map fun name file => (file.cut (kept name)).sync
    plan := [] }
  older := []

theorem mem_versions (dir : CachedDir ν) : dir.io.disk ∈ dir.versions := List.mem_cons_self

/-- The version a power loss brings back. -/
theorem powerLoss_version (back : Nat) (dir : CachedDir ν) :
    dir.versions[back]?.getD dir.io.disk ∈ dir.versions := by
  cases hversion : dir.versions[back]? with
  | none => exact dir.mem_versions
  | some version => exact List.mem_of_getElem? hversion

/-- Two versions differ in the temporary file only. -/
def SameBut (temporary : ν) (version version' : Disk ν) : Prop :=
  ∀ name, name ≠ temporary → version'[name]? = version[name]?

/-- The version in which the file is replaced. -/
structure Replaced (path temporary : ν) (bs : Bytes) (version version' : Disk ν) : Prop where
  file : version'[path]?.map DurableFile.bytes = some bs
  others : ∀ name, name ≠ temporary → name ≠ path → version'[name]? = version[name]?

end CachedDir

namespace Spec

open Act

variable {ν ε : Type} [LinearOrder ν] {C : Prop}

/-- The rule for a call that changes the directory. -/
theorem change {dir : CachedDir ν} {x : Act ε (Io ν) Unit} {Q : Unit → CachedDir ν → Prop} {E : ε → CachedDir ν → Prop}
    (h : Spec C (· = dir.io) x (fun _ io => Q () ⟨io, dir.io.disk :: dir.older⟩)
      fun e io => E e ⟨io, dir.io.disk :: dir.older⟩) :
    Spec C (· = dir) (CachedDir.change x) Q E :=
  Spec.zoom h rfl (fun _ => rfl) rfl (fun _ _ h => h) fun _ _ h => h

/-- A replaced file. When the call does not return, each version of the directory is as before,
but for the temporary file, or has the file replaced. -/
theorem atomicWrite (dir : CachedDir ν) (err : IoErrors ε) (path temporary : ν) (bs : Bytes) :
    Spec C (· = dir) (CachedDir.atomicWrite err path temporary bs)
      (fun _ dir' => dir'.older = [] ∧
        CachedDir.Replaced path temporary bs dir.io.disk dir'.io.disk)
      (fun _ dir' => ¬C ∧ ∀ version' ∈ dir'.versions,
        (∃ version ∈ dir.versions, CachedDir.SameBut temporary version version') ∨
          CachedDir.Replaced path temporary bs dir.io.disk version') := by
  have hold (version : Disk ν) (hversion : version ∈ dir.versions) :
      ∃ version₀ ∈ dir.versions, CachedDir.SameBut temporary version₀ version :=
    ⟨version, hversion, fun _ _ => rfl⟩
  have hinsert (file : DurableFile) : CachedDir.SameBut temporary dir.io.disk
      (dir.io.disk.insert temporary file) := by
    intro name hname
    rw [OrdMap.get?_insert, if_neg fun h => hname h.symm]
  unfold CachedDir.atomicWrite
  -- The contents go to the temporary file.
  refine Spec.bind (Q := fun _ dir₁ => dir₁.older = dir.versions ∧
      dir₁.io.disk = dir.io.disk.insert temporary (DurableFile.empty.append bs))
    (Spec.change (Spec.attempt (fun plan => ⟨rfl, rfl⟩) ?_)) fun _ => Spec.fix ?_
  · intro e plan written hC _
    refine ⟨hC, fun version' hversion' => .inl ?_⟩
    cases List.mem_cons.mp hversion' with
    | inl hnew => exact ⟨dir.io.disk, dir.mem_versions, by rw [hnew]; exact hinsert _⟩
    | inr hrest => exact hold version' hrest
  rintro dir₁ ⟨holder, hdisk⟩
  have hsource : dir₁.io.disk[temporary]? = some (DurableFile.empty.append bs) := by
    rw [hdisk, OrdMap.get?_insert, if_pos rfl]
  have hwritten (version' : Disk ν) (hversion' : version' ∈ dir₁.versions) :
      ∃ version ∈ dir.versions, CachedDir.SameBut temporary version version' := by
    cases List.mem_cons.mp hversion' with
    | inl hnew => exact ⟨dir.io.disk, dir.mem_versions, by rw [hnew, hdisk]; exact hinsert _⟩
    | inr hrest => exact hold version' (by rw [← holder]; exact hrest)
  have hreplaced : CachedDir.Replaced path temporary bs dir.io.disk
      ((dir₁.io.disk.erase temporary).insert path (DurableFile.empty.append bs)) := by
    constructor
    case file => rw [OrdMap.get?_insert, if_pos rfl]; rfl
    case others =>
      intro name htemporary hpath
      rw [OrdMap.get?_insert, if_neg fun h => hpath h.symm, OrdMap.get?_erase,
        if_neg fun h => htemporary h.symm, hdisk, hinsert _ name htemporary]
  -- The temporary file takes the place of the old one.
  refine Spec.bind (Q := fun _ dir₂ => dir₂.older = dir₁.versions ∧ dir₂.io.disk
      = (dir₁.io.disk.erase temporary).insert path (DurableFile.empty.append bs))
    (Spec.change (Spec.step (t := dir₁.io) (Act.exec_get _) rfl ?_)) fun _ => Spec.fix ?_
  · rw [hsource]
    refine Spec.attempt (fun plan => ⟨rfl, rfl⟩) ?_
    intro e plan written hC _
    refine ⟨hC, fun version' hversion' => .inl ?_⟩
    cases List.mem_cons.mp hversion' with
    | inl hnew => exact hwritten version' (by rw [hnew]; exact dir₁.mem_versions)
    | inr hrest => exact hwritten version' hrest
  rintro dir₂ ⟨holder₂, hdisk₂⟩
  -- The sync drops the older versions, if it succeeds.
  refine Spec.bind (Q := fun _ dir₃ => dir₃.io.disk = dir₂.io.disk)
    (Spec.zoom (Spec.syncDir (Q := fun _ io => io.disk = dir₂.io.disk)
        (E := fun _ io => ¬C ∧ io.disk = dir₂.io.disk) (fun _ => rfl) fun _ _ hC _ => ⟨hC, rfl⟩)
      rfl (fun _ => rfl) rfl (fun _ _ h => h) ?_) fun _ => Spec.fix ?_
  · rintro e io ⟨hC, hio⟩
    refine ⟨hC, fun version' hversion' => ?_⟩
    cases List.mem_cons.mp hversion' with
    | inl hnew =>
      right
      rw [hnew, hio, hdisk₂]
      exact hreplaced
    | inr hrest =>
      left
      exact hwritten version' (by rw [← holder₂]; exact hrest)
  intro dir₃ hdisk₃
  refine Spec.done rfl rfl ⟨rfl, ?_⟩
  show CachedDir.Replaced path temporary bs dir.io.disk dir₃.io.disk
  rw [hdisk₃, hdisk₂]
  exact hreplaced

end Spec

end CereDB.Lib
