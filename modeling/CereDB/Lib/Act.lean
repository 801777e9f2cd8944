import Mathlib

/-!
# `CereDB.Lib.Act`: stateful computations that can stop early

`Act ε σ α` reads and writes a state of type `σ` and ends in a value or stops with an `ε`. The
state is kept when it stops, so what was written before an error stays written. `Act.exec` runs
a computation, and its simp lemmas give one equation for each way to build one.

`Triple P x Q E` says that from every state in `P` the computation ends in a value and a state
related by `Q`, or stops in a state related by `E`. The rules (`Triple.bind` and the consequence
rules) take a computation apart along its `do` block.
`Keeps view x` says that a part of the state is the same after the computation, and `Moves R x`
that the state has moved along a preorder.
-/

set_option autoImplicit false

namespace CereDB.Lib

/-- A computation with a state that survives an early stop. -/
abbrev Act (ε σ α : Type) := ExceptT ε (StateM σ) α

namespace Act

variable {ε σ τ α β : Type}

/-- The outcome of a computation and the state it leaves. -/
def exec (x : Act ε σ α) (s : σ) : Except ε α × σ := x s

@[simp] theorem exec_pure (a : α) (s : σ) : exec (pure a : Act ε σ α) s = (.ok a, s) := rfl

@[simp] theorem exec_throw (e : ε) (s : σ) : exec (throw e : Act ε σ α) s = (.error e, s) := rfl

@[simp] theorem exec_get (s : σ) : exec (get : Act ε σ σ) s = (.ok s, s) := rfl

@[simp] theorem exec_set (s' s : σ) : exec (set s' : Act ε σ PUnit) s = (.ok ⟨⟩, s') := rfl

@[simp] theorem exec_modify (f : σ → σ) (s : σ) :
    exec (modify f : Act ε σ PUnit) s = (.ok ⟨⟩, f s) := rfl

/-- A sequence runs the second part in the state the first one leaves. -/
theorem exec_bind (x : Act ε σ α) (f : α → Act ε σ β) (s : σ) :
    exec (x >>= f) s = match exec x s with
      | (.ok a, s') => exec (f a) s'
      | (.error e, s') => (.error e, s') := by
  show (ExceptT.bind x f) s = _
  simp only [ExceptT.bind, ExceptT.mk, exec]
  show (ExceptT.bindCont f (x s).1) (x s).2 = _
  rcases x s with ⟨_ | _, s'⟩ <;> rfl

/-- The bind equation after a step that returned. -/
theorem exec_bind_ok {x : Act ε σ α} {f : α → Act ε σ β} {s s' : σ} {a : α}
    (h : exec x s = (.ok a, s')) : exec (x >>= f) s = exec (f a) s' := by
  rw [exec_bind, h]

/-- The bind equation after a step that stopped. -/
theorem exec_bind_error {x : Act ε σ α} {f : α → Act ε σ β} {s s' : σ} {e : ε}
    (h : exec x s = (.error e, s')) : exec (x >>= f) s = (.error e, s') := by
  rw [exec_bind, h]

/-- A sequence that returns has two parts that return. -/
theorem exec_bind_eq_ok {x : Act ε σ α} {f : α → Act ε σ β} {s s' : σ} {b : β}
    (h : exec (x >>= f) s = (.ok b, s')) :
    ∃ a t, exec x s = (.ok a, t) ∧ exec (f a) t = (.ok b, s') := by
  rw [exec_bind] at h
  cases hx : exec x s with
  | mk r t =>
    rw [hx] at h
    cases r with
    | ok a => exact ⟨a, t, rfl, h⟩
    | error e => cases h

/-- A sequence that stops does so in its first part or in its second. -/
theorem exec_bind_eq_error {x : Act ε σ α} {f : α → Act ε σ β} {s s' : σ} {e : ε}
    (h : exec (x >>= f) s = (.error e, s')) :
    exec x s = (.error e, s') ∨ ∃ a t, exec x s = (.ok a, t) ∧ exec (f a) t = (.error e, s') := by
  rw [exec_bind] at h
  cases hx : exec x s with
  | mk r t =>
    rw [hx] at h
    cases r with
    | ok a => exact .inr ⟨a, t, rfl, h⟩
    | error e' =>
      obtain ⟨he, rfl⟩ := Prod.mk.inj h
      rw [Except.error.inj he]
      exact .inl rfl

/-- A handler runs in the state the stop left. -/
theorem exec_tryCatch (x : Act ε σ α) (handler : ε → Act ε σ α) (s : σ) :
    exec (tryCatch x handler) s = match exec x s with
      | (.ok a, s') => (.ok a, s')
      | (.error e, s') => exec (handler e) s' := by
  show (ExceptT.tryCatch x handler) s = _
  simp only [ExceptT.tryCatch, ExceptT.mk, exec]
  show (match (x s).1 with
    | Except.ok a => (pure (Except.ok a) : StateM σ (Except ε α))
    | Except.error e => handler e) (x s).2 = _
  rcases x s with ⟨_ | _, s'⟩ <;> rfl

/-- A computation without state. -/
def ofExcept (r : Except ε α) : Act ε σ α := fun s => (r, s)

@[simp] theorem exec_ofExcept (r : Except ε α) (s : σ) :
    exec (ofExcept r : Act ε σ α) s = (r, s) := rfl

/-- Runs a computation on a part of the state. -/
def zoom (part : σ → τ) (put : σ → τ → σ) (x : Act ε τ α) : Act ε σ α := fun s =>
  ((exec x (part s)).1, put s (exec x (part s)).2)

@[simp] theorem exec_zoom (part : σ → τ) (put : σ → τ → σ) (x : Act ε τ α) (s : σ) :
    exec (zoom part put x) s = ((exec x (part s)).1, put s (exec x (part s)).2) := rfl

/-! ### Triples -/

/-- From every state in `P`, a value ends in `Q` and a stop in `E`. -/
def Triple (P : σ → Prop) (x : Act ε σ α) (Q : α → σ → Prop) (E : ε → σ → Prop) : Prop :=
  ∀ s, P s → match exec x s with
    | (.ok a, s') => Q a s'
    | (.error e, s') => E e s'

variable {P : σ → Prop} {Q : α → σ → Prop} {E : ε → σ → Prop}

/-- What a triple says about a run that returned. -/
theorem Triple.ok {x : Act ε σ α} (h : Triple P x Q E) {s s' : σ} {a : α} (hs : P s)
    (hexec : exec x s = (.ok a, s')) : Q a s' := by
  have hpost := h s hs
  rw [hexec] at hpost
  exact hpost

/-- What a triple says about a run that stopped. -/
theorem Triple.error {x : Act ε σ α} (h : Triple P x Q E) {s s' : σ} {e : ε} (hs : P s)
    (hexec : exec x s = (.error e, s')) : E e s' := by
  have hpost := h s hs
  rw [hexec] at hpost
  exact hpost

/-- Consequence: a stronger precondition, weaker postconditions. -/
theorem Triple.conseq {P' : σ → Prop} {Q' : α → σ → Prop} {E' : ε → σ → Prop} {x : Act ε σ α}
    (h : Triple P x Q E) (hP : ∀ s, P' s → P s) (hQ : ∀ a s, Q a s → Q' a s)
    (hE : ∀ e s, E e s → E' e s) : Triple P' x Q' E' := by
  intro s hs
  have hpost := h s (hP s hs)
  split at hpost
  · exact hQ _ _ hpost
  · exact hE _ _ hpost

theorem Triple.pure {a : α} (h : ∀ s, P s → Q a s) : Triple P (Pure.pure a : Act ε σ α) Q E :=
  fun s hs => h s hs

theorem Triple.throw {e : ε} (h : ∀ s, P s → E e s) :
    Triple P (MonadExcept.throw e : Act ε σ α) Q E :=
  fun s hs => h s hs

/-- The sequence rule, with one stop condition for both parts. -/
theorem Triple.bind {R : β → σ → Prop} {x : Act ε σ α} {f : α → Act ε σ β}
    (hx : Triple P x Q E) (hf : ∀ a, Triple (Q a) (f a) R E) : Triple P (x >>= f) R E := by
  intro s hs
  cases hexec : exec x s with
  | mk r s' =>
    cases r with
    | ok a =>
      rw [exec_bind_ok hexec]
      exact hf a s' (hx.ok hs hexec)
    | error e =>
      rw [exec_bind_error hexec]
      exact hx.error hs hexec

/-! ### Frames -/

variable {view : σ → τ}

/-- A computation leaves a part of the state alone, however it ends. -/
def Keeps (view : σ → τ) (x : Act ε σ α) : Prop := ∀ s, view (exec x s).2 = view s

theorem Keeps.pure (a : α) : Keeps view (Pure.pure a : Act ε σ α) := fun _ => rfl

theorem Keeps.throw (e : ε) : Keeps view (MonadExcept.throw e : Act ε σ α) := fun _ => rfl

theorem Keeps.get : Keeps view (MonadState.get : Act ε σ σ) := fun _ => rfl

theorem Keeps.ofExcept (r : Except ε α) : Keeps view (ofExcept r : Act ε σ α) := fun _ => rfl

theorem Keeps.bind {x : Act ε σ α} {f : α → Act ε σ β} (hx : Keeps view x)
    (hf : ∀ a, Keeps view (f a)) : Keeps view (x >>= f) := by
  intro s
  have hs := hx s
  rw [exec_bind]
  cases hexec : exec x s with
  | mk r s' =>
    rw [hexec] at hs
    cases r with
    | ok a => exact (hf a s').trans hs
    | error e => exact hs

theorem Keeps.catch {x : Act ε σ α} {handler : ε → Act ε σ α} (hx : Keeps view x)
    (hh : ∀ e, Keeps view (handler e)) : Keeps view (tryCatch x handler) := by
  intro s
  have hs := hx s
  rw [exec_tryCatch]
  cases hexec : exec x s with
  | mk r s' =>
    rw [hexec] at hs
    cases r with
    | ok a => exact hs
    | error e => exact (hh e s').trans hs

/-- What is put back does not touch the part. -/
theorem Keeps.zoom {ρ : Type} {part : σ → ρ} {put : σ → ρ → σ} {x : Act ε ρ α}
    (h : ∀ s r, view (put s r) = view s) : Keeps view (zoom part put x) := fun s => h s _

/-! ### Moves along a preorder -/

variable {R : σ → σ → Prop}

/-- A computation moves the state along `R`, however it ends. -/
def Moves (R : σ → σ → Prop) (x : Act ε σ α) : Prop := ∀ s, R s (exec x s).2

section
variable [Std.Refl R]

theorem Moves.pure (a : α) : Moves R (Pure.pure a : Act ε σ α) := fun s => Std.Refl.refl s

theorem Moves.throw (e : ε) : Moves R (MonadExcept.throw e : Act ε σ α) := fun s => Std.Refl.refl s

theorem Moves.get : Moves R (MonadState.get : Act ε σ σ) := fun s => Std.Refl.refl s

theorem Moves.ofExcept (r : Except ε α) : Moves R (ofExcept r : Act ε σ α) := fun s =>
  Std.Refl.refl s

end

theorem Moves.modify {f : σ → σ} (h : ∀ s, R s (f s)) :
    Moves R (modify f : Act ε σ PUnit) := h

theorem Moves.bind [IsTrans σ R] {x : Act ε σ α} {f : α → Act ε σ β} (hx : Moves R x)
    (hf : ∀ a, Moves R (f a)) : Moves R (x >>= f) := by
  intro s
  have hs := hx s
  rw [exec_bind]
  cases hexec : exec x s with
  | mk r s' =>
    rw [hexec] at hs
    cases r with
    | ok a => exact IsTrans.trans _ _ _ hs (hf a s')
    | error e => exact hs

/-- The part moves along its own preorder. -/
theorem Moves.zoom {ρ : Type} {S : ρ → ρ → Prop} {part : σ → ρ} {put : σ → ρ → σ} {x : Act ε ρ α}
    (hx : Moves S x) (h : ∀ s r, S (part s) r → R s (put s r)) : Moves R (zoom part put x) :=
  fun s => h s _ (hx (part s))

end Act

end CereDB.Lib
