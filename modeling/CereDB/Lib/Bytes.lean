import Mathlib

/-!
# `CereDB.Lib.Bytes`: fixed-width integers and readers over byte strings

A byte string is a `List UInt8`. `leBytes w n` and `beBytes w n` write the low `w` bytes of
`n`, least or most significant byte first. A value that does not fit is cut to its low
bytes, as a cast to the unsigned type of that width does. `leNat` and `beNat` read such a
string back, and `leNat_leBytes` and `beNat_beBytes` are the round trips for a value that
fits.

A `Reader ε α` consumes a prefix of a byte string. It returns a value and the unread rest,
or fails with an error of type `ε`. `readExact eof n` takes exactly `n` bytes and fails with
`eof` when fewer are left. `Reader.Parses r enc a` says that `r` consumes exactly `enc` in
front of any rest and returns `a`; its rules follow the shape of a decoder. The lemmas that end in
`_eq_ok` go the other way: what a reader that returned says about the bytes it was given.

The lexicographic order of byte strings comes from the linear order on `UInt8` declared
here.
-/

set_option autoImplicit false

namespace CereDB.Lib

/-- A byte string. -/
abbrev Bytes := List UInt8

/-- Bytes are ordered as numbers. -/
instance linearOrderUInt8 : LinearOrder UInt8 where
  le_refl := UInt8.le_refl
  le_trans _ _ _ := UInt8.le_trans
  lt_iff_le_not_ge a b := by
    simp only [UInt8.lt_iff_toNat_lt, UInt8.le_iff_toNat_le]
    omega
  le_antisymm _ _ := UInt8.le_antisymm
  le_total := UInt8.le_total
  toDecidableLE := inferInstance
  toDecidableLT := inferInstance
  toDecidableEq := inferInstance
  min_def _ _ := rfl
  max_def _ _ := rfl
  compare_eq_compareOfLessAndEq _ _ := rfl

/-! ### Fixed-width integers -/

/-- The low `w` bytes of `n`, least significant byte first. -/
def leBytes : Nat → Nat → Bytes
  | 0, _ => []
  | w + 1, n => UInt8.ofNat n :: leBytes w (n / 256)

/-- The number a byte string spells, least significant byte first. -/
def leNat : Bytes → Nat
  | [] => 0
  | b :: bs => b.toNat + 256 * leNat bs

/-- The low `w` bytes of `n`, most significant byte first. -/
def beBytes (w n : Nat) : Bytes := (leBytes w n).reverse

/-- The number a byte string spells, most significant byte first. -/
def beNat (bs : Bytes) : Nat := leNat bs.reverse

@[simp] theorem length_leBytes (w n : Nat) : (leBytes w n).length = w := by
  induction w generalizing n with
  | zero => rfl
  | succ w ih => rw [leBytes, List.length_cons, ih]

@[simp] theorem length_beBytes (w n : Nat) : (beBytes w n).length = w := by
  rw [beBytes, List.length_reverse, length_leBytes]

/-- A value that fits in `w` bytes reads back as itself. -/
theorem leNat_leBytes (w n : Nat) (h : n < 256 ^ w) : leNat (leBytes w n) = n := by
  induction w generalizing n with
  | zero =>
    rw [Nat.pow_zero] at h
    show 0 = n
    omega
  | succ w ih =>
    have hdiv : n / 256 < 256 ^ w := by
      rw [Nat.pow_succ] at h
      exact Nat.div_lt_of_lt_mul (by rw [Nat.mul_comm]; exact h)
    have hbyte : (UInt8.ofNat n).toNat = n % 256 := UInt8.toNat_ofNat' ..
    rw [leBytes, leNat, ih _ hdiv, hbyte]
    omega

/-- The big-endian round trip. -/
theorem beNat_beBytes (w n : Nat) (h : n < 256 ^ w) : beNat (beBytes w n) = n := by
  rw [beNat, beBytes, List.reverse_reverse, leNat_leBytes w n h]

theorem leNat_lt (bs : Bytes) : leNat bs < 256 ^ bs.length := by
  induction bs with
  | nil => decide
  | cons b bs ih =>
    have hbyte : b.toNat < 256 := b.toNat_lt
    rw [leNat, List.length_cons, Nat.pow_succ]
    omega

theorem beNat_lt (bs : Bytes) : beNat bs < 256 ^ bs.length := by
  rw [beNat, ← List.length_reverse]
  exact leNat_lt bs.reverse

/-- The number a byte string spells is written as that string. -/
theorem leBytes_leNat (bs : Bytes) : leBytes bs.length (leNat bs) = bs := by
  induction bs with
  | nil => rfl
  | cons b bs ih =>
    have hbyte : b.toNat < 256 := b.toNat_lt
    have hlow : UInt8.ofNat (b.toNat + 256 * leNat bs) = b := by
      apply UInt8.toNat_inj.mp
      rw [UInt8.toNat_ofNat']
      omega
    have hhigh : (b.toNat + 256 * leNat bs) / 256 = leNat bs := by omega
    rw [List.length_cons, leNat, leBytes, hlow, hhigh, ih]

theorem beBytes_beNat (bs : Bytes) : beBytes bs.length (beNat bs) = bs := by
  rw [beBytes, beNat, ← List.length_reverse, leBytes_leNat, List.reverse_reverse]

theorem beBytes_injective {w m n : Nat} (hm : m < 256 ^ w) (hn : n < 256 ^ w)
    (h : beBytes w m = beBytes w n) : m = n := by
  rw [← beNat_beBytes w m hm, h, beNat_beBytes w n hn]

/-! ### Parts of a byte string -/

/-- The part of a string between two positions, after one of its bytes was set. -/
theorem slice_set (bytes : Bytes) (pos : Nat) (byte : UInt8) (start stop : Nat) :
    ((bytes.set pos byte).take stop).drop start
      = if pos < start then (bytes.take stop).drop start
        else ((bytes.take stop).drop start).set (pos - start) byte := by
  rw [List.take_set, List.drop_set]

/-- A position in a concatenation lies in one of its parts. -/
theorem exists_part_at {α : Type} (f : α → Bytes) {as : List α} {pos : Nat}
    (h : pos < (as.flatMap f).length) : ∃ front a back, as = front ++ a :: back ∧
      (front.flatMap f).length ≤ pos ∧ pos < (front.flatMap f).length + (f a).length := by
  induction as generalizing pos with
  | nil => exact absurd h (Nat.not_lt_zero pos)
  | cons a as ih =>
    rw [List.flatMap_cons, List.length_append] at h
    by_cases hhere : pos < (f a).length
    · exact ⟨[], a, as, rfl, Nat.zero_le pos, by simpa using hhere⟩
    · have hrest : pos - (f a).length < (as.flatMap f).length := by omega
      obtain ⟨front, b, back, rfl, hle, hlt⟩ := ih hrest
      refine ⟨a :: front, b, back, rfl, ?_, ?_⟩
      · rw [List.flatMap_cons, List.length_append]
        omega
      · rw [List.flatMap_cons, List.length_append]
        omega

/-! ### Readers -/

/-- A computation that consumes a prefix of a byte string. -/
abbrev Reader (ε α : Type) := StateT Bytes (Except ε) α

section
variable {ε α β : Type}

/-- Takes exactly `n` bytes, and fails with `eof` when fewer are left. -/
def readExact (eof : ε) (n : Nat) : Reader ε Bytes := fun bs =>
  if n ≤ bs.length then .ok (bs.take n, bs.drop n) else .error eof

/-- Reads a big-endian integer of `w` bytes. -/
def readBe (eof : ε) (w : Nat) : Reader ε Nat := do
  let bs ← readExact eof w
  return beNat bs

/-- Reads a little-endian integer of `w` bytes. -/
def readLe (eof : ε) (w : Nat) : Reader ε Nat := do
  let bs ← readExact eof w
  return leNat bs

/-- One bind step: the first reader's rest feeds the second. -/
theorem Reader.bind_ok {x : Reader ε α} {f : α → Reader ε β} {bs rest : Bytes} {a : α}
    (h : x bs = .ok (a, rest)) : (x >>= f) bs = f a rest := by
  show (x bs >>= fun p => f p.1 p.2) = f a rest
  rw [h]
  rfl

/-- A failing first reader fails the bind. -/
theorem Reader.bind_error {x : Reader ε α} {f : α → Reader ε β} {bs : Bytes} {e : ε}
    (h : x bs = .error e) : (x >>= f) bs = .error e := by
  show (x bs >>= fun p => f p.1 p.2) = .error e
  rw [h]
  rfl

/-- A read of as many bytes as stand in front takes exactly those. -/
theorem readExact_append (eof : ε) (a rest : Bytes) :
    readExact eof a.length (a ++ rest) = .ok (a, rest) := by
  simp [readExact]

/-- The same with the count given by an equation. -/
theorem readExact_append_of_length (eof : ε) {n : Nat} {a : Bytes} (rest : Bytes)
    (h : a.length = n) : readExact eof n (a ++ rest) = .ok (a, rest) := by
  subst h
  exact readExact_append eof a rest

/-- A bind that returned: both readers returned. -/
theorem Reader.bind_eq_ok {x : Reader ε α} {f : α → Reader ε β} {bs rest : Bytes} {b : β}
    (h : (x >>= f) bs = .ok (b, rest)) :
    ∃ a mid, x bs = .ok (a, mid) ∧ f a mid = .ok (b, rest) := by
  cases hx : x bs with
  | error e =>
    rw [Reader.bind_error hx] at h
    cases h
  | ok r =>
    rw [Reader.bind_ok hx] at h
    exact ⟨r.1, r.2, rfl, h⟩

/-- A read that returned took the bytes in front of the rest. -/
theorem readExact_eq_ok {eof : ε} {n : Nat} {bs a rest : Bytes}
    (h : readExact eof n bs = .ok (a, rest)) : bs = a ++ rest ∧ a.length = n := by
  rw [readExact] at h
  split at h
  · rename_i hle
    obtain ⟨rfl, rfl⟩ := Prod.ext_iff.mp (Except.ok.inj h)
    exact ⟨(List.take_append_drop n bs).symm, List.length_take_of_le hle⟩
  · cases h

theorem readBe_eq_ok {eof : ε} {w n : Nat} {bs rest : Bytes}
    (h : readBe eof w bs = .ok (n, rest)) : bs = beBytes w n ++ rest ∧ n < 256 ^ w := by
  obtain ⟨a, mid, hread, hpure⟩ := Reader.bind_eq_ok h
  obtain ⟨rfl, rfl⟩ := readExact_eq_ok hread
  obtain ⟨rfl, rfl⟩ := Prod.ext_iff.mp (Except.ok.inj hpure)
  exact ⟨by rw [beBytes_beNat], beNat_lt a⟩

theorem readLe_eq_ok {eof : ε} {w n : Nat} {bs rest : Bytes}
    (h : readLe eof w bs = .ok (n, rest)) : bs = leBytes w n ++ rest ∧ n < 256 ^ w := by
  obtain ⟨a, mid, hread, hpure⟩ := Reader.bind_eq_ok h
  obtain ⟨rfl, rfl⟩ := readExact_eq_ok hread
  obtain ⟨rfl, rfl⟩ := Prod.ext_iff.mp (Except.ok.inj hpure)
  exact ⟨by rw [leBytes_leNat], leNat_lt a⟩

/-- The reader consumes exactly `enc` in front of any rest, and returns `a`. -/
def Reader.Parses (r : Reader ε α) (enc : Bytes) (a : α) : Prop :=
  ∀ rest : Bytes, r (enc ++ rest) = .ok (a, rest)

theorem Reader.Parses.pure (a : α) : Reader.Parses (Pure.pure a : Reader ε α) [] a :=
  fun _ => rfl

/-- Readers in sequence parse encodings in sequence. -/
theorem Reader.Parses.bind {r : Reader ε α} {f : α → Reader ε β} {enc enc' : Bytes} {a : α} {b : β}
    (hr : r.Parses enc a) (hf : (f a).Parses enc' b) : (r >>= f).Parses (enc ++ enc') b := by
  intro rest
  have hfirst := hr (enc' ++ rest)
  rw [List.append_assoc, Reader.bind_ok hfirst]
  exact hf rest

/-- An exact read parses any bytes of that length. -/
theorem Reader.Parses.readExact (eof : ε) {n : Nat} {enc : Bytes} (h : enc.length = n) :
    (readExact eof n).Parses enc enc :=
  fun rest => readExact_append_of_length eof rest h

/-- A big-endian integer that fits is parsed back. -/
theorem Reader.Parses.readBe (eof : ε) {w n : Nat} (h : n < 256 ^ w) :
    (readBe eof w).Parses (beBytes w n) n := by
  intro rest
  unfold CereDB.Lib.readBe
  rw [Reader.bind_ok (readExact_append_of_length eof rest (length_beBytes w n)),
    beNat_beBytes w n h]
  rfl

/-- A little-endian integer that fits is parsed back. -/
theorem Reader.Parses.readLe (eof : ε) {w n : Nat} (h : n < 256 ^ w) :
    (readLe eof w).Parses (leBytes w n) n := by
  intro rest
  unfold CereDB.Lib.readLe
  rw [Reader.bind_ok (readExact_append_of_length eof rest (length_leBytes w n)),
    leNat_leBytes w n h]
  rfl

/-- Runs a reader `n` times and lists the results. -/
def Reader.replicate (r : Reader ε α) : Nat → Reader ε (List α)
  | 0 => Pure.pure []
  | n + 1 => do
      let a ← r
      let as ← r.replicate n
      return a :: as

/-- A repeated reader that returned consumed the encodings of a list. -/
theorem Reader.replicate_eq_ok {γ : Type} {r : Reader ε α} (enc : γ → Bytes) {P : γ → Prop}
    (hr : ∀ bs a rest, r bs = .ok (a, rest) → ∃ c, bs = enc c ++ rest ∧ P c) {n : Nat}
    {bs rest : Bytes} {as : List α} (h : r.replicate n bs = .ok (as, rest)) :
    ∃ cs : List γ, bs = cs.flatMap enc ++ rest ∧ cs.length = n ∧ ∀ c ∈ cs, P c := by
  induction n generalizing bs as with
  | zero =>
    obtain ⟨rfl, rfl⟩ := Prod.ext_iff.mp (Except.ok.inj h)
    exact ⟨[], rfl, rfl, fun c hc => absurd hc List.not_mem_nil⟩
  | succ n ih =>
    obtain ⟨a, mid, hread, h⟩ := Reader.bind_eq_ok h
    obtain ⟨rest', mid', hrest, hpure⟩ := Reader.bind_eq_ok h
    obtain ⟨rfl, rfl⟩ := Prod.ext_iff.mp (Except.ok.inj hpure)
    obtain ⟨c, rfl, hc⟩ := hr bs a mid hread
    obtain ⟨cs, rfl, hlength, hcs⟩ := ih hrest
    refine ⟨c :: cs, by rw [List.flatMap_cons, List.append_assoc],
      by rw [List.length_cons, hlength], ?_⟩
    intro c' hc'
    rcases List.mem_cons.mp hc' with rfl | hc'
    · exact hc
    · exact hcs c' hc'

/-- A repeated reader parses a list of encodings, each to its value. -/
theorem Reader.Parses.replicate_map {γ : Type} {r : Reader ε α} {enc : γ → Bytes} (value : γ → α)
    {cs : List γ} (h : ∀ c ∈ cs, r.Parses (enc c) (value c)) :
    (r.replicate cs.length).Parses (cs.flatMap enc) (cs.map value) := by
  induction cs with
  | nil => exact Reader.Parses.pure []
  | cons c cs ih =>
    have htail := ih fun b hb => h b (List.mem_cons_of_mem c hb)
    have hcons := htail.bind
      (f := fun rest => (Pure.pure (value c :: rest) : Reader ε (List α)))
      (Reader.Parses.pure (value c :: cs.map value))
    rw [List.append_nil] at hcons
    rw [List.flatMap_cons]
    exact (h c List.mem_cons_self).bind hcons

/-- A repeated reader parses the encodings of a list. -/
theorem Reader.Parses.replicate {r : Reader ε α} {enc : α → Bytes} {as : List α}
    (h : ∀ a ∈ as, r.Parses (enc a) a) : (r.replicate as.length).Parses (as.flatMap enc) as := by
  have hparse := Reader.Parses.replicate_map id h
  rw [List.map_id] at hparse
  exact hparse

end

end CereDB.Lib
