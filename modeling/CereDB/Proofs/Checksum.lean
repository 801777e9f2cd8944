import CereDB.Storage.Base

/-!
# `CereDB.Proofs.Checksum`: CRC-32 tells apart two strings that differ in one byte

The polynomial has its top bit set, so after a shift the top bit of the register is the bit that was
shifted out, and a shift loses nothing (`crcShift_injective`). One byte therefore maps the registers
one to one (`crcByte_injective`), and so does the rest of a string behind the byte that differs.
-/

set_option autoImplicit false

namespace CereDB.Storage

open CereDB.Lib

/-- The test of a shift is that of the lowest bit. -/
theorem and_one_eq_one_iff (c : UInt32) : c &&& 1 = 1 ↔ c.toBitVec.getLsbD 0 = true := by
  rw [← UInt32.toBitVec_inj, UInt32.toBitVec_and]
  constructor
  · intro h
    have hbit := congrArg (fun bits => bits.getLsbD 0) h
    simpa using hbit
  · intro h
    apply BitVec.eq_of_getLsbD_eq
    intro i _
    cases i with
    | zero => simpa using h
    | succ i => simp

theorem toBitVec_crcShift (c : UInt32) : (crcShift c).toBitVec
    = if c.toBitVec.getLsbD 0 then (c.toBitVec >>> 1) ^^^ 0xEDB88320#32 else c.toBitVec >>> 1 := by
  rw [crcShift]
  by_cases hbit : c &&& 1 = 1
  · rw [if_pos hbit, if_pos ((and_one_eq_one_iff c).mp hbit)]
    simp
  · rw [if_neg hbit, if_neg (mt (and_one_eq_one_iff c).mpr hbit)]
    simp

/-- The bit that is shifted out comes back at the top. -/
theorem top_crcShift (c : UInt32) :
    (crcShift c).toBitVec.getLsbD 31 = c.toBitVec.getLsbD 0 := by
  rw [toBitVec_crcShift]
  cases hbit : c.toBitVec.getLsbD 0 <;> simp

theorem crcShift_injective : Function.Injective crcShift := by
  intro c d h
  have hlow : c.toBitVec.getLsbD 0 = d.toBitVec.getLsbD 0 := by
    rw [← top_crcShift, h, top_crcShift]
  have hhigh : c.toBitVec >>> 1 = d.toBitVec >>> 1 := by
    have hbits := congrArg UInt32.toBitVec h
    rw [toBitVec_crcShift, toBitVec_crcShift, hlow] at hbits
    split at hbits
    · exact (BitVec.xor_left_inj _).mp hbits
    · exact hbits
  apply UInt32.toBitVec_inj.mp
  apply BitVec.eq_of_getLsbD_eq
  intro i _
  cases i with
  | zero => exact hlow
  | succ i =>
    have hbit := congrArg (fun bits => bits.getLsbD i) hhigh
    simpa [Nat.add_comm] using hbit

/-- The register after a byte determines the register with the byte mixed in. -/
theorem xor_eq_of_crcByte {c d : UInt32} {a b : UInt8} (h : crcByte c a = crcByte d b) :
    c ^^^ a.toUInt32 = d ^^^ b.toUInt32 := by
  iterate 8 replace h := crcShift_injective h
  exact h

theorem crcByte_injective (b : UInt8) : Function.Injective fun c => crcByte c b := by
  intro c d h
  exact (UInt32.xor_left_inj _).mp (xor_eq_of_crcByte h)

theorem crcFold_cons (c : UInt32) (b : UInt8) (bs : Bytes) :
    crcFold c (b :: bs) = crcFold (crcByte c b) bs := by
  have hnumeral {α : Type} (n : Nat) (f : Nat → α) : withNumeral n f = f n := by
    cases n <;> rfl
  rw [crcFold, hnumeral, UInt32.ofNat_toNat]

theorem crcFold_append (c : UInt32) (front back : Bytes) :
    crcFold c (front ++ back) = crcFold (crcFold c front) back := by
  induction front generalizing c with
  | nil => rfl
  | cons b front ih => rw [List.cons_append, crcFold_cons, crcFold_cons, ih]

theorem crcFold_injective (bs : Bytes) : Function.Injective fun c => crcFold c bs := by
  induction bs with
  | nil => exact fun _ _ h => h
  | cons b bs ih =>
    intro c d h
    simp only [crcFold_cons] at h
    exact crcByte_injective b (ih h)

/-- Two strings that differ in exactly one byte have different checksums. -/
theorem crc32_ne_of_byte_ne (front back : Bytes) {a b : UInt8} (h : a ≠ b) :
    crc32 (front ++ a :: back) ≠ crc32 (front ++ b :: back) := by
  intro hcrc
  have hregister : crcFold 0xFFFFFFFF (front ++ a :: back)
      = crcFold 0xFFFFFFFF (front ++ b :: back) :=
    (UInt32.xor_left_inj _).mp (UInt32.toNat_inj.mp hcrc)
  rw [crcFold_append, crcFold_append, crcFold_cons, crcFold_cons] at hregister
  -- the registers agree behind the byte, so the bytes mixed into one register agree
  have hmixed := xor_eq_of_crcByte (crcFold_injective back hregister)
  have hbyte := congrArg UInt32.toNat ((UInt32.xor_right_inj _).mp hmixed)
  rw [UInt8.toNat_toUInt32, UInt8.toNat_toUInt32] at hbyte
  exact h (UInt8.toNat_inj.mp hbyte)

/-- Setting a byte to another value changes the checksum. -/
theorem getElem?_of_crc32_set {bytes : Bytes} {pos : Nat} {byte : UInt8} (hpos : pos < bytes.length)
    (h : crc32 (bytes.set pos byte) = crc32 bytes) : bytes[pos]? = some byte := by
  by_contra hbyte
  rw [List.getElem?_eq_getElem hpos, Option.some_inj] at hbyte
  refine crc32_ne_of_byte_ne (bytes.take pos) (bytes.drop (pos + 1)) (Ne.symm hbyte) ?_
  rw [List.set_eq_take_append_cons_drop, if_pos hpos] at h
  rw [h, ← List.drop_eq_getElem_cons hpos, List.take_append_drop]

/-! ### A string with its checksum behind it -/

/-- A string followed by its checksum. -/
def sealed (bytes : Bytes) : Bytes := bytes ++ beBytes 4 (crc32 bytes)

/-- Two strings with their checksums do not differ in exactly one byte. -/
theorem getElem?_of_sealed_set {bytes other : Bytes} {pos : Nat} {byte : UInt8}
    (hpos : pos < (sealed bytes).length) (h : (sealed bytes).set pos byte = sealed other) :
    (sealed bytes)[pos]? = some byte := by
  have hlength : bytes.length = other.length := by
    have hlengths := congrArg List.length h
    simpa [sealed] using hlengths
  rw [sealed, List.length_append] at hpos
  by_cases hbody : pos < bytes.length
  · -- the checksums agree, so the strings in front of them do
    rw [sealed, sealed, List.set_append_left _ _ hbody] at h
    obtain ⟨hbytes, hcrc⟩ := List.append_inj h (by rw [List.length_set, hlength])
    have hsame := beBytes_injective (crc32_lt _) (crc32_lt _) hcrc
    rw [sealed, List.getElem?_append_left hbody]
    exact getElem?_of_crc32_set hbody (by rw [hbytes, ← hsame])
  · -- the strings agree, so their checksums do
    rw [sealed, sealed, List.set_append_right _ _ (not_lt.mp hbody)] at h
    obtain ⟨rfl, hcrc⟩ := List.append_inj h hlength
    rw [sealed, List.getElem?_append_right (not_lt.mp hbody), ← hcrc,
      List.getElem?_set_self (by omega)]

end CereDB.Storage
