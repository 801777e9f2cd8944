import CereDB.Lib.Bytes

/-!
# `CereDB.Lib.Utf8`: text and its bytes

`Text` is a string of characters, and `Text.bytes` its UTF-8 encoding. Encoding and decoding are
those of the standard library: `Text.ofBytes?` succeeds exactly on the bytes of a text
(`Text.ofBytes?_eq_some_iff`). Texts are ordered by their bytes.
-/

set_option autoImplicit false

namespace CereDB.Lib

/-- The UTF-8 encoding of characters. -/
def utf8Encode (chars : List Char) : Bytes := chars.flatMap String.utf8EncodeChar

/-- The characters that bytes encode. -/
def utf8Decode (bytes : Bytes) : Option (List Char) :=
  bytes.toByteArray.utf8Decode?.map Array.toList

theorem utf8Decode_utf8Encode (chars : List Char) : utf8Decode (utf8Encode chars) = some chars := by
  show (chars.utf8Encode.utf8Decode?).map Array.toList = some chars
  rw [List.utf8Decode?_utf8Encode]
  rfl

theorem utf8Decode_eq_some_iff {bytes : Bytes} {chars : List Char} :
    utf8Decode bytes = some chars ↔ bytes = utf8Encode chars := by
  constructor
  · intro h
    obtain ⟨found, hfound, rfl⟩ := Option.map_eq_some_iff.mp h
    have hsome : bytes.toByteArray.utf8Decode?.isSome = true := by rw [hfound]; rfl
    have hencode : (bytes.toByteArray.utf8Decode?.get hsome).toList.utf8Encode
        = bytes.toByteArray := ByteArray.utf8Encode_get_utf8Decode?
    have hget : bytes.toByteArray.utf8Decode?.get hsome = found := by
      simp [hfound]
    rw [hget, List.utf8Encode] at hencode
    have hdata := congrArg (fun array : ByteArray => array.data.toList) hencode
    simpa [utf8Encode] using hdata.symm
  · rintro rfl
    exact utf8Decode_utf8Encode chars

/-- A string of characters. -/
structure Text where
  chars : List Char
deriving DecidableEq, Repr

namespace Text

/-- The UTF-8 encoding of a text. -/
def bytes (text : Text) : Bytes := utf8Encode text.chars

/-- The text that bytes encode. -/
def ofBytes? (bytes : Bytes) : Option Text := (utf8Decode bytes).map Text.mk

@[simp] theorem ofBytes?_bytes (text : Text) : ofBytes? text.bytes = some text := by
  rw [ofBytes?, bytes, utf8Decode_utf8Encode]
  rfl

theorem ofBytes?_eq_some_iff {bytes : Bytes} {text : Text} :
    ofBytes? bytes = some text ↔ bytes = text.bytes := by
  constructor
  · intro h
    obtain ⟨chars, hchars, rfl⟩ := Option.map_eq_some_iff.mp h
    exact utf8Decode_eq_some_iff.mp hchars
  · rintro rfl
    exact ofBytes?_bytes text

theorem bytes_injective : Function.Injective bytes := by
  intro a b h
  have hsome := ofBytes?_bytes a
  rw [h, ofBytes?_bytes] at hsome
  exact (Option.some.inj hsome).symm

/-- Texts are ordered by their bytes. -/
instance : LinearOrder Text := LinearOrder.lift' bytes bytes_injective

end Text

end CereDB.Lib
