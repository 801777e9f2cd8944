import CereDB.Fts.Engine
import CereDB.Lib.Utf8

/-!
# `CereDB.Fts.Codec`: terms, keys and values of the index

The free functions of `src/fts/mod.rs`: the tokenizer, the keys of the five record families, the
encodings of their values and the reserved namespace.

What the standard library knows about letters is a parameter, `Unicode`. A cursor over a byte slice
is a reader over the bytes behind it, and the offsets that would overflow `usize` do not exist.
-/

set_option autoImplicit false

namespace CereDB.Fts

open CereDB.Lib CereDB.Storage

/-- `corrupt`. -/
def corrupt (message : String) : Halt := .error (.corrupted message)

/-! ### Constants -/

/-- `NAMESPACE`: a zero byte and `ceredb:fts:v1:`. -/
def ftsNamespace : Bytes := [0, 99, 101, 114, 101, 100, 98, 58, 102, 116, 115, 58, 118, 49, 58]

/-- `META_KEY`. -/
def metaKey : Key := ftsNamespace ++ [109]

/-- `STATS_KEY`. -/
def statsKey : Key := ftsNamespace ++ [115]

/-- `DOCUMENT_MARKER`. -/
def documentMarker : UInt8 := 100

/-- `FORWARD_MARKER`. -/
def forwardMarker : UInt8 := 102

/-- `POSTING_MARKER`. -/
def postingMarker : UInt8 := 112

/-- `DF_MARKER`. -/
def dfMarker : UInt8 := 103

/-- `FORMAT_VERSION`. -/
def formatVersion : UInt8 := 2

/-- `TOKENIZER_VERSION`. -/
def tokenizerVersion : UInt8 := 1

/-- The constants spell what the source spells. -/
example : ftsNamespace = utf8Encode ("\x00ceredb:fts:v1:".toList) ∧
    [metaKey, statsKey] = [utf8Encode ("\x00ceredb:fts:v1:m".toList),
      utf8Encode ("\x00ceredb:fts:v1:s".toList)] ∧
    utf8Encode "dfpg".toList = [documentMarker, forwardMarker, postingMarker, dfMarker] := by
  decide +kernel

/-! ### Documents and terms -/

/-- `DocumentId`: a string that is not empty. -/
structure DocumentId where
  text : Text
  nonempty : text.chars ≠ []
deriving DecidableEq

namespace DocumentId

/-- `DocumentId::new`. -/
def new (text : Text) : Exec DocumentId :=
  if h : text.chars ≠ [] then .ok ⟨text, h⟩ else storageError "document ID must not be empty"

theorem text_injective : Function.Injective text := by
  rintro ⟨a, _⟩ ⟨b, _⟩ h
  cases h
  rfl

/-- Identifiers are ordered as their strings. -/
instance : LinearOrder DocumentId := LinearOrder.lift' text text_injective

end DocumentId

/-- What `char` and `str` know about letters: `char::is_alphanumeric`, `char::to_lowercase` and
`str::to_lowercase`. -/
structure Unicode where
  isAlphanumeric : Char → Bool
  toLowercase : Char → List Char
  strToLowercase : List Char → List Char

/-- How often each term occurs. -/
abbrev Frequencies := OrdMap Text Nat

section
variable (unicode : Unicode)

/-- `*terms.entry(term).or_insert(0) += 1`. -/
def addTerm (terms : Frequencies) (term : Text) : Frequencies :=
  terms.insert term ((terms[term]?).getD 0 + 1)

/-- One character in the loop of `tokenize`: the terms so far and the current one. -/
def tokenizeChar (state : Frequencies × List Char) (character : Char) : Frequencies × List Char :=
  if unicode.isAlphanumeric character then (state.1, state.2 ++ unicode.toLowercase character)
  else if state.2 ≠ [] then (addTerm state.1 ⟨state.2⟩, [])
  else state

/-- `tokenize`. -/
def tokenize (text : Text) : Frequencies :=
  let state := text.chars.foldl (tokenizeChar unicode) (∅, [])
  if state.2 ≠ [] then addTerm state.1 ⟨state.2⟩ else state.1

/-- `normalize_terms`. -/
def normalizeTerms (input : List Text) : List Text :=
  (OrdSet.ofList (input.flatMap fun term => (tokenize unicode term).keyList)).keyList

end

/-! ### Keys -/

/-- `encode_component`. -/
def encodeComponent (value : Bytes) : Exec Bytes :=
  if value.length < u32Limit then .ok (beBytes 4 value.length ++ value)
  else storageError "FTS component too long"

/-- `record_key`. -/
def recordKey (marker : UInt8) (id : DocumentId) : Exec Key := do
  return ftsNamespace ++ [marker] ++ (← encodeComponent id.text.bytes)

/-- `document_key`. -/
def documentKey (id : DocumentId) : Exec Key := recordKey documentMarker id

/-- `forward_key`. -/
def forwardKey (id : DocumentId) : Exec Key := recordKey forwardMarker id

/-- `posting_prefix`. -/
def postingPrefix (term : Text) : Exec Key := do
  return ftsNamespace ++ [postingMarker] ++ (← encodeComponent term.bytes)

/-- `posting_key`. -/
def postingKey (term : Text) (id : DocumentId) : Exec Key := do
  return (← postingPrefix term) ++ (← encodeComponent id.text.bytes)

/-- `df_key`. -/
def dfKey (term : Text) : Exec Key := do
  return ftsNamespace ++ [dfMarker] ++ (← encodeComponent term.bytes)

/-- `prefix_successor`: the last byte that is not the largest one goes up, and what is behind it is
dropped. -/
def prefixSuccessor : Bytes → Option Bytes
  | [] => none
  | byte :: bytes =>
    match prefixSuccessor bytes with
    | some upper => some (byte :: upper)
    | none => if byte ≠ 255 then some [byte + 1] else none

/-- `prefix_range`. -/
def prefixRange (start : Bytes) : KeyRange where
  start := .included start
  stop := match prefixSuccessor start with
    | some upper => .excluded upper
    | none => .unbounded

/-- `namespace_range`. -/
def namespaceRange : KeyRange := prefixRange ftsNamespace

/-- `reserved`. -/
def reserved (key : Key) : Bool := ftsNamespace.isPrefixOf key

/-- `reserved_error`. -/
def reservedError : Halt := .error (.storageError "key belongs to the reserved FTS namespace")

/-! ### Values -/

/-- `read_u32`. -/
def readU32 : Decode Nat := readBe (corrupt "truncated length") 4

/-- `read_u64`. -/
def readU64 : Decode Nat := readBe (corrupt "truncated integer") 8

/-- `read_component`. -/
def readComponent : Decode Bytes := do
  let length ← readU32
  readExact (corrupt "truncated component") length

/-- A reader that has to read everything. -/
def decodeAll {α : Type} (reader : Decode α) (trailing : Halt) (bytes : Bytes) : Exec α := do
  let (a, rest) ← reader bytes
  if rest = [] then .ok a else .error trailing

/-- `decode_u64`. -/
def decodeU64 (bytes : Bytes) : Exec Nat := decodeAll readU64 (corrupt "malformed integer") bytes

/-- `encode_stats`. -/
def encodeStats (count total : Nat) : Bytes := beBytes 8 count ++ beBytes 8 total

/-- `decode_stats`. -/
def decodeStats (bytes : Bytes) : Exec (Nat × Nat) :=
  if bytes.length ≠ 16 then .error (corrupt "malformed FTS corpus statistics")
  else do
    let count ← decodeU64 (bytes.take 8)
    let total ← decodeU64 (bytes.drop 8)
    if count = 0 ∧ total ≠ 0 then .error (corrupt "invalid FTS corpus statistics")
    else return (count, total)

/-- A sum with `checked_add`. -/
def sumOr (halt : Halt) (numbers : List Nat) : Exec Nat :=
  numbers.foldlM (fun sum n => match checkedAdd sum n with
    | some sum => .ok sum
    | none => .error halt) 0

/-- One entry of a forward record. -/
def encodeTerm (entry : Text × Nat) : Exec Bytes := do
  return (← encodeComponent entry.1.bytes) ++ beBytes 8 entry.2

/-- `encode_terms`. -/
def encodeTerms (terms : Frequencies) : Exec Bytes := do
  let length ← sumOr (.error (.storageError "FTS document length overflow"))
    (terms.toList.map Prod.snd)
  let entries ← terms.toList.mapM encodeTerm
  return beBytes 8 terms.toList.length ++ beBytes 8 length ++ entries.flatten

/-- What the loop of `decode_terms` has read. -/
structure TermScan where
  terms : Frequencies
  observedLength : Nat
  previous : Option Text

/-- One round of `decode_terms`. -/
def decodeTerm (unicode : Unicode) (scan : TermScan) : Decode TermScan := do
  let bytes ← readComponent
  match Text.ofBytes? bytes with
  | none => throw (corrupt "invalid UTF-8 term")
  | some term =>
    let tf ← readU64
    if term.chars = [] ∨ unicode.strToLowercase term.chars ≠ term.chars then
      throw (corrupt "non-normalized forward term")
    else if tf = 0 ∨ (scan.previous.any fun last => decide (term ≤ last)) then
      throw (corrupt "invalid forward term frequency")
    else match checkedAdd scan.observedLength tf with
      | none => throw (corrupt "document length overflow")
      | some observedLength => return {
          terms := scan.terms.insert term tf, observedLength, previous := some term }

/-- The loop of `decode_terms`. -/
def decodeTermsLoop (unicode : Unicode) : Nat → TermScan → Decode TermScan
  | 0, scan => return scan
  | count + 1, scan => do decodeTermsLoop unicode count (← decodeTerm unicode scan)

/-- `decode_terms`: the terms of a forward record and their number. -/
def decodeTerms (unicode : Unicode) (bytes : Bytes) : Exec (Frequencies × Nat) := do
  let (count, rest) ← readU64 bytes
  let (length, rest) ← readU64 rest
  if rest.length / 12 < count then .error (corrupt "impossible forward term count")
  else do
    let (scan, rest) ← decodeTermsLoop unicode count ⟨∅, 0, none⟩ rest
    if rest ≠ [] ∨ scan.observedLength ≠ length then .error (corrupt "malformed forward record")
    else return (scan.terms, length)

/-- `parse_posting`. -/
def parsePosting (start : Bytes) (key : Key) (value : Bytes) : Exec (DocumentId × Nat) :=
  if !start.isPrefixOf key then .error (corrupt "malformed posting record")
  else do
    let (bytes, rest) ← readComponent (key.drop start.length)
    match Text.ofBytes? bytes with
    | none => .error (corrupt "invalid UTF-8 posting ID")
    | some text =>
      if rest ≠ [] then .error (corrupt "trailing posting key bytes")
      else match DocumentId.new text with
        | .error _ => .error (corrupt "empty posting ID")
        | .ok id => return (id, ← decodeU64 value)

end CereDB.Fts
