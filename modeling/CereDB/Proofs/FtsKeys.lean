import CereDB.Fts.Search

/-!
# `CereDB.Proofs.FtsKeys`: the keys of the index

`IndexKey` names the records of the index, and `IndexKey.bytes` is the key of each. A component is
written with its length in front, so no component is the start of another one and different records
have different keys (`IndexKey.bytes_injective`). A component of 2³² bytes or more has no key: the
functions of the source refuse it (`documentKey_eq` and its siblings).

A scan of a prefix range lists exactly the keys with that prefix (`keyInRange_prefixRange`).
-/

set_option autoImplicit false

namespace CereDB.Fts

open CereDB.Lib CereDB.Storage

/-! ### Prefix ranges -/

section
variable {start key : Bytes}

theorem cons_le_cons_iff {a b : UInt8} {as bs : Bytes} :
    a :: as ≤ b :: bs ↔ a < b ∨ a = b ∧ as ≤ bs := by
  rw [le_iff_lt_or_eq, List.cons_lt_cons_iff, List.cons.injEq, le_iff_lt_or_eq]
  tauto

theorem lt_add_one_iff {a b : UInt8} (h : b ≠ 255) : a < b + 1 ↔ a ≤ b := by
  have hb := b.toNat_lt
  have hne : b.toNat ≠ 255 := fun heq => h (UInt8.toNat_inj.mp heq)
  rw [UInt8.lt_iff_toNat_lt, UInt8.le_iff_toNat_le, UInt8.toNat_add]
  simp only [UInt8.toNat_one]
  omega

/-- The range of a prefix has the keys that start with it. -/
theorem prefixRange_iff : start ≤ key ∧ (∀ upper ∈ prefixSuccessor start, key < upper) ↔
    start <+: key := by
  induction start generalizing key with
  | nil =>
    have hle : ([] : Bytes) ≤ key := by
      cases key with
      | nil => exact le_rfl
      | cons first rest => exact (List.nil_lt_cons first rest).le
    simp [prefixSuccessor, hle]
  | cons byte bytes ih =>
    cases key with
    | nil => simp
    | cons first rest =>
      have hih := @ih rest
      rw [List.cons_prefix_cons, cons_le_cons_iff, prefixSuccessor]
      cases hupper : prefixSuccessor bytes with
      | some upper =>
        rw [hupper] at hih
        simp only [Option.mem_def, Option.some.injEq, forall_eq', List.cons_lt_cons_iff]
          at hih ⊢
        rw [← hih]
        constructor
        · rintro ⟨hlt | ⟨rfl, hle⟩, hlt' | ⟨heq, hrest⟩⟩
          · exact absurd (hlt.trans hlt') (lt_irrefl _)
          · exact absurd (heq ▸ hlt) (lt_irrefl _)
          · exact absurd hlt' (lt_irrefl _)
          · exact ⟨rfl, hle, hrest⟩
        · rintro ⟨rfl, hle, hrest⟩
          exact ⟨.inr ⟨rfl, hle⟩, .inr ⟨rfl, hrest⟩⟩
      | none =>
        rw [hupper] at hih
        simp only [Option.mem_def, reduceCtorEq, false_imp_iff, implies_true, and_true] at hih
        rw [← hih]
        by_cases hmax : byte = 255
        · subst hmax
          have hfirst : ¬ (255 : UInt8) < first := by
            rw [UInt8.lt_iff_toNat_lt]
            have := first.toNat_lt
            simp only [UInt8.reduceToNat]
            omega
          simp [hfirst]
        · simp only [ne_eq, hmax, not_false_eq_true, if_true, Option.mem_def,
            Option.some.injEq, forall_eq', List.cons_lt_cons_iff, lt_add_one_iff hmax,
            List.not_lt_nil, and_false, or_false]
          constructor
          · rintro ⟨hlt | ⟨rfl, hle⟩, hle'⟩
            · exact absurd hlt (not_lt.mpr hle')
            · exact ⟨rfl, hle⟩
          · rintro ⟨rfl, hle⟩
            exact ⟨.inr ⟨rfl, hle⟩, le_rfl⟩

theorem keyInRange_prefixRange :
    ReadManager.keyInRange key (prefixRange start) = start.isPrefixOf key := by
  rw [Bool.eq_iff_iff, List.isPrefixOf_iff_prefix, ← prefixRange_iff, ReadManager.keyInRange,
    ReadManager.withinBounds, prefixRange]
  cases prefixSuccessor start with
  | none => simp
  | some upper => simp

end

/-! ### Components -/

/-- A component with its length in front. -/
def component (value : Bytes) : Bytes := beBytes 4 value.length ++ value

/-- The length of a component fits into its four bytes. -/
def Short (value : Bytes) : Prop := value.length < u32Limit

theorem encodeComponent_of_short {value : Bytes} (h : Short value) :
    encodeComponent value = .ok (component value) := if_pos h

theorem encodeComponent_eq_ok {value encoded : Bytes} (h : encodeComponent value = .ok encoded) :
    Short value ∧ encoded = component value := by
  rw [encodeComponent] at h
  by_cases hshort : value.length < u32Limit
  · rw [if_pos hshort] at h
    exact ⟨hshort, (Except.ok.inj h).symm⟩
  · rw [if_neg hshort] at h
    cases h

theorem parses_readComponent {value : Bytes} (h : Short value) :
    Reader.Parses readComponent (component value) value := by
  have hlength : value.length < 256 ^ 4 := h
  exact (Reader.Parses.readBe _ hlength).bind (Reader.Parses.readExact _ rfl)

/-- No component is the start of another one. -/
theorem component_append_inj {a b rest rest' : Bytes} (ha : Short a) (hb : Short b)
    (h : component a ++ rest = component b ++ rest') : a = b ∧ rest = rest' := by
  have hread := parses_readComponent ha rest
  rw [h, parses_readComponent hb rest'] at hread
  obtain ⟨rfl, rfl⟩ := Prod.mk.inj (Except.ok.inj hread)
  exact ⟨rfl, rfl⟩

theorem component_inj {a b : Bytes} (ha : Short a) (hb : Short b)
    (h : component a = component b) : a = b :=
  (component_append_inj ha hb (congrArg (· ++ []) h)).1

/-! ### The records of the index -/

/-- The records of the index. -/
inductive IndexKey where
  | metadata
  | stats
  | document (id : DocumentId)
  | forward (id : DocumentId)
  | posting (term : Text) (id : DocumentId)
  | df (term : Text)
deriving DecidableEq

namespace IndexKey

/-- The byte behind the namespace. -/
def marker : IndexKey → UInt8
  | .metadata => 109
  | .stats => 115
  | .document _ => documentMarker
  | .forward _ => forwardMarker
  | .posting _ _ => postingMarker
  | .df _ => dfMarker

/-- What stands behind the marker. -/
def payload : IndexKey → Bytes
  | .metadata | .stats => []
  | .document id | .forward id => component id.text.bytes
  | .posting term id => component term.bytes ++ component id.text.bytes
  | .df term => component term.bytes

/-- The key of a record. -/
def bytes (key : IndexKey) : Key := ftsNamespace ++ key.marker :: key.payload

/-- The components of a record fit. -/
def Fits : IndexKey → Prop
  | .metadata | .stats => True
  | .document id | .forward id => Short id.text.bytes
  | .posting term id => Short term.bytes ∧ Short id.text.bytes
  | .df term => Short term.bytes

/-- Different records have different keys. -/
theorem bytes_injective {a b : IndexKey} (ha : a.Fits) (hb : b.Fits) (h : a.bytes = b.bytes) :
    a = b := by
  obtain ⟨hmarker, hpayload⟩ := List.cons.inj (List.append_cancel_left h)
  -- The marker tells the families apart, and the components tell the members apart.
  cases a <;> cases b <;> simp [marker, documentMarker, forwardMarker, postingMarker,
    dfMarker] at hmarker
  case metadata.metadata => rfl
  case stats.stats => rfl
  case document.document =>
    rw [DocumentId.text_injective (Text.bytes_injective (component_inj ha hb hpayload))]
  case forward.forward =>
    rw [DocumentId.text_injective (Text.bytes_injective (component_inj ha hb hpayload))]
  case posting.posting =>
    obtain ⟨hterm, hid⟩ := component_append_inj ha.1 hb.1 hpayload
    rw [Text.bytes_injective hterm,
      DocumentId.text_injective (Text.bytes_injective (component_inj ha.2 hb.2 hid))]
  case df.df => rw [Text.bytes_injective (component_inj ha hb hpayload)]

end IndexKey

/-! ### The functions for keys -/

theorem statsKey_eq : statsKey = IndexKey.stats.bytes := rfl

section
variable {id : DocumentId} {term : Text} {key : Key}

theorem recordKey_eq_ok {marker : UInt8} (h : recordKey marker id = .ok key) :
    Short id.text.bytes ∧ key = ftsNamespace ++ marker :: component id.text.bytes := by
  obtain ⟨encoded, hencoded, h⟩ := Exec.bind_eq_ok h
  obtain ⟨hshort, rfl⟩ := encodeComponent_eq_ok hencoded
  rw [← Except.ok.inj h, List.append_assoc]
  exact ⟨hshort, rfl⟩

theorem recordKey_of_short {marker : UInt8} (h : Short id.text.bytes) :
    recordKey marker id = .ok (ftsNamespace ++ marker :: component id.text.bytes) := by
  rw [recordKey, encodeComponent_of_short h]
  show Except.ok _ = _
  rw [List.append_assoc]
  rfl

theorem documentKey_eq_ok (h : documentKey id = .ok key) :
    (IndexKey.document id).Fits ∧ key = (IndexKey.document id).bytes := recordKey_eq_ok h

theorem documentKey_of_fits (h : (IndexKey.document id).Fits) :
    documentKey id = .ok (IndexKey.document id).bytes := recordKey_of_short h

theorem forwardKey_eq_ok (h : forwardKey id = .ok key) :
    (IndexKey.forward id).Fits ∧ key = (IndexKey.forward id).bytes := recordKey_eq_ok h

theorem forwardKey_of_fits (h : (IndexKey.forward id).Fits) :
    forwardKey id = .ok (IndexKey.forward id).bytes := recordKey_of_short h

/-- The prefix of the postings of a term. -/
def postingStart (term : Text) : Bytes := ftsNamespace ++ postingMarker :: component term.bytes

theorem posting_bytes (term : Text) (id : DocumentId) :
    (IndexKey.posting term id).bytes = postingStart term ++ component id.text.bytes := by
  rw [IndexKey.bytes, postingStart, List.append_assoc]
  rfl

theorem postingPrefix_eq_ok (h : postingPrefix term = .ok key) :
    Short term.bytes ∧ key = postingStart term := by
  obtain ⟨encoded, hencoded, h⟩ := Exec.bind_eq_ok h
  obtain ⟨hshort, rfl⟩ := encodeComponent_eq_ok hencoded
  rw [← Except.ok.inj h, List.append_assoc]
  exact ⟨hshort, rfl⟩

theorem postingPrefix_of_short (h : Short term.bytes) :
    postingPrefix term = .ok (postingStart term) := by
  rw [postingPrefix, encodeComponent_of_short h]
  show Except.ok _ = _
  rw [List.append_assoc]
  rfl

theorem postingKey_eq_ok (h : postingKey term id = .ok key) :
    (IndexKey.posting term id).Fits ∧ key = (IndexKey.posting term id).bytes := by
  obtain ⟨start, hstart, h⟩ := Exec.bind_eq_ok h
  obtain ⟨encoded, hencoded, h⟩ := Exec.bind_eq_ok h
  obtain ⟨hterm, rfl⟩ := postingPrefix_eq_ok hstart
  obtain ⟨hid, rfl⟩ := encodeComponent_eq_ok hencoded
  rw [← Except.ok.inj h, posting_bytes]
  exact ⟨⟨hterm, hid⟩, rfl⟩

theorem postingKey_of_fits (h : (IndexKey.posting term id).Fits) :
    postingKey term id = .ok (IndexKey.posting term id).bytes := by
  rw [postingKey, postingPrefix_of_short h.1, encodeComponent_of_short h.2, posting_bytes]
  rfl

theorem dfKey_eq_ok (h : dfKey term = .ok key) :
    (IndexKey.df term).Fits ∧ key = (IndexKey.df term).bytes := by
  obtain ⟨encoded, hencoded, h⟩ := Exec.bind_eq_ok h
  obtain ⟨hshort, rfl⟩ := encodeComponent_eq_ok hencoded
  rw [← Except.ok.inj h, List.append_assoc]
  exact ⟨hshort, rfl⟩

theorem dfKey_of_fits (h : (IndexKey.df term).Fits) :
    dfKey term = .ok (IndexKey.df term).bytes := by
  rw [dfKey, encodeComponent_of_short h]
  show Except.ok _ = _
  rw [List.append_assoc]
  rfl

end

/-- The postings of a term have its prefix, and no other record does. -/
theorem postingStart_prefix_iff {term : Text} (hterm : Short term.bytes) {key : IndexKey}
    (hkey : key.Fits) : postingStart term <+: key.bytes ↔ ∃ id, key = .posting term id := by
  constructor
  · rintro ⟨rest, hrest⟩
    rw [postingStart, IndexKey.bytes, List.append_assoc] at hrest
    obtain ⟨hmarker, hpayload⟩ := List.cons.inj (List.append_cancel_left hrest)
    cases key with
    | posting term' id =>
      obtain ⟨hbytes, -⟩ := component_append_inj hterm hkey.1 hpayload
      rw [Text.bytes_injective hbytes]
      exact ⟨id, rfl⟩
    | _ =>
      simp [IndexKey.marker, documentMarker, forwardMarker, postingMarker, dfMarker] at hmarker
  · rintro ⟨id, rfl⟩
    rw [posting_bytes]
    exact List.prefix_append _ _

end CereDB.Fts
