import CereDB.Proofs.FtsTerms

/-!
# `CereDB.Proofs.FtsCodec`: forward records and keys decode uniquely

`FtsTerms` reads an encoded forward record back. This module has the other direction: the entries
`decode_terms` reads stand in ascending order, so the record it accepts is the encoding of the map
it returns (`encodeTerms_of_decodeTerms`). `IndexKey.encode` collects the functions of the source
that make keys.

A term of 2³² bytes or more has no encoding, whatever its count: `long_term_not_encoded`.
-/

set_option autoImplicit false

namespace CereDB.Fts

open CereDB.Lib CereDB.Storage

/-! ### Forward records -/

section
variable {unicode : Unicode}

/-- A map whose terms and sum fit is encoded. -/
theorem encodeTerms_of_short {terms : Frequencies}
    (hshort : ∀ (term : Text) (n : Nat), terms[term]? = some n → Short term.bytes)
    (hlength : OrdMap.sum (fun _ n => n) terms < u64Limit) :
    encodeTerms terms = .ok (termsBytes terms) := by
  have hsum : sumOr (.error (.storageError "FTS document length overflow"))
      (terms.toList.map Prod.snd) = .ok (OrdMap.sum (fun _ n => n) terms) := by
    refine (sumOr_of_lt ?_).trans (congrArg Except.ok (Nat.zero_add _))
    rw [Nat.zero_add]
    exact hlength
  have hentries : terms.toList.mapM encodeTerm = .ok (terms.toList.map termBytes) := by
    refine Exec.mapM_of_ok fun entry hentry => ?_
    rw [encodeTerm, encodeComponent_of_short
      (hshort _ _ ((OrdMap.mem_toList_iff terms _ _).mp hentry))]
    rfl
  rw [encodeTerms, hsum, hentries, termsBytes, List.flatMap_def]
  rfl

/-- One round of `decode_terms` that returned has read one entry. -/
theorem decodeTerm_eq_ok {scan scan' : TermScan} {bytes rest : Bytes}
    (h : decodeTerm unicode scan bytes = .ok (scan', rest)) :
    ∃ entry, bytes = termBytes entry ++ rest ∧ Acceptable unicode entry ∧
      (∀ last ∈ scan.previous, last < entry.1) ∧
      scan.observedLength + entry.2 < u64Limit ∧ scan' = scan.add entry := by
  obtain ⟨encoded, mid, hcomponent, hterm⟩ := Reader.bind_eq_ok h
  obtain ⟨length, mid', hlength, hexact⟩ := Reader.bind_eq_ok hcomponent
  obtain ⟨rfl, hshort⟩ := readBe_eq_ok hlength
  obtain ⟨rfl, rfl⟩ := readExact_eq_ok hexact
  cases htext : Text.ofBytes? encoded with
  | none =>
    rw [htext] at hterm
    cases hterm
  | some term =>
    rw [htext] at hterm
    obtain rfl := Text.ofBytes?_eq_some_iff.mp htext
    obtain ⟨tf, mid'', htf, hchecks⟩ := Reader.bind_eq_ok hterm
    obtain ⟨rfl, -⟩ := readBe_eq_ok htf
    split at hchecks
    · cases hchecks
    rename_i hnormal
    split at hchecks
    · cases hchecks
    rename_i hvalid
    push Not at hnormal hvalid
    by_cases hfits : scan.observedLength + tf < u64Limit
    · rw [checkedAdd, if_pos hfits] at hchecks
      obtain ⟨rfl, rfl⟩ := Prod.mk.inj (Except.ok.inj hchecks)
      refine ⟨(term, tf), ?_, ⟨hshort, hnormal.1, hnormal.2, hvalid.1⟩, ?_, hfits, rfl⟩
      · simp [termBytes, component]
      · intro last hlast
        have hbehind := hvalid.2
        rw [Option.mem_def.mp hlast] at hbehind
        simpa using hbehind
    · rw [checkedAdd, if_neg hfits] at hchecks
      cases hchecks

/-- The entries the loop of `decode_terms` has read stand in ascending order. -/
theorem decodeTermsLoop_eq_ok {count : Nat} {scan scan' : TermScan} {bytes rest : Bytes}
    (h : decodeTermsLoop unicode count scan bytes = .ok (scan', rest)) :
    ∃ entries : List (Text × Nat), bytes = entries.flatMap termBytes ++ rest ∧ entries.length = count ∧
      (∀ entry ∈ entries, Acceptable unicode entry ∧ ∀ last ∈ scan.previous, last < entry.1) ∧
      (entries.Pairwise fun a b => a.1 < b.1) ∧ scan' = entries.foldl TermScan.add scan ∧
      (scan.observedLength < u64Limit → scan'.observedLength < u64Limit) := by
  induction count generalizing scan bytes with
  | zero =>
    obtain ⟨rfl, rfl⟩ := Prod.mk.inj (Except.ok.inj h)
    exact ⟨[], rfl, rfl, by simp, .nil, rfl, id⟩
  | succ count ih =>
    obtain ⟨next, mid, hterm, hloop⟩ := Reader.bind_eq_ok h
    obtain ⟨entry, rfl, haccept, hprevious, hfits, rfl⟩ := decodeTerm_eq_ok hterm
    obtain ⟨entries, rfl, rfl, hall, hsorted, rfl, hobserved⟩ := ih hloop
    have hbehind : ∀ other ∈ entries, entry.1 < other.1 := fun other hother =>
      (hall other hother).2 entry.1 rfl
    refine ⟨entry :: entries, ?_, rfl, ?_, List.pairwise_cons.mpr ⟨hbehind, hsorted⟩, rfl,
      fun _ => hobserved hfits⟩
    · rw [List.flatMap_cons, List.append_assoc]
    · rw [List.forall_mem_cons]
      exact ⟨⟨haccept, hprevious⟩, fun other hother => ⟨(hall other hother).1,
        fun last hlast => (hprevious last hlast).trans (hbehind other hother)⟩⟩

/-- A record that `decode_terms` accepts is the encoding of the map it returns. -/
theorem encodeTerms_of_decodeTerms {bytes : Bytes} {terms : Frequencies} {length : Nat}
    (h : decodeTerms unicode bytes = .ok (terms, length)) :
    encodeTerms terms = .ok bytes ∧ length = OrdMap.sum (fun _ n => n) terms ∧
      ∀ (term : Text) (n : Nat), terms[term]? = some n → Acceptable unicode (term, n) := by
  obtain ⟨⟨count, rest⟩, hcount, hbody⟩ := Exec.bind_eq_ok h
  obtain ⟨rfl, -⟩ := readBe_eq_ok hcount
  obtain ⟨⟨total, rest'⟩, htotal, hentries⟩ := Exec.bind_eq_ok hbody
  obtain ⟨rfl, -⟩ := readBe_eq_ok htotal
  dsimp only at hentries
  split at hentries
  · cases hentries
  obtain ⟨⟨scan, left⟩, hloop, hend⟩ := Exec.bind_eq_ok hentries
  dsimp only at hend
  split at hend
  · cases hend
  rename_i hwhole
  push Not at hwhole
  obtain ⟨rfl, rfl⟩ := hwhole
  obtain ⟨rfl, rfl⟩ := Prod.mk.inj (Except.ok.inj hend)
  obtain ⟨entries, rfl, rfl, hall, hsorted, rfl, hobserved⟩ := decodeTermsLoop_eq_ok hloop
  obtain ⟨hterms, hlength⟩ := foldl_add entries ⟨∅, 0, none⟩
  -- The map has the entries that were read, and lists them in the same order.
  have hget (term : Text) (n : Nat) :
      (entries.foldl TermScan.add ⟨∅, 0, none⟩).terms[term]? = some n ↔ (term, n) ∈ entries := by
    rw [hterms, OrdMap.get?_foldl_insert hsorted]
    simp
  have hlist : (entries.foldl TermScan.add ⟨∅, 0, none⟩).terms.toList = entries := by
    refine OrdMap.entries_eq (OrdMap.sorted_toList _) hsorted fun entry => ?_
    rw [OrdMap.mem_toList_iff, hget]
  have hsum : OrdMap.sum (fun _ n => n) (entries.foldl TermScan.add ⟨∅, 0, none⟩).terms
      = (entries.foldl TermScan.add ⟨∅, 0, none⟩).observedLength := by
    rw [OrdMap.sum, hlist, hlength, Nat.zero_add]
  have haccept (term : Text) (n : Nat)
      (hmem : (entries.foldl TermScan.add ⟨∅, 0, none⟩).terms[term]? = some n) :
      Acceptable unicode (term, n) := (hall _ ((hget term n).mp hmem)).1
  refine ⟨?_, hsum.symm, haccept⟩
  rw [encodeTerms_of_short (fun term n hmem => (haccept term n hmem).short)
    (by rw [hsum]; exact hobserved (by decide)), termsBytes, hlist, hsum, List.append_nil,
    List.append_assoc]

end

/-! ### Keys -/

/-- The key of a record, as the source makes it. -/
def IndexKey.encode : IndexKey → Exec Key
  | .metadata => .ok metaKey
  | .stats => .ok statsKey
  | .document id => documentKey id
  | .forward id => forwardKey id
  | .posting term id => postingKey term id
  | .df term => dfKey term

theorem IndexKey.encode_eq_ok {record : IndexKey} {key : Key} (h : record.encode = .ok key) :
    record.Fits ∧ key = record.bytes := by
  cases record with
  | metadata => exact ⟨trivial, (Except.ok.inj h).symm⟩
  | stats => exact ⟨trivial, (Except.ok.inj h).symm⟩
  | document id => exact documentKey_eq_ok h
  | forward id => exact forwardKey_eq_ok h
  | posting term id => exact postingKey_eq_ok h
  | df term => exact dfKey_eq_ok h

/-- **Forward records and keys decode uniquely.** A map from nonempty terms of less than 2³² bytes
that are their own lowercase to positive counts with a sum in `u64` is read back as it was written,
with the sum, and every record `decode_terms` accepts is the encoding of its result. The range of a
prefix has exactly the keys that start with it. Different records have different keys, and the
prefix range of a term has exactly the postings of the term. -/
theorem fts_codec_unique (unicode : Unicode) :
    (∀ terms : Frequencies, (∀ (term : Text) (n : Nat), terms[term]? = some n →
        Acceptable unicode (term, n)) → OrdMap.sum (fun _ n => n) terms < u64Limit →
      ∃ bytes, encodeTerms terms = .ok bytes ∧
        decodeTerms unicode bytes = .ok (terms, OrdMap.sum (fun _ n => n) terms)) ∧
    (∀ (bytes : Bytes) (terms : Frequencies) (length : Nat),
      decodeTerms unicode bytes = .ok (terms, length) →
        encodeTerms terms = .ok bytes ∧ length = OrdMap.sum (fun _ n => n) terms) ∧
    (∀ start key : Bytes,
      ReadManager.keyInRange key (prefixRange start) = true ↔ start <+: key) ∧
    (∀ (a b : IndexKey) (key : Key), a.encode = .ok key → b.encode = .ok key → a = b) ∧
    (∀ (term : Text) (start : Bytes) (record : IndexKey) (key : Key),
      postingPrefix term = .ok start → record.encode = .ok key →
        (ReadManager.keyInRange key (prefixRange start) = true ↔
          ∃ id, record = .posting term id)) := by
  refine ⟨fun terms haccept hlength => ?_, fun bytes terms length h => ?_, fun start key => ?_,
    fun a b key ha hb => ?_, fun term start record key hstart hkey => ?_⟩
  · exact ⟨_, encodeTerms_of_short (fun term n hmem => (haccept term n hmem).short) hlength,
      decodeTerms_termsBytes haccept hlength⟩
  · exact ⟨(encodeTerms_of_decodeTerms h).1, (encodeTerms_of_decodeTerms h).2.1⟩
  · rw [keyInRange_prefixRange, List.isPrefixOf_iff_prefix]
  · obtain ⟨hfitsA, rfl⟩ := IndexKey.encode_eq_ok ha
    obtain ⟨hfitsB, hbytes⟩ := IndexKey.encode_eq_ok hb
    exact IndexKey.bytes_injective hfitsA hfitsB hbytes
  · obtain ⟨hterm, rfl⟩ := postingPrefix_eq_ok hstart
    obtain ⟨hfits, rfl⟩ := IndexKey.encode_eq_ok hkey
    rw [keyInRange_prefixRange, List.isPrefixOf_iff_prefix, postingStart_prefix_iff hterm hfits]

/-! ### Examples -/

/-- ASCII, and `İ`, whose lowercase is an `i` and a combining dot that is not alphanumeric. -/
def Unicode.latin : Unicode where
  isAlphanumeric character := character.isAlphanum || character == 'İ'
  toLowercase character := if character = 'İ' then ['i', '\u0307'] else [character.toLower]
  strToLowercase chars := chars.flatMap fun character =>
    if character = 'İ' then ['i', '\u0307'] else [character.toLower]

/-- Two terms, one of them twice. -/
def twoTerms : Frequencies := ((∅ : Frequencies).insert ⟨['b']⟩ 2).insert ⟨['a', '1']⟩ 1

theorem fts_codec_unique_twoTerms : ∃ bytes, encodeTerms twoTerms = .ok bytes ∧
    decodeTerms .latin bytes = .ok (twoTerms, 3) ∧ bytes.length = 43 := by
  have hall : ∀ entry ∈ twoTerms.toList, entry.1.bytes.length < u32Limit ∧
      entry.1.chars ≠ [] ∧ Unicode.latin.strToLowercase entry.1.chars = entry.1.chars ∧
      entry.2 ≠ 0 := by decide +kernel
  obtain ⟨bytes, hencode, hdecode⟩ := (fts_codec_unique .latin).1 twoTerms (fun term n hget => by
    obtain ⟨hshort, hnonempty, hlower, hpositive⟩ :=
      hall (term, n) ((OrdMap.mem_toList_iff twoTerms term n).mpr hget)
    exact ⟨hshort, hnonempty, hlower, hpositive⟩) (by decide +kernel)
  have hlength : (encodeTerms twoTerms).map List.length = .ok 43 := by decide +kernel
  rw [hencode] at hlength
  exact ⟨bytes, hencode, hdecode, Except.ok.inj hlength⟩

/-- A term of 4 GiB. -/
def longTerm : Text := ⟨List.replicate u32Limit 'a'⟩

/-- A long term is nonempty, its own lowercase and counted once, and has no encoding. -/
theorem long_term_not_encoded :
    longTerm.chars ≠ [] ∧ Unicode.latin.strToLowercase longTerm.chars = longTerm.chars ∧
      OrdMap.sum (fun _ n => n) ((∅ : Frequencies).insert longTerm 1) < u64Limit ∧
      encodeTerms ((∅ : Frequencies).insert longTerm 1)
        = .error (.error (.storageError "FTS component too long")) := by
  have hlist : ((∅ : Frequencies).insert longTerm 1).toList = [(longTerm, 1)] := by
    rw [OrdMap.toList_of_single fun term hterm => ?_, OrdMap.get?_insert, if_pos rfl]
    · rfl
    · rw [OrdMap.get?_insert, if_neg (Ne.symm hterm), OrdMap.get?_empty]
  have hbytes (n : Nat) : (utf8Encode (List.replicate n 'a')).length = n := by
    have hone : (String.utf8EncodeChar 'a').length = 1 := by decide
    simp [utf8Encode, List.flatMap_replicate, hone]
  have hlower (n : Nat) : Unicode.latin.strToLowercase (List.replicate n 'a')
      = List.replicate n 'a' := by
    induction n with
    | zero => rfl
    | succ n ih => exact congrArg ('a' :: ·) ih
  have hcomponent : encodeComponent longTerm.bytes
      = .error (.error (.storageError "FTS component too long")) := by
    have hlong : ¬longTerm.bytes.length < u32Limit := (hbytes u32Limit).not_lt
    rw [encodeComponent, if_neg hlong]
    rfl
  refine ⟨?_, hlower _, ?_, ?_⟩
  · rw [longTerm, ← List.length_pos_iff, List.length_replicate]
    decide
  · rw [OrdMap.sum, hlist]
    decide
  · rw [encodeTerms, hlist, List.mapM_cons, encodeTerm, hcomponent]
    rfl

end CereDB.Fts
