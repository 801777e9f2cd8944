import CereDB.Proofs.FtsKeys

/-!
# `CereDB.Proofs.FtsTerms`: the terms of a document and their encoding

`tokens` lists the tokens of a text in order, and `tokenize` counts them (`get?_tokenize`,
`sum_tokenize`). A forward record that was written from such counts is read back as it was
(`decodeTerms_termsBytes`), provided that lowercasing leaves a lowercased term as it is: the decoder
checks that its terms are lowercase.
-/

set_option autoImplicit false

namespace CereDB.Fts

open CereDB.Lib CereDB.Storage

/-! ### Tokens -/

section
variable (unicode : Unicode)

/-- The tokens of a list of characters behind the current token. -/
def tokensFrom : List Char → List Char → List Text
  | current, [] => if current ≠ [] then [⟨current⟩] else []
  | current, character :: characters =>
    if unicode.isAlphanumeric character then
      tokensFrom (current ++ unicode.toLowercase character) characters
    else if current ≠ [] then ⟨current⟩ :: tokensFrom [] characters
    else tokensFrom [] characters

/-- The tokens of a text: the lowercased runs of letters and digits. -/
def tokens (text : Text) : List Text := tokensFrom unicode [] text.chars

/-- Lowercasing a lowercased string changes nothing. -/
def Unicode.Stable : Prop := ∀ chars : List Char,
  unicode.strToLowercase (chars.flatMap unicode.toLowercase) = chars.flatMap unicode.toLowercase

theorem tokenize_eq (text : Text) : tokenize unicode text = (tokens unicode text).foldl addTerm ∅ := by
  have hloop : ∀ (characters current : List Char) (terms : Frequencies),
      (let state := characters.foldl (tokenizeChar unicode) (terms, current)
        if state.2 ≠ [] then addTerm state.1 ⟨state.2⟩ else state.1)
      = (tokensFrom unicode current characters).foldl addTerm terms := by
    intro characters
    induction characters with
    | nil =>
      intro current terms
      by_cases hcurrent : current = []
      · simp [tokensFrom, hcurrent]
      · simp [tokensFrom, hcurrent]
    | cons character characters ih =>
      intro current terms
      rw [List.foldl_cons, tokenizeChar, tokensFrom]
      by_cases halpha : unicode.isAlphanumeric character = true
      · rw [if_pos halpha, if_pos halpha]
        exact ih _ _
      · rw [if_neg halpha, if_neg halpha]
        by_cases hcurrent : current = []
        · simpa [hcurrent] using ih [] terms
        · simpa [hcurrent] using ih [] (addTerm terms ⟨current⟩)
  exact hloop text.chars [] ∅

/-- A token is a lowercased string that is not empty. -/
theorem mem_tokens {text term : Text} (h : term ∈ tokens unicode text) :
    term.chars ≠ [] ∧ ∃ chars : List Char, term.chars = chars.flatMap unicode.toLowercase := by
  have hloop : ∀ (characters seen : List Char),
      term ∈ tokensFrom unicode (seen.flatMap unicode.toLowercase) characters →
        term.chars ≠ [] ∧ ∃ chars : List Char, term.chars = chars.flatMap unicode.toLowercase := by
    intro characters
    induction characters with
    | nil =>
      intro seen hmem
      rw [tokensFrom] at hmem
      split at hmem
      · rename_i hne
        rw [List.mem_singleton.mp hmem]
        exact ⟨hne, seen, rfl⟩
      · cases hmem
    | cons character characters ih =>
      intro seen hmem
      rw [tokensFrom] at hmem
      split at hmem
      · refine ih (seen ++ [character]) ?_
        rw [List.flatMap_append, List.flatMap_singleton]
        exact hmem
      · split at hmem
        · rename_i hne
          rcases List.mem_cons.mp hmem with rfl | hmem
          · exact ⟨hne, seen, rfl⟩
          · exact ih [] hmem
        · exact ih [] hmem
  exact hloop text.chars [] h

end

/-! ### Counting tokens -/

theorem get?_addTerm (terms : Frequencies) (term other : Text) :
    (addTerm terms term)[other]? = if term = other then some (frequency terms other + 1)
      else terms[other]? := by
  rw [addTerm, OrdMap.get?_insert]
  split
  · rename_i heq
    subst heq
    rfl
  · rfl

theorem frequency_foldl_addTerm (tokens : List Text) (terms : Frequencies) (term : Text) :
    frequency (tokens.foldl addTerm terms) term = frequency terms term + tokens.count term := by
  induction tokens generalizing terms with
  | nil => simp
  | cons token tokens ih =>
    rw [List.foldl_cons, ih, List.count_cons, frequency, get?_addTerm]
    by_cases heq : token = term
    · simp [heq, frequency]
      omega
    · simp [heq, frequency]

theorem sum_foldl_addTerm (tokens : List Text) (terms : Frequencies) :
    OrdMap.sum (fun _ n => n) (tokens.foldl addTerm terms)
      = OrdMap.sum (fun _ n => n) terms + tokens.length := by
  induction tokens generalizing terms with
  | nil => simp
  | cons token tokens ih =>
    have hinsert := OrdMap.sum_insert (fun (_ : Text) n => n) terms token
      ((terms[token]?).getD 0 + 1)
    have hterm : OrdMap.term (fun (_ : Text) n => n) terms token = (terms[token]?).getD 0 := by
      rw [OrdMap.term]
      cases terms[token]? <;> rfl
    rw [List.foldl_cons, ih, addTerm, List.length_cons]
    omega

/-- No term occurs zero times. -/
theorem ne_zero_foldl_addTerm {tokens : List Text} {terms : Frequencies}
    (h : ∀ term : Text, terms[term]? ≠ some 0) (term : Text) :
    (tokens.foldl addTerm terms)[term]? ≠ some 0 := by
  induction tokens generalizing terms with
  | nil => exact h term
  | cons token tokens ih =>
    refine ih fun other => ?_
    rw [get?_addTerm]
    split
    · simp
    · exact h other

section
variable (unicode : Unicode) (text : Text)

/-- `tokenize` counts the tokens. -/
theorem frequency_tokenize (term : Text) :
    frequency (tokenize unicode text) term = (tokens unicode text).count term := by
  rw [tokenize_eq, frequency_foldl_addTerm]
  simp [frequency]

/-- The frequencies add up to the number of tokens. -/
theorem sum_tokenize :
    OrdMap.sum (fun _ n => n) (tokenize unicode text) = (tokens unicode text).length := by
  rw [tokenize_eq, sum_foldl_addTerm, OrdMap.sum_empty, Nat.zero_add]

end

section
variable {unicode : Unicode} {text term : Text} {n : Nat}

theorem get?_tokenize_ne_zero (h : (tokenize unicode text)[term]? = some n) : n ≠ 0 := by
  rintro rfl
  rw [tokenize_eq] at h
  exact ne_zero_foldl_addTerm (fun _ => by simp) term h

theorem mem_tokens_of_get? (h : (tokenize unicode text)[term]? = some n) :
    term ∈ tokens unicode text := by
  have hcount := frequency_tokenize unicode text term
  rw [frequency, h] at hcount
  have hne := get?_tokenize_ne_zero h
  exact List.count_pos_iff.mp (by rw [← hcount]; exact Nat.pos_of_ne_zero hne)

/-- A term has a posting exactly when it is a token. -/
theorem get?_tokenize_isSome_iff :
    ((tokenize unicode text)[term]?).isSome = true ↔ term ∈ tokens unicode text := by
  constructor
  · intro h
    obtain ⟨n, hn⟩ := Option.isSome_iff_exists.mp h
    exact mem_tokens_of_get? hn
  · intro h
    have hcount := frequency_tokenize unicode text term
    cases hget : (tokenize unicode text)[term]? with
    | some n => rfl
    | none =>
      rw [frequency, hget] at hcount
      have hpos := List.count_pos_iff.mpr h
      simp at hcount
      omega

end

/-! ### Forward records -/

/-- One entry of a forward record. -/
def termBytes (entry : Text × Nat) : Bytes := component entry.1.bytes ++ beBytes 8 entry.2

/-- A forward record. -/
def termsBytes (terms : Frequencies) : Bytes :=
  beBytes 8 terms.toList.length ++ beBytes 8 (OrdMap.sum (fun _ n => n) terms) ++
    terms.toList.flatMap termBytes

theorem sumOr_of_lt {halt : Halt} {numbers : List Nat} {start : Nat}
    (h : start + numbers.sum < u64Limit) :
    numbers.foldlM (fun sum n => match checkedAdd sum n with
      | some sum => .ok sum
      | none => .error halt) start = (.ok (start + numbers.sum) : Exec Nat) := by
  induction numbers generalizing start with
  | nil => rfl
  | cons n numbers ih =>
    rw [List.sum_cons] at h
    have hfits : start + n < u64Limit := by omega
    rw [List.foldlM_cons, checkedAdd, if_pos hfits, List.sum_cons, ← Nat.add_assoc]
    exact ih (by omega)

/-! ### Reading a forward record back -/

/-- What the loop of `decode_terms` has read after one more entry. -/
def TermScan.add (scan : TermScan) (entry : Text × Nat) : TermScan where
  terms := scan.terms.insert entry.1 entry.2
  observedLength := scan.observedLength + entry.2
  previous := some entry.1

/-- An entry that `decode_terms` accepts. -/
structure Acceptable (unicode : Unicode) (entry : Text × Nat) : Prop where
  short : Short entry.1.bytes
  nonempty : entry.1.chars ≠ []
  lowercase : unicode.strToLowercase entry.1.chars = entry.1.chars
  positive : entry.2 ≠ 0

section
variable {unicode : Unicode}

theorem parses_decodeTerm {scan : TermScan} {entry : Text × Nat} (h : Acceptable unicode entry)
    (hprevious : ∀ last ∈ scan.previous, last < entry.1)
    (hlength : scan.observedLength + entry.2 < u64Limit) :
    Reader.Parses (decodeTerm unicode scan) (termBytes entry) (scan.add entry) := by
  intro rest
  have htf : entry.2 < 256 ^ 8 := lt_of_le_of_lt (Nat.le_add_left _ _) hlength
  have hread := (Reader.Parses.readBe (corrupt "truncated integer") htf) rest
  have hafter : (scan.previous.any fun last => decide (entry.1 ≤ last)) = false := by
    cases hlast : scan.previous with
    | none => rfl
    | some last =>
      exact decide_eq_false (not_le.mpr (hprevious last hlast))
  rw [termBytes, List.append_assoc, decodeTerm, Reader.bind_ok (parses_readComponent h.short _)]
  simp only [Text.ofBytes?_bytes]
  rw [readU64, Reader.bind_ok hread, if_neg (by simp [h.nonempty, h.lowercase]),
    if_neg (by simp [h.positive, hafter]), checkedAdd, if_pos hlength]
  rfl

theorem parses_decodeTermsLoop {entries : List (Text × Nat)} {scan : TermScan}
    (haccept : ∀ entry ∈ entries, Acceptable unicode entry)
    (hsorted : entries.Pairwise fun a b => a.1 < b.1)
    (hprevious : ∀ last ∈ scan.previous, ∀ entry ∈ entries, last < entry.1)
    (hlength : scan.observedLength + (entries.map Prod.snd).sum < u64Limit) :
    Reader.Parses (decodeTermsLoop unicode entries.length scan) (entries.flatMap termBytes)
      (entries.foldl TermScan.add scan) := by
  induction entries generalizing scan with
  | nil => exact Reader.Parses.pure scan
  | cons entry entries ih =>
    rw [List.map_cons, List.sum_cons] at hlength
    obtain ⟨hfirst, hrest⟩ := List.pairwise_cons.mp hsorted
    have hentry := parses_decodeTerm (haccept entry List.mem_cons_self)
      (fun last hlast => hprevious last hlast entry List.mem_cons_self) (by omega)
    refine hentry.bind (ih (fun other hother => haccept other (List.mem_cons_of_mem entry hother))
      hrest ?_ ?_)
    · intro last hlast other hother
      obtain rfl : entry.1 = last := Option.some.inj hlast
      exact hfirst other hother
    · show scan.observedLength + entry.2 + _ < _
      omega

theorem foldl_add (entries : List (Text × Nat)) (scan : TermScan) :
    (entries.foldl TermScan.add scan).terms
        = entries.foldl (fun (m : Frequencies) entry => m.insert entry.1 entry.2) scan.terms ∧
      (entries.foldl TermScan.add scan).observedLength
        = scan.observedLength + (entries.map Prod.snd).sum := by
  induction entries generalizing scan with
  | nil => exact ⟨rfl, rfl⟩
  | cons entry entries ih =>
    obtain ⟨hterms, hlength⟩ := ih (scan.add entry)
    refine ⟨hterms, ?_⟩
    rw [List.foldl_cons, hlength, List.map_cons, List.sum_cons, ← Nat.add_assoc]
    rfl

/-- An entry of a forward record takes at least twelve bytes. -/
theorem length_flatMap_termBytes (entries : List (Text × Nat)) :
    12 * entries.length ≤ (entries.flatMap termBytes).length := by
  induction entries with
  | nil => rfl
  | cons entry entries ih =>
    rw [List.flatMap_cons, List.length_append, List.length_cons, termBytes, component,
      List.length_append, List.length_append, length_beBytes, length_beBytes]
    omega

theorem length_toList_le_sum {terms : Frequencies}
    (h : ∀ (term : Text) (n : Nat), terms[term]? = some n → n ≠ 0) :
    terms.toList.length ≤ OrdMap.sum (fun _ n => n) terms := by
  have hone : OrdMap.sum (fun _ _ => 1) terms = terms.toList.length := by
    rw [OrdMap.sum, List.map_const', List.sum_replicate, smul_eq_mul, Nat.mul_one]
  rw [← hone]
  exact OrdMap.sum_le_sum fun term n hget => Nat.one_le_iff_ne_zero.mpr (h term n hget)

/-- A forward record is read back as it was written. -/
theorem decodeTerms_termsBytes {terms : Frequencies}
    (haccept : ∀ (term : Text) (n : Nat), terms[term]? = some n → Acceptable unicode (term, n))
    (hlength : OrdMap.sum (fun _ n => n) terms < u64Limit) :
    decodeTerms unicode (termsBytes terms) = .ok (terms, OrdMap.sum (fun _ n => n) terms) := by
  have hcount : terms.toList.length < 256 ^ 8 :=
    lt_of_le_of_lt (length_toList_le_sum fun term n hget => (haccept term n hget).positive) hlength
  have hcountRead := (Reader.Parses.readBe (corrupt "truncated integer") hcount)
    (beBytes 8 (OrdMap.sum (fun _ n => n) terms) ++ terms.toList.flatMap termBytes)
  have hlengthRead := (Reader.Parses.readBe (corrupt "truncated integer")
    (show OrdMap.sum (fun _ n => n) terms < 256 ^ 8 from hlength)) (terms.toList.flatMap termBytes)
  have hloop : decodeTermsLoop unicode terms.toList.length ⟨∅, 0, none⟩
      (terms.toList.flatMap termBytes ++ []) = .ok (terms.toList.foldl TermScan.add ⟨∅, 0, none⟩, []) :=
    parses_decodeTermsLoop
      (fun entry hentry => haccept entry.1 entry.2 ((OrdMap.mem_toList_iff terms _ _).mp hentry))
      (OrdMap.sorted_toList terms) (by simp) (by rw [Nat.zero_add]; exact hlength) []
  obtain ⟨hterms, hobserved⟩ := foldl_add terms.toList ⟨∅, 0, none⟩
  have htwelve := length_flatMap_termBytes terms.toList
  rw [List.append_nil] at hloop
  rw [termsBytes, List.append_assoc, decodeTerms, readU64, hcountRead, Exec.ok_bind]
  dsimp only
  rw [hlengthRead, Exec.ok_bind]
  dsimp only
  rw [if_neg (by omega), hloop, Exec.ok_bind]
  dsimp only
  rw [if_neg]
  · rw [hterms, OrdMap.foldl_insert_toList]
    rfl
  · rw [hobserved]
    simp [OrdMap.sum]

end

end CereDB.Fts
