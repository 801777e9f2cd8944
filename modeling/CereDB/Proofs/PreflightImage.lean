import CereDB.Proofs.TableRoundTrip
import CereDB.Storage.Preflight

/-!
# `CereDB.Proofs.PreflightImage`: what the preflight accepts

`sstable_preflight::validate` walks over the lengths of a file and builds nothing. `validate_iff` says
what it accepts: an index, a filter and blocks written one behind the other (`Accepted`), with right
counts and lengths, and only the checksums open.

The lemmas that end in `_eq_ok` read the walk backwards, from what it accepted to the bytes. Those
that end in `_parses` or `_ok` run it on the encodings.
-/

set_option autoImplicit false

namespace CereDB.Storage

open CereDB.Lib

/-! ### Encodings -/

/-- An index entry whose fields fit their widths. -/
structure SparseIndexEntry.Fits (entry : SparseIndexEntry) : Prop where
  firstKey : entry.firstKey.length < 256 ^ 8
  blockOffset : entry.blockOffset < 256 ^ 8
  lastKey : entry.lastKey.length < 256 ^ 8
  recordCount : entry.recordCount < 256 ^ 4

/-- The index section with the given entries. -/
def indexImage (index : List SparseIndexEntry) : Bytes :=
  beBytes 8 index.length ++ index.flatMap SparseIndexEntry.encode

/-- The numbers in front of a bitmap agree with it, and there is a hash and a bit. -/
structure BloomFilterWrapper.Sound (bitCount : Nat) (filter : BloomFilterWrapper) : Prop where
  seed : filter.seed < 256 ^ 16
  bits : bitCount + 63 < u64Limit
  words : (bitCount + 63) / 64 = filter.words.length
  hashes : filter.numHashes.toNat ≠ 0
  hashes_le : filter.numHashes.toNat ≤ bitCount

theorem BloomFilterWrapper.Sound.length_words {bitCount : Nat} {filter : BloomFilterWrapper}
    (h : filter.Sound bitCount) : 8 * filter.words.length < u64Limit ∧ filter.words.length ≠ 0 := by
  have hbits := h.bits
  have hwords := h.words
  have hhashes := h.hashes
  have hle := h.hashes_le
  omega

/-! ### The walk, read backwards -/

namespace Preflight

theorem skip_eq_ok {n : Nat} {bs rest : Bytes} (h : skip n bs = .ok ((), rest)) :
    ∃ taken, bs = taken ++ rest ∧ taken.length = n := by
  obtain ⟨taken, mid, hread, hpure⟩ := Reader.bind_eq_ok h
  obtain ⟨rfl, hlength⟩ := readExact_eq_ok hread
  obtain ⟨-, rfl⟩ := Prod.ext_iff.mp (Except.ok.inj hpure)
  exact ⟨taken, rfl, hlength⟩

theorem finish_eq_ok {bs : Bytes} {result : Unit × Bytes} (h : finish bs = .ok result) :
    bs = [] := by
  rw [finish] at h
  split at h
  · assumption
  · cases h

theorem slice_eq_ok {bytes part : Bytes} {start stop : Nat} (h : slice bytes start stop = .ok part) :
    start ≤ stop ∧ stop ≤ bytes.length ∧ part = (bytes.take stop).drop start := by
  rw [slice] at h
  split at h
  · rename_i hfits
    exact ⟨hfits.1, hfits.2, (Except.ok.inj h).symm⟩
  · cases h

/-- One round of the index loop took an entry and checked its offset. -/
theorem indexEntry_eq_ok {dataBlockEnd : Nat} {previous : Option Nat} {bs rest : Bytes}
    {found : IndexEntry} (h : indexEntry dataBlockEnd previous bs = .ok (found, rest)) :
    ∃ entry : SparseIndexEntry, bs = entry.encode ++ rest ∧ entry.Fits ∧
      found = ⟨entry.blockOffset, entry.recordCount⟩ ∧ entry.blockOffset < dataBlockEnd ∧
      ∀ offset, previous = some offset → offset < entry.blockOffset := by
  obtain ⟨firstLen, bs₁, hfirstLen, h⟩ := Reader.bind_eq_ok h
  obtain ⟨_, bs₂, hfirst, h⟩ := Reader.bind_eq_ok h
  obtain ⟨blockOffset, bs₃, hoffset, h⟩ := Reader.bind_eq_ok h
  obtain ⟨lastLen, bs₄, hlastLen, h⟩ := Reader.bind_eq_ok h
  obtain ⟨_, bs₅, hlast, h⟩ := Reader.bind_eq_ok h
  obtain ⟨recordCount, bs₆, hcount, hguard⟩ := Reader.bind_eq_ok h
  obtain ⟨rfl, hfirstFits⟩ := readBe_eq_ok hfirstLen
  obtain ⟨firstKey, rfl, rfl⟩ := skip_eq_ok hfirst
  obtain ⟨rfl, hoffsetFits⟩ := readBe_eq_ok hoffset
  obtain ⟨rfl, hlastFits⟩ := readBe_eq_ok hlastLen
  obtain ⟨lastKey, rfl, rfl⟩ := skip_eq_ok hlast
  obtain ⟨rfl, hcountFits⟩ := readBe_eq_ok hcount
  dsimp only at hguard
  by_cases hbad : dataBlockEnd ≤ blockOffset ∨ previous.any (blockOffset ≤ ·)
  · rw [if_pos hbad] at hguard
    cases hguard
  · rw [if_neg hbad] at hguard
    obtain ⟨rfl, rfl⟩ := Prod.ext_iff.mp (Except.ok.inj hguard)
    rw [not_or, not_le] at hbad
    refine ⟨⟨firstKey, blockOffset, lastKey, recordCount⟩, ?_, ⟨hfirstFits, hoffsetFits, hlastFits,
      hcountFits⟩, rfl, hbad.1, ?_⟩
    · simp only [SparseIndexEntry.encode, List.append_assoc]
    · rintro offset rfl
      simpa using hbad.2

/-- The index loop took a list of entries with ascending offsets. -/
theorem indexEntries_eq_ok {dataBlockEnd count : Nat} {previous : Option Nat} {bs rest : Bytes}
    {found : List IndexEntry}
    (h : indexEntries dataBlockEnd count previous bs = .ok (found, rest)) :
    ∃ index : List SparseIndexEntry, bs = index.flatMap SparseIndexEntry.encode ++ rest ∧
      index.length = count ∧ (∀ entry ∈ index, entry.Fits ∧ entry.blockOffset < dataBlockEnd) ∧
      found = index.map (fun entry => ⟨entry.blockOffset, entry.recordCount⟩) ∧
      (previous.toList ++ index.map SparseIndexEntry.blockOffset).IsChain (· < ·) := by
  induction count generalizing previous bs found with
  | zero =>
    obtain ⟨rfl, rfl⟩ := Prod.ext_iff.mp (Except.ok.inj h)
    refine ⟨[], rfl, rfl, fun entry hmem => absurd hmem List.not_mem_nil, rfl, ?_⟩
    cases previous <;> simp
  | succ count ih =>
    obtain ⟨first, mid, hfirst, h⟩ := Reader.bind_eq_ok h
    obtain ⟨others, mid', hothers, hpure⟩ := Reader.bind_eq_ok h
    obtain ⟨rfl, rfl⟩ := Prod.ext_iff.mp (Except.ok.inj hpure)
    obtain ⟨entry, rfl, hfits, rfl, hend, hprevious⟩ := indexEntry_eq_ok hfirst
    obtain ⟨index, rfl, hlength, hindex, rfl, hchain⟩ := ih hothers
    refine ⟨entry :: index, by rw [List.flatMap_cons, List.append_assoc],
      by rw [List.length_cons, hlength], ?_, rfl, ?_⟩
    · intro other hmem
      rcases List.mem_cons.mp hmem with rfl | hmem
      · exact ⟨hfits, hend⟩
      · exact hindex other hmem
    · cases previous with
      | none => exact hchain
      | some offset => exact .cons_cons (hprevious offset rfl) hchain

/-- The walk over the index section. -/
theorem index_eq_ok {dataBlockEnd : Nat} {part : Bytes} {found : List IndexEntry}
    (h : Preflight.index dataBlockEnd part = .ok found) :
    ∃ index : List SparseIndexEntry, part = indexImage index ∧
      (∀ entry ∈ index, entry.Fits ∧ entry.blockOffset < dataBlockEnd) ∧
      found = index.map (fun entry => ⟨entry.blockOffset, entry.recordCount⟩) ∧
      (index.map SparseIndexEntry.blockOffset).IsChain (· < ·) := by
  obtain ⟨⟨count, rest⟩, hcount, h⟩ := Exec.bind_eq_ok h
  obtain ⟨rfl, -⟩ := readBe_eq_ok hcount
  simp only at h
  split at h
  · cases h
  · obtain ⟨⟨entries, rest'⟩, hentries, h⟩ := Exec.bind_eq_ok h
    obtain ⟨_, hfinish, hpure⟩ := Exec.bind_eq_ok h
    obtain rfl := Except.ok.inj hpure
    obtain rfl := finish_eq_ok hfinish
    obtain ⟨index, rfl, rfl, hindex, rfl, hchain⟩ := indexEntries_eq_ok hentries
    exact ⟨index, by rw [List.append_nil]; rfl, hindex, rfl, hchain⟩

/-- Bytes in groups of eight are the words of a bitmap. -/
theorem exists_words {bitmap : Bytes} {count : Nat} (h : bitmap.length = 8 * count) :
    ∃ words : List UInt64, words.length = count ∧
      bitmap = words.flatMap fun word => beBytes 8 word.toNat := by
  induction count generalizing bitmap with
  | zero => exact ⟨[], rfl, List.length_eq_zero_iff.mp h⟩
  | succ count ih =>
    have hfirst : (bitmap.take 8).length = 8 := by
      rw [List.length_take]
      omega
    have hlength : (bitmap.drop 8).length = 8 * count := by
      rw [List.length_drop]
      omega
    obtain ⟨words, rfl, hrest⟩ := ih hlength
    have hlt := beNat_lt (bitmap.take 8)
    rw [hfirst] at hlt
    have hword : (UInt64.ofNat (beNat (bitmap.take 8))).toNat = beNat (bitmap.take 8) :=
      UInt64.toNat_ofNat_of_lt (show _ < 2 ^ 64 from hlt)
    have hbytes : beBytes 8 (beNat (bitmap.take 8)) = bitmap.take 8 := by
      have hback := beBytes_beNat (bitmap.take 8)
      rw [hfirst] at hback
      exact hback
    refine ⟨UInt64.ofNat (beNat (bitmap.take 8)) :: words, rfl, ?_⟩
    rw [List.flatMap_cons, ← hrest, hword, hbytes, List.take_append_drop]

/-- The walk over the filter section. -/
theorem bloom_eq_ok {part : Bytes} (h : Preflight.bloom part = .ok ()) :
    ∃ (filter : BloomFilterWrapper) (bitCount : Nat), part = filter.image bitCount ∧
      filter.Sound bitCount := by
  obtain ⟨⟨_, rest⟩, hwalk, -⟩ := Exec.bind_eq_ok h
  obtain ⟨_, bs₁, hseed, hwalk⟩ := Reader.bind_eq_ok hwalk
  obtain ⟨bitCount, bs₂, hbits, hwalk⟩ := Reader.bind_eq_ok hwalk
  obtain ⟨hashes, bs₃, hhashes, hwalk⟩ := Reader.bind_eq_ok hwalk
  obtain ⟨count, bs₄, hcount, hguard⟩ := Reader.bind_eq_ok hwalk
  obtain ⟨seed, rfl, hseedLength⟩ := skip_eq_ok hseed
  obtain ⟨rfl, -⟩ := readBe_eq_ok hbits
  obtain ⟨rfl, hhashesFits⟩ := readBe_eq_ok hhashes
  obtain ⟨rfl, hcountFits⟩ := readBe_eq_ok hcount
  split at hguard
  · cases hguard
  · rename_i hfits
    obtain ⟨_, bs₅, hskip, hfinish⟩ := Reader.bind_eq_ok hguard
    obtain ⟨bitmap, rfl, hbitmap⟩ := skip_eq_ok hskip
    obtain rfl := finish_eq_ok hfinish
    obtain ⟨words, rfl, rfl⟩ := exists_words hbitmap
    have hhashesNat : (UInt32.ofNat hashes).toNat = hashes :=
      UInt32.toNat_ofNat_of_lt (show hashes < 2 ^ 32 from hhashesFits)
    refine ⟨⟨beNat seed, UInt32.ofNat hashes, words⟩, bitCount, ?_, ?_⟩
    · have hseedBytes : beBytes 16 (beNat seed) = seed := by
        rw [← hseedLength, beBytes_beNat]
      simp only [BloomFilterWrapper.image, hhashesNat, hseedBytes, List.append_assoc,
        List.append_nil]
    · have hseedFits := beNat_lt seed
      rw [hseedLength] at hseedFits
      simp only [not_or, not_le, not_lt, ne_eq, not_not] at hfits
      obtain ⟨-, hhashesPos, hhashesLe, -, -, hbitsFit, hwords, -⟩ := hfits
      exact {
        seed := hseedFits
        bits := hbitsFit
        words := hwords
        hashes := by rw [hhashesNat]; exact hhashesPos
        hashes_le := by rw [hhashesNat]; exact hhashesLe }

/-- One round of the loop over the records of a block took a record. -/
theorem record_eq_ok {bs rest : Bytes} (h : record bs = .ok ((), rest)) :
    ∃ found : MemtableRecord, bs = found.encode found.key ++ rest ∧ found.Encodable := by
  obtain ⟨keyLen, bs₁, hkeyLen, h⟩ := Reader.bind_eq_ok h
  obtain ⟨_, bs₂, hkey, h⟩ := Reader.bind_eq_ok h
  obtain ⟨valueLen, bs₃, hvalueLen, h⟩ := Reader.bind_eq_ok h
  obtain ⟨_, bs₄, hvalue, h⟩ := Reader.bind_eq_ok h
  obtain ⟨kind, bs₅, hkind, hguard⟩ := Reader.bind_eq_ok h
  obtain ⟨rfl, hkeyFits⟩ := readLe_eq_ok hkeyLen
  obtain ⟨key, rfl, rfl⟩ := skip_eq_ok hkey
  obtain ⟨rfl, hvalueFits⟩ := readLe_eq_ok hvalueLen
  obtain ⟨value, rfl, rfl⟩ := skip_eq_ok hvalue
  obtain ⟨rfl, -⟩ := readExact_eq_ok hkind
  split at hguard
  · cases hguard
  · rename_i hknown
    obtain ⟨lsn, rfl, hlsn⟩ := skip_eq_ok hguard
    have hlsnBytes : leBytes 8 (leNat lsn) = lsn := by rw [← hlsn, leBytes_leNat]
    have hlsnFits : leNat lsn < 256 ^ 8 := by
      have hlt := leNat_lt lsn
      rw [hlsn] at hlt
      exact hlt
    -- the byte is one of the two the record type is stored as
    obtain ⟨recordType, rfl⟩ : ∃ recordType : RecordType, kind = [recordType.toByte] := by
      rw [not_and_or, not_not, not_not] at hknown
      rcases hknown with rfl | rfl
      · exact ⟨.put, rfl⟩
      · exact ⟨.delete, rfl⟩
    refine ⟨⟨recordType, leNat lsn, key, value⟩, ?_, ⟨hkeyFits, hvalueFits, hlsnFits⟩⟩
    simp only [MemtableRecord.encode, hlsnBytes, List.append_assoc]

/-- The walk over a block. -/
theorem block_eq_ok {recordCount : Nat} {bytes : Bytes}
    (h : Preflight.block recordCount bytes = .ok ()) :
    ∃ (found : Block) (checksum : Nat), bytes = found.body ++ beBytes 4 checksum ∧ found.Shaped ∧
      found.recordCount = recordCount ∧ found.offset = 0 ∧ checksum < 256 ^ 4 := by
  obtain ⟨⟨recordBytes, rest⟩, hwalk, hrecords⟩ := Exec.bind_eq_ok h
  obtain ⟨⟨units, rest'⟩, hunits, hfinish'⟩ := Exec.bind_eq_ok hrecords
  obtain ⟨_, hdone, -⟩ := Exec.bind_eq_ok hfinish'
  obtain rfl := finish_eq_ok hdone
  obtain ⟨records, hbytes, hcount, hencodable⟩ := Reader.replicate_eq_ok
    (fun record : MemtableRecord => record.encode record.key) (P := MemtableRecord.Encodable)
    (fun bs _ rest => record_eq_ok) hunits
  obtain ⟨firstLen, bs₁, hfirstLen, hwalk⟩ := Reader.bind_eq_ok hwalk
  obtain ⟨_, bs₂, hfirst, hwalk⟩ := Reader.bind_eq_ok hwalk
  obtain ⟨lastLen, bs₃, hlastLen, hwalk⟩ := Reader.bind_eq_ok hwalk
  obtain ⟨_, bs₄, hlast, hwalk⟩ := Reader.bind_eq_ok hwalk
  obtain ⟨blockCount, bs₅, hblockCount, hwalk⟩ := Reader.bind_eq_ok hwalk
  obtain ⟨dataSize, bs₆, hdataSize, hguard⟩ := Reader.bind_eq_ok hwalk
  obtain ⟨rfl, hfirstFits⟩ := readBe_eq_ok hfirstLen
  obtain ⟨firstKey, rfl, rfl⟩ := skip_eq_ok hfirst
  obtain ⟨rfl, hlastFits⟩ := readBe_eq_ok hlastLen
  obtain ⟨lastKey, rfl, rfl⟩ := skip_eq_ok hlast
  obtain ⟨rfl, -⟩ := readBe_eq_ok hblockCount
  obtain ⟨rfl, hsizeFits⟩ := readBe_eq_ok hdataSize
  split at hguard
  · cases hguard
  · rename_i hcounts
    rw [not_or, not_not] at hcounts
    obtain ⟨recordBytes', bs₇, hread, hrest⟩ := Reader.bind_eq_ok hguard
    obtain ⟨_, bs₈, hchecksum, hrest⟩ := Reader.bind_eq_ok hrest
    obtain ⟨_, bs₉, hfinish, hpure⟩ := Reader.bind_eq_ok hrest
    obtain ⟨rfl, hsize⟩ := readExact_eq_ok hread
    obtain ⟨checksum, rfl, hchecksumLength⟩ := skip_eq_ok hchecksum
    obtain rfl := finish_eq_ok hfinish
    obtain ⟨rfl, -⟩ := Prod.ext_iff.mp (Except.ok.inj hpure)
    replace hbytes : recordBytes' = records.flatMap fun record => record.encode record.key := by
      rw [List.append_nil] at hbytes
      exact hbytes
    have hsum : recordsSize records = dataSize := by
      rw [← length_flatMap_encode, ← hbytes, hsize]
    have hchecksumBytes : beBytes 4 (beNat checksum) = checksum := by
      rw [← hchecksumLength, beBytes_beNat]
    refine ⟨⟨0, firstKey, lastKey, blockCount, dataSize, some records⟩, beNat checksum, ?_, ?_,
      hcounts.1, rfl, ?_⟩
    · simp only [Block.body, Block.records, Option.getD_some, hchecksumBytes, hbytes,
        List.append_assoc, List.append_nil]
    · exact {
        data := rfl
        firstKey := hfirstFits
        lastKey := hlastFits
        recordCount := hcounts.1.trans hcount.symm
        dataSize := hsum.symm
        small := hsum ▸ hsizeFits
        encodable := hencodable }
    · have hlt := beNat_lt checksum
      rw [hchecksumLength] at hlt
      exact hlt

end Preflight

/-- The bytes of a block between its offset and the given end, up to the checksum. -/
structure BlockImage (bytes : Bytes) (span : SparseIndexEntry × Nat) (block : Block)
    (checksum : Nat) : Prop where
  start_le : span.1.blockOffset ≤ span.2
  stop_le : span.2 ≤ bytes.length
  bytes : (bytes.take span.2).drop span.1.blockOffset = block.body ++ beBytes 4 checksum
  shaped : block.Shaped
  recordCount : block.recordCount = span.1.recordCount
  offset : block.offset = 0
  checksum : checksum < 256 ^ 4

/-- The loop over the blocks. -/
theorem Preflight.blocks_eq_ok {bytes : Bytes} {dataBlockEnd : Nat} {index : List SparseIndexEntry}
    (h : Preflight.blocks bytes dataBlockEnd
      (index.map fun entry => ⟨entry.blockOffset, entry.recordCount⟩) = .ok ()) :
    ∀ span ∈ blockSpans dataBlockEnd index, ∃ block checksum, BlockImage bytes span block checksum := by
  induction index with
  | nil => exact fun span hmem => absurd hmem List.not_mem_nil
  | cons entry index ih =>
    rw [List.map_cons] at h
    unfold Preflight.blocks at h
    obtain ⟨found, hfound, h⟩ := Exec.bind_eq_ok h
    obtain ⟨_, hblock, hrest⟩ := Exec.bind_eq_ok h
    replace hfound : Preflight.slice bytes entry.blockOffset
        ((index.head?.map SparseIndexEntry.blockOffset).getD dataBlockEnd) = .ok found := by
      cases index <;> exact hfound
    intro span hmem
    rcases List.mem_cons.mp hmem with rfl | hmem
    · obtain ⟨hstart, hend, rfl⟩ := Preflight.slice_eq_ok hfound
      obtain ⟨block, checksum, hbytes, hshaped, hcount, hoffset, hchecksum⟩ :=
        Preflight.block_eq_ok hblock
      exact ⟨block, checksum, hstart, hend, hbytes, hshaped, hcount, hoffset, hchecksum⟩
    · exact ih hrest span hmem

/-- What the preflight accepts: the sections follow each other, and the index, the filter and the
blocks fill their parts of the file. -/
structure Accepted (bytes : Bytes) (footer : SSTableFooter) (index : List SparseIndexEntry)
    (filter : BloomFilterWrapper) (bitCount : Nat) : Prop where
  dataBlockStart : footer.dataBlockStart = 0
  dataBlockEnd : footer.dataBlockEnd = footer.indexBlockStart
  index_le : footer.indexBlockStart ≤ footer.indexBlockEnd
  indexBlockEnd : footer.indexBlockEnd = footer.bloomBlockStart
  bloom_le : footer.bloomBlockStart ≤ footer.bloomBlockEnd
  bloomBlockEnd : footer.bloomBlockEnd + footerSize = bytes.length
  indexBytes : (bytes.take footer.indexBlockEnd).drop footer.indexBlockStart = indexImage index
  entries : ∀ entry ∈ index, entry.Fits ∧ entry.blockOffset < footer.dataBlockEnd
  ascending : (index.map SparseIndexEntry.blockOffset).IsChain (· < ·)
  bloomBytes : (bytes.take footer.bloomBlockEnd).drop footer.bloomBlockStart = filter.image bitCount
  sound : filter.Sound bitCount
  blocks : ∀ span ∈ blockSpans footer.dataBlockEnd index, ∃ block checksum,
    BlockImage bytes span block checksum

theorem Preflight.offsetsFit_iff {footer : SSTableFooter} {fileLen : Nat} :
    offsetsFit footer fileLen = true ↔ footer.dataBlockStart = 0 ∧
      footer.dataBlockEnd = footer.indexBlockStart ∧
      footer.indexBlockStart ≤ footer.indexBlockEnd ∧
      footer.indexBlockEnd = footer.bloomBlockStart ∧
      footer.bloomBlockStart ≤ footer.bloomBlockEnd ∧
      checkedAdd footer.bloomBlockEnd footerSize = some fileLen := by
  simp only [offsetsFit, Bool.and_eq_true, beq_iff_eq, decide_eq_true_eq, and_assoc]

theorem checkedAdd_eq_some {a b sum : Nat} (h : checkedAdd a b = some sum) : a + b = sum := by
  rw [checkedAdd] at h
  split at h
  · exact Option.some.inj h
  · cases h

theorem Preflight.validate_eq_ok {bytes : Bytes} {footer : SSTableFooter}
    (h : Preflight.validate bytes footer = .ok ()) :
    ∃ index filter bitCount, Accepted bytes footer index filter bitCount := by
  rw [Preflight.validate] at h
  split at h
  · cases h
  · rename_i hoffsets
    rw [Bool.not_eq_true', Bool.not_eq_false, offsetsFit_iff] at hoffsets
    obtain ⟨hstart, hdata, hindexLe, hindexEnd, hbloomLe, hlength⟩ := hoffsets
    obtain ⟨indexPart, hindexPart, h⟩ := Exec.bind_eq_ok h
    obtain ⟨found, hindex, h⟩ := Exec.bind_eq_ok h
    obtain ⟨bloomPart, hbloomPart, h⟩ := Exec.bind_eq_ok h
    obtain ⟨_, hbloom, hblocks⟩ := Exec.bind_eq_ok h
    obtain ⟨-, -, rfl⟩ := slice_eq_ok hindexPart
    obtain ⟨-, -, rfl⟩ := slice_eq_ok hbloomPart
    obtain ⟨index, himage, hentries, rfl, hascending⟩ := index_eq_ok hindex
    obtain ⟨filter, bitCount, hfilter, hsound⟩ := bloom_eq_ok hbloom
    exact ⟨index, filter, bitCount, {
      dataBlockStart := hstart
      dataBlockEnd := hdata
      index_le := hindexLe
      indexBlockEnd := hindexEnd
      bloom_le := hbloomLe
      bloomBlockEnd := checkedAdd_eq_some hlength
      indexBytes := himage
      entries := hentries
      ascending := hascending
      bloomBytes := hfilter
      sound := hsound
      blocks := blocks_eq_ok hblocks }⟩

/-! ### The walk on encodings -/

namespace Preflight

theorem skip_parses {n : Nat} {taken : Bytes} (h : taken.length = n) :
    Reader.Parses (skip n) taken () := by
  have hparse := (Reader.Parses.readExact error h).bind
    (f := fun _ => (pure () : Decode Unit)) (Reader.Parses.pure ())
  rw [List.append_nil] at hparse
  exact hparse

theorem indexEntry_parses {dataBlockEnd : Nat} {previous : Option Nat} {entry : SparseIndexEntry}
    (hfits : entry.Fits) (hend : entry.blockOffset < dataBlockEnd)
    (hprevious : ∀ offset, previous = some offset → offset < entry.blockOffset) :
    Reader.Parses (indexEntry dataBlockEnd previous) entry.encode
      ⟨entry.blockOffset, entry.recordCount⟩ := by
  have henc : entry.encode = beBytes 8 entry.firstKey.length ++ (entry.firstKey ++
      (beBytes 8 entry.blockOffset ++ (beBytes 8 entry.lastKey.length ++ (entry.lastKey ++
        (beBytes 4 entry.recordCount ++ []))))) := by
    simp only [SparseIndexEntry.encode, List.append_assoc, List.append_nil]
  have hgood : ¬ (dataBlockEnd ≤ entry.blockOffset ∨ previous.any (entry.blockOffset ≤ ·)) := by
    rw [not_or, not_le]
    refine ⟨hend, ?_⟩
    cases previous with
    | none => simp
    | some offset => simpa using hprevious offset rfl
  rw [henc]
  refine (Reader.Parses.readBe error hfits.firstKey).bind ?_
  refine (skip_parses rfl).bind ?_
  refine (Reader.Parses.readBe error hfits.blockOffset).bind ?_
  refine (Reader.Parses.readBe error hfits.lastKey).bind ?_
  refine (skip_parses rfl).bind ?_
  refine (Reader.Parses.readBe error hfits.recordCount).bind ?_
  rw [if_neg hgood]
  exact Reader.Parses.pure _

theorem indexEntries_parses {dataBlockEnd : Nat} (previous : Option Nat)
    {index : List SparseIndexEntry}
    (hindex : ∀ entry ∈ index, entry.Fits ∧ entry.blockOffset < dataBlockEnd)
    (hchain : (previous.toList ++ index.map SparseIndexEntry.blockOffset).IsChain (· < ·)) :
    Reader.Parses (indexEntries dataBlockEnd index.length previous)
      (index.flatMap SparseIndexEntry.encode)
      (index.map fun entry => ⟨entry.blockOffset, entry.recordCount⟩) := by
  induction index generalizing previous with
  | nil => exact Reader.Parses.pure []
  | cons entry index ih =>
    have hentry := hindex entry List.mem_cons_self
    have hrest : ((some entry.blockOffset).toList ++
        index.map SparseIndexEntry.blockOffset).IsChain (· < ·) := by
      cases previous with
      | none => exact hchain
      | some offset => exact (List.isChain_cons_cons.mp hchain).2
    have hprevious : ∀ offset, previous = some offset → offset < entry.blockOffset := by
      rintro offset rfl
      exact (List.isChain_cons_cons.mp hchain).1
    have htail := ih _ (fun other hmem => hindex other (List.mem_cons_of_mem entry hmem)) hrest
    rw [List.flatMap_cons, List.length_cons, List.map_cons, indexEntries]
    refine (indexEntry_parses hentry.1 hentry.2 hprevious).bind ?_
    have hcons := htail.bind (f := fun entries => (pure
      ((⟨entry.blockOffset, entry.recordCount⟩ : IndexEntry) :: entries) :
        Decode (List IndexEntry))) (Reader.Parses.pure _)
    rw [List.append_nil] at hcons
    exact hcons

theorem length_flatMap_entries (index : List SparseIndexEntry) :
    28 * index.length ≤ (index.flatMap SparseIndexEntry.encode).length := by
  induction index with
  | nil => exact le_refl 0
  | cons entry index ih =>
    have hentry : 28 ≤ entry.encode.length := by
      simp only [SparseIndexEntry.encode, List.length_append, length_beBytes]
      omega
    rw [List.flatMap_cons, List.length_append, List.length_cons]
    omega

theorem index_ok {dataBlockEnd : Nat} {index : List SparseIndexEntry}
    (hlength : index.length < 256 ^ 8)
    (hindex : ∀ entry ∈ index, entry.Fits ∧ entry.blockOffset < dataBlockEnd)
    (hchain : (index.map SparseIndexEntry.blockOffset).IsChain (· < ·)) :
    Preflight.index dataBlockEnd (indexImage index)
      = .ok (index.map fun entry => ⟨entry.blockOffset, entry.recordCount⟩) := by
  have hcount := Reader.Parses.readBe error hlength (index.flatMap SparseIndexEntry.encode)
  have hentries := indexEntries_parses none hindex hchain []
  have hroom : ¬ ((indexImage index).length - 8) / 28 < index.length := by
    have hle := length_flatMap_entries index
    rw [indexImage, List.length_append, length_beBytes]
    omega
  rw [List.append_nil] at hentries
  rw [Preflight.index]
  show (readBe error 8 (beBytes 8 index.length ++ _) >>= _) = _
  rw [hcount, Exec.ok_bind]
  simp only
  rw [if_neg hroom, hentries, Exec.ok_bind]
  rfl

theorem bloom_ok {filter : BloomFilterWrapper} {bitCount : Nat} (h : filter.Sound bitCount) :
    Preflight.bloom (filter.image bitCount) = .ok () := by
  have hlimit : u64Limit = 256 ^ 8 := by decide
  have hbits := h.bits
  have hwords := h.length_words
  have hbitmap : (filter.words.flatMap fun word => beBytes 8 word.toNat).length
      = 8 * filter.words.length := by
    simp [List.length_flatMap]
    omega
  have himage : filter.image bitCount = beBytes 16 filter.seed ++ (beBytes 8 bitCount ++
      (beBytes 4 filter.numHashes.toNat ++ (beBytes 8 filter.words.length ++
        ((filter.words.flatMap fun word => beBytes 8 word.toNat) ++ [])))) := by
    simp only [BloomFilterWrapper.image, List.append_assoc, List.append_nil]
  have hlength : (filter.image bitCount).length = 36 + 8 * filter.words.length := by
    simp only [himage, List.length_append, length_beBytes, hbitmap, List.length_nil]
    omega
  -- the walk compares with the length of the whole section, so the section keeps its name
  generalize filter.image bitCount = part at himage hlength
  have hgood : ¬ (u64Limit ≤ 8 * filter.words.length ∨ filter.numHashes.toNat = 0 ∨
      bitCount < filter.numHashes.toNat ∨ filter.words.length = 0 ∨ bitCount = 0 ∨
      u64Limit ≤ bitCount + 63 ∨ (bitCount + 63) / 64 ≠ filter.words.length ∨
      part.length < 36 ∨ part.length - 36 ≠ 8 * filter.words.length) := by
    have hhashes := h.hashes
    have hhashesLe := h.hashes_le
    have heq := h.words
    omega
  have hseed := skip_parses (length_beBytes 16 filter.seed) (beBytes 8 bitCount ++
    (beBytes 4 filter.numHashes.toNat ++ (beBytes 8 filter.words.length ++
      ((filter.words.flatMap fun word => beBytes 8 word.toNat) ++ []))))
  rw [← himage] at hseed
  rw [Preflight.bloom]
  show ((skip 16 >>= _ : Decode Unit) part >>= _) = _
  rw [Reader.bind_ok hseed, Reader.bind_ok (Reader.Parses.readBe error (by omega) _),
    Reader.bind_ok (Reader.Parses.readBe error filter.numHashes.toNat_lt _),
    Reader.bind_ok (Reader.Parses.readBe error (by omega) _)]
  simp only
  rw [if_neg hgood, Reader.bind_ok (skip_parses hbitmap _)]
  rfl

theorem record_parses {found : MemtableRecord} (h : found.Encodable) :
    Reader.Parses record (found.encode found.key) () := by
  have henc : found.encode found.key = leBytes 4 found.key.length ++ (found.key ++
      (leBytes 4 found.value.length ++ (found.value ++ ([found.recordType.toByte] ++
        leBytes 8 found.lsn)))) := by
    simp only [MemtableRecord.encode, List.append_assoc]
  have hkind : ¬ ([found.recordType.toByte] ≠ [1] ∧ [found.recordType.toByte] ≠ [2]) := by
    cases found.recordType <;> decide
  rw [henc]
  refine (Reader.Parses.readLe error h.key).bind ?_
  refine (skip_parses rfl).bind ?_
  refine (Reader.Parses.readLe error h.value).bind ?_
  refine (skip_parses rfl).bind ?_
  refine (Reader.Parses.readExact error List.length_singleton).bind ?_
  rw [if_neg hkind]
  exact skip_parses (length_leBytes 8 _)

theorem length_mul_le_recordsSize (records : List MemtableRecord) :
    17 * records.length ≤ recordsSize records := by
  induction records with
  | nil => exact le_refl 0
  | cons record records ih =>
    have hle : 17 ≤ record.recordLength record.key := by
      rw [MemtableRecord.recordLength]
      omega
    rw [recordsSize, List.map_cons, List.sum_cons, List.length_cons]
    rw [recordsSize] at ih
    omega

theorem block_ok {found : Block} (checksum : Nat) (h : found.Shaped) :
    Preflight.block found.recordCount (found.body ++ beBytes 4 checksum) = .ok () := by
  have hsize : found.dataSize < 256 ^ 4 := by rw [h.dataSize]; exact h.small
  have hcount : found.recordCount < 256 ^ 4 := by
    rw [h.recordCount]
    exact Nat.lt_of_le_of_lt (length_le_recordsSize _) h.small
  have hbytes : (found.records.flatMap fun record => record.encode record.key).length
      = found.dataSize := by
    rw [length_flatMap_encode, h.dataSize]
  have hgood : ¬ (found.recordCount ≠ found.recordCount ∨
      found.dataSize / 17 < found.recordCount) := by
    have hle := length_mul_le_recordsSize found.records
    rw [← h.dataSize, ← h.recordCount] at hle
    omega
  have hbody : found.body ++ beBytes 4 checksum
      = beBytes 4 found.firstKey.length ++ (found.firstKey ++
      (beBytes 4 found.lastKey.length ++ (found.lastKey ++ (beBytes 4 found.recordCount ++
        (beBytes 4 found.dataSize ++
          ((found.records.flatMap fun record => record.encode record.key) ++
            (beBytes 4 checksum ++ []))))))) := by
    simp only [Block.body, List.append_assoc, List.append_nil]
  have hrecords : record.replicate found.recordCount
      (found.records.flatMap fun record => record.encode record.key)
      = .ok (found.records.map fun _ => (), []) := by
    have hparse := Reader.Parses.replicate_map (fun _ => ())
      (fun record hmem => record_parses (h.encodable record hmem)) []
    rw [List.append_nil] at hparse
    rw [h.recordCount]
    exact hparse
  rw [Preflight.block, hbody]
  show ((readBe error 4 >>= _ : Decode Bytes) _ >>= _) = _
  rw [Reader.bind_ok (Reader.Parses.readBe error h.firstKey _), Reader.bind_ok (skip_parses rfl _),
    Reader.bind_ok (Reader.Parses.readBe error h.lastKey _), Reader.bind_ok (skip_parses rfl _),
    Reader.bind_ok (Reader.Parses.readBe error hcount _),
    Reader.bind_ok (Reader.Parses.readBe error hsize _)]
  simp only
  rw [if_neg hgood, Reader.bind_ok (Reader.Parses.readExact error hbytes _),
    Reader.bind_ok (skip_parses (length_beBytes 4 checksum) _)]
  show (record.replicate found.recordCount _ >>= _) = _
  rw [hrecords]
  rfl

theorem slice_ok {bytes : Bytes} {start stop : Nat} (hstart : start ≤ stop)
    (hstop : stop ≤ bytes.length) :
    slice bytes start stop = .ok ((bytes.take stop).drop start) :=
  if_pos ⟨hstart, hstop⟩

theorem blocks_ok {bytes : Bytes} {dataBlockEnd : Nat} {index : List SparseIndexEntry}
    (h : ∀ span ∈ blockSpans dataBlockEnd index, ∃ block checksum,
      BlockImage bytes span block checksum) :
    Preflight.blocks bytes dataBlockEnd
      (index.map fun entry => ⟨entry.blockOffset, entry.recordCount⟩) = .ok () := by
  induction index with
  | nil => rfl
  | cons entry index ih =>
    obtain ⟨block, checksum, himage⟩ := h _ List.mem_cons_self
    have hrest := ih fun span hmem => h span (List.mem_cons_of_mem _ hmem)
    have hslice := slice_ok himage.start_le himage.stop_le
    have hblock := block_ok checksum himage.shaped
    rw [himage.recordCount] at hblock
    rw [himage.bytes] at hslice
    have hstop : Preflight.blocks bytes dataBlockEnd ((entry :: index).map fun entry =>
        ⟨entry.blockOffset, entry.recordCount⟩)
        = (do
          let found ← slice bytes entry.blockOffset
            ((index.head?.map SparseIndexEntry.blockOffset).getD dataBlockEnd)
          Preflight.block entry.recordCount found
          Preflight.blocks bytes dataBlockEnd (index.map fun entry =>
            ⟨entry.blockOffset, entry.recordCount⟩)) := by
      cases index <;> rfl
    rw [hstop]
    simp only at hslice hblock
    rw [hslice, Exec.ok_bind, hblock, Exec.ok_bind, hrest]

/-- The preflight accepts exactly the images. A slice is never longer than `isize::MAX`. -/
theorem validate_iff {bytes : Bytes} {footer : SSTableFooter} (hsize : bytes.length ≤ isizeMax) :
    validate bytes footer = .ok () ↔
      ∃ index filter bitCount, Accepted bytes footer index filter bitCount := by
  refine ⟨validate_eq_ok, ?_⟩
  rintro ⟨index, filter, bitCount, h⟩
  have hmax : isizeMax < u64Limit := by decide
  have hlimit : u64Limit = 256 ^ 8 := by decide
  have hend := h.bloomBlockEnd
  have hbloomLe := h.bloom_le
  have hindexLe := h.index_le
  have hjoin := h.indexBlockEnd
  have hoffsets : offsetsFit footer bytes.length = true := by
    rw [offsetsFit_iff]
    refine ⟨h.dataBlockStart, h.dataBlockEnd, h.index_le, h.indexBlockEnd, h.bloom_le, ?_⟩
    rw [checkedAdd, hend, if_pos (by omega)]
  have hlength : index.length < 256 ^ 8 := by
    have hle := length_flatMap_entries index
    have hpart := congrArg List.length h.indexBytes
    rw [indexImage, List.length_append, List.length_drop, List.length_take] at hpart
    omega
  rw [validate, hoffsets]
  simp only [Bool.not_true, Bool.false_eq_true, if_false]
  rw [slice_ok h.index_le (by omega), Exec.ok_bind, h.indexBytes,
    index_ok hlength h.entries h.ascending, Exec.ok_bind, slice_ok h.bloom_le (by omega),
    Exec.ok_bind, h.bloomBytes, bloom_ok h.sound, Exec.ok_bind, blocks_ok h.blocks]

end Preflight

end CereDB.Storage
