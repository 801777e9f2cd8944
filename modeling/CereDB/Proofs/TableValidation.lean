import CereDB.Proofs.Checksum
import CereDB.Proofs.Preflight

/-!
# `CereDB.Proofs.TableValidation`: what `validate_manifest_sstable` accepts

`validate_iff` says what the check of a registered table accepts, `Validated`: a file the preflight
accepts (`Accepted`) whose checksums are right, whose index agrees with the manifest, and whose
blocks agree with the index. `validate_regular` says that the check never panics, whatever the file
holds.

A block is found by a search for the first key of its entry, so what is compared with an entry is
the block at the position the search returns (`Loads`).
-/

set_option autoImplicit false

namespace CereDB.Storage

open CereDB.Lib

/-! ### The footer -/

theorem SSTableFooter.decode_eq_ok {buf rest : Bytes} {footer : SSTableFooter}
    (h : decode buf = .ok (footer, rest)) : buf = footer.encode ++ rest ∧ footer.Fits := by
  obtain ⟨dataBlockStart, bs₁, h₁, h⟩ := Reader.bind_eq_ok h
  obtain ⟨dataBlockEnd, bs₂, h₂, h⟩ := Reader.bind_eq_ok h
  obtain ⟨indexBlockStart, bs₃, h₃, h⟩ := Reader.bind_eq_ok h
  obtain ⟨indexBlockEnd, bs₄, h₄, h⟩ := Reader.bind_eq_ok h
  obtain ⟨indexChecksum, bs₅, h₅, h⟩ := Reader.bind_eq_ok h
  obtain ⟨bloomBlockStart, bs₆, h₆, h⟩ := Reader.bind_eq_ok h
  obtain ⟨bloomBlockEnd, bs₇, h₇, h⟩ := Reader.bind_eq_ok h
  obtain ⟨bloomChecksum, bs₈, h₈, h⟩ := Reader.bind_eq_ok h
  obtain ⟨magic, bs₉, h₉, hmagic⟩ := Reader.bind_eq_ok h
  dsimp only at hmagic
  by_cases hbad : beNat magic ≠ magicNumber
  · rw [if_pos hbad] at hmagic
    cases hmagic
  rw [if_neg hbad] at hmagic
  obtain ⟨stored, bs₁₀, h₁₀, hstored⟩ := Reader.bind_eq_ok hmagic
  by_cases hcrc : stored ≠ crc32 (dataBlockStart ++ dataBlockEnd ++ indexBlockStart ++ indexBlockEnd ++
      indexChecksum ++ bloomBlockStart ++ bloomBlockEnd ++ bloomChecksum ++ magic)
  · rw [if_pos hcrc] at hstored
    cases hstored
  rw [if_neg hcrc] at hstored
  obtain ⟨rfl, rfl⟩ := Prod.ext_iff.mp (Except.ok.inj hstored)
  obtain ⟨rfl, l₁⟩ := readExact_eq_ok h₁
  obtain ⟨rfl, l₂⟩ := readExact_eq_ok h₂
  obtain ⟨rfl, l₃⟩ := readExact_eq_ok h₃
  obtain ⟨rfl, l₄⟩ := readExact_eq_ok h₄
  obtain ⟨rfl, l₅⟩ := readExact_eq_ok h₅
  obtain ⟨rfl, l₆⟩ := readExact_eq_ok h₆
  obtain ⟨rfl, l₇⟩ := readExact_eq_ok h₇
  obtain ⟨rfl, l₈⟩ := readExact_eq_ok h₈
  obtain ⟨rfl, l₉⟩ := readExact_eq_ok h₉
  obtain ⟨rfl, -⟩ := readBe_eq_ok h₁₀
  rw [not_not] at hbad hcrc
  have hback {w : Nat} {bs : Bytes} (hw : bs.length = w) : beBytes w (beNat bs) = bs := by
    rw [← hw, beBytes_beNat]
  have hlt {w : Nat} {bs : Bytes} (hw : bs.length = w) : beNat bs < 256 ^ w := by
    rw [← hw]
    exact beNat_lt bs
  have hbody : SSTableFooter.body
      { dataBlockStart := beNat dataBlockStart
        dataBlockEnd := beNat dataBlockEnd
        indexBlockStart := beNat indexBlockStart
        indexBlockEnd := beNat indexBlockEnd
        indexChecksum := beNat indexChecksum
        bloomBlockStart := beNat bloomBlockStart
        bloomBlockEnd := beNat bloomBlockEnd
        bloomChecksum := beNat bloomChecksum }
      = dataBlockStart ++ dataBlockEnd ++ indexBlockStart ++ indexBlockEnd ++
      indexChecksum ++ bloomBlockStart ++ bloomBlockEnd ++ bloomChecksum ++ magic := by
    rw [body, ← hbad, hback l₁, hback l₂, hback l₃, hback l₄, hback l₅, hback l₆, hback l₇, hback l₈,
      hback l₉]
  refine ⟨?_, ⟨hlt l₁, hlt l₂, hlt l₃, hlt l₄, hlt l₅, hlt l₆, hlt l₇, hlt l₈⟩⟩
  rw [encode, hbody, ← hcrc]
  simp only [List.append_assoc]

/-! ### No panic in the walks -/

theorem SSTableFooter.decode_regular : Decode.Regular decode := by
  refine (Decode.Regular.readExact _ 8).bind fun _ => ?_
  refine (Decode.Regular.readExact _ 8).bind fun _ => ?_
  refine (Decode.Regular.readExact _ 8).bind fun _ => ?_
  refine (Decode.Regular.readExact _ 8).bind fun _ => ?_
  refine (Decode.Regular.readExact _ 4).bind fun _ => ?_
  refine (Decode.Regular.readExact _ 8).bind fun _ => ?_
  refine (Decode.Regular.readExact _ 8).bind fun _ => ?_
  refine (Decode.Regular.readExact _ 4).bind fun _ => ?_
  refine (Decode.Regular.readExact _ 4).bind fun _ => ?_
  refine .ite ((Decode.Regular.throw _).bind fun _ => ?_) ?_ <;>
    exact (Decode.Regular.readBe _ 4).bind fun _ =>
      .ite ((Decode.Regular.throw _).bind fun _ => .pure _) (.pure _)

namespace Preflight

theorem skip_regular (n : Nat) : Decode.Regular (skip n) :=
  (Decode.Regular.readExact _ n).bind fun _ => .pure _

theorem finish_regular : Decode.Regular finish := by
  intro bs
  rw [finish]
  split
  · exact .ok _
  · exact .error _

theorem slice_regular (bytes : Bytes) (start stop : Nat) : Exec.Regular (slice bytes start stop) := by
  rw [slice]
  split
  · exact .ok _
  · exact .error _

theorem indexEntry_regular (dataBlockEnd : Nat) (previous : Option Nat) :
    Decode.Regular (indexEntry dataBlockEnd previous) := by
  refine (Decode.Regular.readBe _ 8).bind fun _ => ?_
  refine (skip_regular _).bind fun _ => ?_
  refine (Decode.Regular.readBe _ 8).bind fun _ => ?_
  refine (Decode.Regular.readBe _ 8).bind fun _ => ?_
  refine (skip_regular _).bind fun _ => ?_
  refine (Decode.Regular.readBe _ 4).bind fun _ => ?_
  exact .ite ((Decode.Regular.throw _).bind fun _ => .pure _) (.pure _)

theorem indexEntries_regular (dataBlockEnd count : Nat) (previous : Option Nat) :
    Decode.Regular (indexEntries dataBlockEnd count previous) := by
  induction count generalizing previous with
  | zero => exact .pure []
  | succ count ih =>
    exact (indexEntry_regular dataBlockEnd previous).bind fun entry =>
      (ih (some entry.offset)).bind fun _ => .pure _

theorem index_regular (dataBlockEnd : Nat) (part : Bytes) :
    Exec.Regular (Preflight.index dataBlockEnd part) := by
  refine (Decode.Regular.readBe _ 8 part).bind fun found => ?_
  simp only
  split
  · exact .error _
  · exact (indexEntries_regular dataBlockEnd _ none _).bind fun found =>
      (finish_regular _).bind fun _ => .ok _

theorem bloom_regular (part : Bytes) : Exec.Regular (Preflight.bloom part) := by
  refine Exec.Regular.bind ?_ fun _ => .ok _
  refine Decode.Regular.bind (skip_regular 16) (fun _ => ?_) part
  refine (Decode.Regular.readBe _ 8).bind fun _ => ?_
  refine (Decode.Regular.readBe _ 4).bind fun _ => ?_
  refine (Decode.Regular.readBe _ 8).bind fun _ => ?_
  refine .ite ((Decode.Regular.throw _).bind fun _ => ?_) ?_ <;>
    exact (skip_regular _).bind fun _ => finish_regular

theorem record_regular : Decode.Regular record := by
  refine (Decode.Regular.readLe _ 4).bind fun _ => ?_
  refine (skip_regular _).bind fun _ => ?_
  refine (Decode.Regular.readLe _ 4).bind fun _ => ?_
  refine (skip_regular _).bind fun _ => ?_
  refine (Decode.Regular.readExact _ 1).bind fun _ => ?_
  exact .ite ((Decode.Regular.throw _).bind fun _ => skip_regular 8) (skip_regular 8)

theorem block_regular (recordCount : Nat) (bytes : Bytes) :
    Exec.Regular (Preflight.block recordCount bytes) := by
  refine Exec.Regular.bind ?_ fun found => (record_regular.replicate recordCount _).bind fun _ =>
    (finish_regular _).bind fun _ => .ok _
  refine Decode.Regular.bind (Decode.Regular.readBe _ 4) (fun _ => ?_) bytes
  refine (skip_regular _).bind fun _ => ?_
  refine (Decode.Regular.readBe _ 4).bind fun _ => ?_
  refine (skip_regular _).bind fun _ => ?_
  refine (Decode.Regular.readBe _ 4).bind fun _ => ?_
  refine (Decode.Regular.readBe _ 4).bind fun _ => ?_
  refine .ite ((Decode.Regular.throw _).bind fun _ => ?_) ?_ <;>
    exact (Decode.Regular.readExact _ _).bind fun _ => (skip_regular 4).bind fun _ =>
      finish_regular.bind fun _ => .pure _

theorem blocks_regular (bytes : Bytes) (dataBlockEnd : Nat) (entries : List IndexEntry) :
    Exec.Regular (Preflight.blocks bytes dataBlockEnd entries) := by
  induction entries with
  | nil => exact .ok ()
  | cons entry entries ih =>
    exact (slice_regular _ _ _).bind fun _ => (block_regular _ _).bind fun _ => ih

theorem validate_regular (bytes : Bytes) (footer : SSTableFooter) :
    Exec.Regular (validate bytes footer) := by
  rw [validate]
  split
  · exact .error _
  · exact (slice_regular _ _ _).bind fun _ => (index_regular _ _).bind fun _ =>
      (slice_regular _ _ _).bind fun _ => (bloom_regular _).bind fun _ => blocks_regular _ _ _

end Preflight

/-! ### The sections of an accepted file -/

section Sections
variable {files : String → Option Bytes} {path : String} {bytes : Bytes}

/-- The footer is decoded from the last bytes of the file. -/
theorem run_footer (hlength : footerSize ≤ bytes.length) (pos : Nat) :
    FileProg.run fileErrors files SSTableFooter.asyncDecode (bytes, pos)
      = (SSTableFooter.decode (bytes.drop (bytes.length - footerSize))).map fun r =>
          (r.1, (bytes, bytes.length)) := by
  have hrest : (bytes.drop (bytes.length - footerSize)).length = footerSize := by
    rw [List.length_drop]
    omega
  have hseek : FileProg.run fileErrors files (FileProg.seekTo (.fromEnd footerSize)) (bytes, pos)
      = .ok ((), (bytes, bytes.length - footerSize)) := by
    rw [FileProg.seekTo, FileProg.run, FileProg.seekPos, if_pos hlength]
    rfl
  have hread : FileProg.run fileErrors files (FileProg.readExact footerSize)
      (bytes, bytes.length - footerSize)
      = .ok (bytes.drop (bytes.length - footerSize), (bytes, bytes.length)) := by
    rw [FileProg.readExact, FileProg.run, if_pos hrest.ge, List.take_of_length_le hrest.le,
      Nat.sub_add_cancel hlength]
    rfl
  rw [SSTableFooter.asyncDecode, FileProg.run_bind_ok hseek, FileProg.run_bind_ok hread]
  cases SSTableFooter.decode (bytes.drop (bytes.length - footerSize)) <;> rfl

variable (hfile : files path = some bytes)

include hfile

theorem result_opened {α : Type} (p : ReadFile α) :
    FileProg.result fileErrors files (do FileProg.openNamed path; p)
      = (FileProg.run fileErrors files p (bytes, 0)).map Prod.fst := by
  rw [FileProg.result, FileProg.run_bind_ok (FileProg.run_open hfile _)]

theorem result_footer (hlength : footerSize ≤ bytes.length) :
    FileProg.result fileErrors files (do FileProg.openNamed path; SSTableFooter.asyncDecode)
      = (SSTableFooter.decode (bytes.drop (bytes.length - footerSize))).map Prod.fst := by
  rw [result_opened hfile, run_footer hlength]
  cases SSTableFooter.decode (bytes.drop (bytes.length - footerSize)) <;> rfl

variable {footer : SSTableFooter} {index : List SparseIndexEntry} {filter : BloomFilterWrapper}
  {bitCount : Nat}

omit hfile in
variable (files) in
/-- A section is read whole, and then its checksum decides. -/
theorem run_readSection {start stop : Nat} (checksum : Nat) (message : String) (hstart : start ≤ stop)
    (hstop : stop ≤ bytes.length) (hsize : bytes.length ≤ isizeMax) (pos : Nat) :
    FileProg.run fileErrors files (readSection start stop checksum message) (bytes, pos)
      = if crc32 ((bytes.take stop).drop start) ≠ checksum then corrupted message
        else .ok ((bytes.take stop).drop start, (bytes, stop)) := by
  have hpart : (bytes.drop start).take (stop - start) = (bytes.take stop).drop start := by
    rw [List.drop_take]
  have halloc : FileProg.run fileErrors files (FileProg.ofExcept (allocate (stop - start)))
      (bytes, start) = .ok ((), (bytes, start)) := by
    rw [allocate, if_pos (by omega)]
    rfl
  have hread : FileProg.run fileErrors files (FileProg.readExact (stop - start)) (bytes, start)
      = .ok ((bytes.take stop).drop start, (bytes, stop)) := by
    rw [FileProg.readExact, FileProg.run, List.length_drop, if_pos (by omega), hpart,
      Nat.add_sub_cancel' hstart]
    rfl
  rw [readSection, FileProg.run_bind_ok (FileProg.run_seek_start bytes start pos),
    FileProg.run_bind_ok halloc, FileProg.run_bind_ok hread]
  split
  · rfl
  · rfl

omit hfile in
variable (files) in
/-- A section is decoded behind its checksum. -/
theorem run_checkedSection {α : Type} {decoder : Decode α} {a : α} {start stop : Nat}
    (checksum : Nat) (message : String) (hstart : start ≤ stop) (hstop : stop ≤ bytes.length)
    (hsize : bytes.length ≤ isizeMax)
    (hdecode : decoder ((bytes.take stop).drop start) = .ok (a, [])) (pos : Nat) :
    FileProg.run fileErrors files (do
        let part ← readSection start stop checksum message
        let (found, _) ← FileProg.ofExcept (decoder part)
        return found) (bytes, pos)
      = if crc32 ((bytes.take stop).drop start) ≠ checksum then corrupted message
        else .ok (a, (bytes, stop)) := by
  have hsection := run_readSection files checksum message hstart hstop hsize pos
  have hwalk : FileProg.run fileErrors files
      (FileProg.ofExcept (decoder ((bytes.take stop).drop start))) (bytes, stop)
      = .ok ((a, []), (bytes, stop)) := by
    rw [FileProg.run_ofExcept, hdecode]
    rfl
  by_cases hcrc : crc32 ((bytes.take stop).drop start) ≠ checksum
  · rw [if_pos hcrc] at hsection ⊢
    rw [FileProg.run_bind, hsection]
    rfl
  · rw [if_neg hcrc] at hsection ⊢
    rw [FileProg.run_bind_ok hsection]
    exact FileProg.run_bind_ok hwalk

omit hfile in
variable (files) in
theorem Accepted.run_index (h : Accepted bytes footer index filter bitCount)
    (hsize : bytes.length ≤ isizeMax) (pos : Nat) :
    FileProg.run fileErrors files (readSstableSparseIndex footer) (bytes, pos)
      = if crc32 (indexImage index) ≠ footer.indexChecksum then
          corrupted "Index block checksum mismatch"
        else .ok (index, (bytes, footer.indexBlockEnd)) := by
  have hrun := run_checkedSection files footer.indexChecksum "Index block checksum mismatch" h.index_le h.stop_le.1 hsize
    (h.index_decode hsize) pos
  rw [h.indexBytes] at hrun
  exact hrun

omit hfile in
variable (files) in
theorem Accepted.run_bloom (h : Accepted bytes footer index filter bitCount)
    (hsize : bytes.length ≤ isizeMax) (pos : Nat) :
    FileProg.run fileErrors files (readSstableBloom footer) (bytes, pos)
      = if crc32 (filter.image bitCount) ≠ footer.bloomChecksum then
          corrupted "Bloom filter checksum mismatch"
        else .ok (filter, (bytes, footer.bloomBlockEnd)) := by
  have hrun := run_checkedSection files footer.bloomChecksum "Bloom filter checksum mismatch" h.bloom_le h.stop_le.2 hsize
    (h.bloom_decode hsize) pos
  rw [h.bloomBytes] at hrun
  exact hrun

/-- The reads with checksums: both sections must have theirs. -/
theorem Accepted.result_checked (h : Accepted bytes footer index filter bitCount)
    (hsize : bytes.length ≤ isizeMax) :
    FileProg.result fileErrors files (do
        FileProg.openNamed path
        let found ← readSstableSparseIndex footer
        let _ ← readSstableBloom footer
        return found)
      = if crc32 (indexImage index) ≠ footer.indexChecksum then
          corrupted "Index block checksum mismatch"
        else if crc32 (filter.image bitCount) ≠ footer.bloomChecksum then
          corrupted "Bloom filter checksum mismatch"
        else .ok index := by
  have hindex := h.run_index files hsize 0
  have hbloom := h.run_bloom files hsize footer.indexBlockEnd
  rw [result_opened hfile]
  by_cases hindexCrc : crc32 (indexImage index) ≠ footer.indexChecksum
  · rw [if_pos hindexCrc] at hindex ⊢
    rw [FileProg.run_bind, hindex]
    rfl
  · rw [if_neg hindexCrc] at hindex ⊢
    rw [FileProg.run_bind_ok hindex]
    by_cases hbloomCrc : crc32 (filter.image bitCount) ≠ footer.bloomChecksum
    · rw [if_pos hbloomCrc] at hbloom ⊢
      rw [FileProg.run_bind, hbloom]
      rfl
    · rw [if_neg hbloomCrc] at hbloom ⊢
      rw [FileProg.run_bind_ok hbloom]
      rfl

theorem Accepted.result_sections (h : Accepted bytes footer index filter bitCount)
    (hsize : bytes.length ≤ isizeMax) {rest : Bytes} (hlength : footerSize ≤ bytes.length)
    (hfooter : SSTableFooter.decode (bytes.drop (bytes.length - footerSize)) = .ok (footer, rest)) :
    FileProg.result fileErrors files (do
        FileProg.openNamed path
        SSTableCodec.deserializeSections)
      = .ok (footer, index, filter) := by
  have hrun : FileProg.run fileErrors files SSTableFooter.asyncDecode (bytes, 0)
      = .ok (footer, (bytes, bytes.length)) := by
    rw [run_footer hlength, hfooter]
    rfl
  have hindex : FileProg.run fileErrors files decodeIndex (bytes, footer.dataBlockEnd)
      = .ok (index, (bytes, footer.indexBlockEnd)) := by
    rw [h.dataBlockEnd, (h.decodeIndex_takes hsize).run]
    rfl
  have hbloom := (h.bloom_takes hsize).run files
  obtain ⟨⟨count, cur⟩, hcount, hentries⟩ : ∃ r, FileProg.run fileErrors files (FileProg.readBe 8)
      (bytes, footer.dataBlockEnd) = .ok r ∧ FileProg.run fileErrors files
        (SparseIndexEntry.asyncDecode.replicate r.1) r.2 = .ok (index, (bytes, footer.indexBlockEnd)) := by
    rw [decodeIndex, FileProg.run_bind] at hindex
    exact Exec.bind_eq_ok hindex
  have hsections : FileProg.run fileErrors files SSTableCodec.deserializeSections (bytes, 0)
      = .ok ((footer, index, filter), (bytes, footer.bloomBlockEnd)) := by
    rw [SSTableCodec.deserializeSections, FileProg.run_bind_ok hrun,
      FileProg.run_bind_ok (FileProg.run_seek_start _ _ _), FileProg.run_bind_ok hcount,
      FileProg.run_bind_ok hentries, FileProg.run_bind_ok (FileProg.run_seek_start _ _ _),
      FileProg.run_bind_ok hbloom]
    rfl
  rw [result_opened hfile, hsections]
  rfl

end Sections

/-! ### The blocks of an accepted file -/

theorem getElem?_blockSpans (dataBlockEnd : Nat) (index : List SparseIndexEntry) (pos : Nat) :
    (blockSpans dataBlockEnd index)[pos]? = index[pos]?.map fun entry =>
      (entry, (index[pos + 1]?.map SparseIndexEntry.blockOffset).getD dataBlockEnd) := by
  induction index generalizing pos with
  | nil => rfl
  | cons entry index ih =>
    cases pos with
    | zero => cases index <;> rfl
    | succ pos => exact ih pos

/-- The search returns a position of the index or an error. -/
theorem blockPosition_cases (index : List SparseIndexEntry) (key : Key) :
    (∃ pos, SSTableCodec.blockPosition index key = .ok pos ∧ pos < index.length) ∨
      ∃ e, SSTableCodec.blockPosition index key = .error (.error e) := by
  rw [SSTableCodec.blockPosition, SSTableCodec.searchIndex]
  cases hfind : index.findIdx? fun entry => SSTableCodec.compareEntry key entry == .eq with
  | some pos =>
    obtain ⟨hlt, -⟩ := List.findIdx?_eq_some_iff_findIdx_eq.mp hfind
    exact .inl ⟨pos, rfl, hlt⟩
  | none =>
    have hle := List.countP_le_length (l := index)
      (p := fun entry => SSTableCodec.compareEntry key entry == .lt)
    cases hcount : index.countP fun entry => SSTableCodec.compareEntry key entry == .lt with
    | zero => exact .inr ⟨_, rfl⟩
    | succ pos =>
      rw [hcount] at hle
      exact .inl ⟨pos, rfl, hle⟩

/-- The block that a search for the key finds, with a right checksum. -/
def Loads (bytes : Bytes) (footer : SSTableFooter) (index : List SparseIndexEntry) (key : Key)
    (block : Block) : Prop :=
  ∃ pos span, SSTableCodec.blockPosition index key = .ok pos ∧
    (blockSpans footer.dataBlockEnd index)[pos]? = some span ∧
    BlockImage bytes span block (crc32 block.body)

section Blocks
variable {files : String → Option Bytes} {bytes : Bytes} {footer : SSTableFooter}
  {index : List SparseIndexEntry} {filter : BloomFilterWrapper} {bitCount : Nat}

/-- The end of the block at a position, as `get_block` finds it. -/
def nextOffset (footer : SSTableFooter) : Option SparseIndexEntry → Nat
  | some next => next.blockOffset
  | none => footer.dataBlockEnd

variable (files) in
/-- `get_block` decodes the block at the position of the search. -/
theorem run_getBlock_of_position {key : Key} {pos : Nat} {span : SparseIndexEntry × Nat}
    {block : Block} {checksum : Nat} (hpos : SSTableCodec.blockPosition index key = .ok pos)
    (hspan : (blockSpans footer.dataBlockEnd index)[pos]? = some span)
    (himage : BlockImage bytes span block checksum) (start : Nat) :
    FileProg.run fileErrors files (SSTableCodec.getBlock footer index key) (bytes, start)
      = (verifyCrc32 block.body checksum).map fun _ => (block, (bytes, span.2)) := by
  rw [getElem?_blockSpans, Option.map_eq_some_iff] at hspan
  obtain ⟨entry, hentry, rfl⟩ := hspan
  have hposRun : FileProg.run fileErrors files
      (FileProg.ofExcept (SSTableCodec.blockPosition index key)) (bytes, start)
      = .ok (pos, (bytes, start)) := by
    rw [hpos]
    rfl
  have hle := himage.start_le
  have hdecode := himage.takes.run files
  have hstop : nextOffset footer index[pos + 1]?
      = (index[pos + 1]?.map SparseIndexEntry.blockOffset).getD footer.dataBlockEnd := by
    cases index[pos + 1]? <;> rfl
  have hread : FileProg.run fileErrors files (do
      FileProg.seekTo (.start entry.blockOffset)
      Block.asyncDecode) (bytes, start)
      = (verifyCrc32 block.body checksum).map fun _ => (block,
          (bytes, (index[pos + 1]?.map SparseIndexEntry.blockOffset).getD footer.dataBlockEnd)) := by
    rw [FileProg.run_bind_ok (FileProg.run_seek_start _ _ _), hdecode]
    cases verifyCrc32 block.body checksum <;> rfl
  rw [SSTableCodec.getBlock, FileProg.run_bind_ok hposRun, hentry]
  show FileProg.run fileErrors files (if nextOffset footer index[pos + 1]? < entry.blockOffset
    then _ else _) _ = _
  rw [hstop, if_neg (not_lt.mpr hle)]
  exact hread

variable (files) in
theorem run_getBlock_of_loads {key : Key} {block : Block} (h : Loads bytes footer index key block)
    (start : Nat) : ∃ stop,
      FileProg.run fileErrors files (SSTableCodec.getBlock footer index key) (bytes, start)
        = .ok (block, (bytes, stop)) := by
  obtain ⟨pos, span, hpos, hspan, himage⟩ := h
  refine ⟨span.2, ?_⟩
  rw [run_getBlock_of_position files hpos hspan himage, verifyCrc32, if_pos rfl]
  rfl

variable (files) in
/-- In an accepted file `get_block` loads a block or returns an error. -/
theorem Accepted.getBlock_cases (h : Accepted bytes footer index filter bitCount) (key : Key)
    (start : Nat) :
    (∃ block stop, Loads bytes footer index key block ∧
      FileProg.run fileErrors files (SSTableCodec.getBlock footer index key) (bytes, start)
        = .ok (block, (bytes, stop))) ∨
    ∃ e, FileProg.run fileErrors files (SSTableCodec.getBlock footer index key) (bytes, start)
      = .error (.error e) := by
  rcases blockPosition_cases index key with ⟨pos, hpos, hlt⟩ | ⟨e, hpos⟩
  · obtain ⟨span, hspan⟩ : ∃ span, (blockSpans footer.dataBlockEnd index)[pos]? = some span := by
      rw [getElem?_blockSpans, List.getElem?_eq_getElem hlt]
      exact ⟨_, rfl⟩
    obtain ⟨block, checksum, himage⟩ := h.blocks span (List.mem_of_getElem? hspan)
    have hrun := run_getBlock_of_position files hpos hspan himage start
    by_cases hcrc : crc32 block.body = checksum
    · subst hcrc
      rw [verifyCrc32, if_pos rfl] at hrun
      exact .inl ⟨block, span.2, ⟨pos, span, hpos, hspan, himage⟩, hrun⟩
    · rw [verifyCrc32, if_neg hcrc] at hrun
      exact .inr ⟨_, hrun⟩
  · refine .inr ⟨e, ?_⟩
    rw [SSTableCodec.getBlock, hpos]
    rfl

theorem Accepted.getBlocks_regular (h : Accepted bytes footer index filter bitCount)
    (entries : List SparseIndexEntry) (start : Nat) :
    Exec.Regular (FileProg.run fileErrors files (SSTableCodec.getBlocks footer index entries)
      (bytes, start)) := by
  induction entries generalizing start with
  | nil => exact .ok _
  | cons entry entries ih =>
    rw [SSTableCodec.getBlocks, FileProg.run_bind]
    rcases h.getBlock_cases files entry.firstKey start with ⟨block, stop, -, hrun⟩ | ⟨e, hrun⟩
    · rw [hrun]
      show Exec.Regular (FileProg.run fileErrors files (_ >>= _) _)
      rw [FileProg.run_bind]
      exact (ih stop).bind fun _ => .ok _
    · rw [hrun]
      exact .error e

/-- The loop that returned loaded the block of every entry. -/
theorem Accepted.getBlocks_eq_ok (h : Accepted bytes footer index filter bitCount)
    {entries : List SparseIndexEntry} {blocks : List Block} {start : Nat} {cur : FileProg.Cursor}
    (hrun : FileProg.run fileErrors files (SSTableCodec.getBlocks footer index entries)
      (bytes, start) = .ok (blocks, cur)) :
    List.Forall₂ (fun entry block => Loads bytes footer index entry.firstKey block) entries blocks := by
  induction entries generalizing start blocks cur with
  | nil =>
    obtain ⟨rfl, -⟩ := Prod.ext_iff.mp (Except.ok.inj hrun)
    exact .nil
  | cons entry entries ih =>
    rw [SSTableCodec.getBlocks, FileProg.run_bind] at hrun
    rcases h.getBlock_cases files entry.firstKey start with
      ⟨block, stop, hloads, hblock⟩ | ⟨e, hblock⟩
    · rw [hblock] at hrun
      replace hrun : FileProg.run fileErrors files (SSTableCodec.getBlocks footer index entries >>=
        fun blocks => pure (block :: blocks)) (bytes, stop) = .ok (blocks, cur) := hrun
      rw [FileProg.run_bind] at hrun
      obtain ⟨⟨others, cur'⟩, hothers, hpure⟩ := Exec.bind_eq_ok hrun
      obtain ⟨rfl, -⟩ := Prod.ext_iff.mp (Except.ok.inj hpure)
      exact .cons hloads (ih hothers)
    · rw [hblock] at hrun
      cases hrun

variable (files) in
theorem run_getBlocks_of_loads {entries : List SparseIndexEntry} {blocks : List Block}
    (h : List.Forall₂ (fun entry block => Loads bytes footer index entry.firstKey block) entries
      blocks) (start : Nat) : ∃ stop,
      FileProg.run fileErrors files (SSTableCodec.getBlocks footer index entries) (bytes, start)
        = .ok (blocks, (bytes, stop)) := by
  induction h generalizing start with
  | nil => exact ⟨start, rfl⟩
  | cons hloads hrest ih =>
    obtain ⟨stop, hblock⟩ := run_getBlock_of_loads files hloads start
    obtain ⟨stop', hblocks⟩ := ih stop
    exact ⟨stop', (FileProg.run_bind_ok hblock).trans (FileProg.run_bind_ok hblocks)⟩

end Blocks

/-! ### The comparison with the manifest -/

/-- The number of records an index counts. -/
def countedRecords (index : List SparseIndexEntry) : Nat :=
  (index.map SparseIndexEntry.recordCount).sum

theorem countedRecords_cons (entry : SparseIndexEntry) (index : List SparseIndexEntry) :
    countedRecords (entry :: index) = entry.recordCount + countedRecords index := by
  rw [countedRecords, List.map_cons, List.sum_cons]
  rfl

theorem addRecords_of_lt {count added : Nat} (h : count + added < u64Limit) :
    addRecords count added = .ok (count + added) := by
  rw [addRecords, checkedAdd, if_pos h]

theorem addRecords_of_not_lt {count added : Nat} (h : ¬ count + added < u64Limit) :
    addRecords count added = corrupted "SSTable record count overflow" := by
  rw [addRecords, checkedAdd, if_neg h]

theorem addRecords_regular (count added : Nat) : Exec.Regular (addRecords count added) := by
  rw [addRecords]
  split
  · exact .ok _
  · exact .error _

theorem foldlM_addRecords (index : List SparseIndexEntry) {count : Nat} (hcount : count < u64Limit) :
    index.foldlM (fun count entry => addRecords count entry.recordCount) count
      = if count + countedRecords index < u64Limit then .ok (count + countedRecords index)
        else corrupted "SSTable record count overflow" := by
  induction index generalizing count with
  | nil =>
    show Except.ok count = if count + 0 < u64Limit then .ok (count + 0) else _
    rw [Nat.add_zero, if_pos hcount]
  | cons entry index ih =>
    rw [List.foldlM_cons, countedRecords_cons, ← Nat.add_assoc]
    by_cases hlt : count + entry.recordCount < u64Limit
    · rw [addRecords_of_lt hlt]
      exact ih hlt
    · rw [addRecords_of_not_lt hlt, if_neg (by omega)]
      rfl

theorem indexRecords_eq (index : List SparseIndexEntry) :
    indexRecords index = if countedRecords index < u64Limit then .ok (countedRecords index)
      else corrupted "SSTable record count overflow" := by
  rw [indexRecords, foldlM_addRecords index (by decide), Nat.zero_add]

/-- A block agrees with an index entry: the comparisons of `validate_manifest_sstable`. -/
structure SparseIndexEntry.Matches (entry : SparseIndexEntry) (block : Block) : Prop where
  recordCount : block.records.length = entry.recordCount
  head : block.records.head?.map MemtableRecord.key = some entry.firstKey
  last : block.records.getLast?.map MemtableRecord.key = some entry.lastKey
  firstKey : block.firstKey = entry.firstKey
  lastKey : block.lastKey = entry.lastKey

theorem validateBlock_eq_ok {path : String} {count count' : Nat} {entry : SparseIndexEntry}
    {block : Block} (h : validateBlock path count entry block = .ok count') : entry.Matches block := by
  rw [validateBlock] at h
  cases hdata : block.data with
  | none =>
    rw [hdata] at h
    cases h
  | some records =>
    have hrecords : block.records = records := by rw [Block.records, hdata]; rfl
    rw [hdata] at h
    simp only at h
    split at h
    · cases h
    · rename_i hmatches
      simp only [not_or, ne_eq, not_not] at hmatches
      obtain ⟨-, hcount, hhead, hlast, hfirstKey, hlastKey⟩ := hmatches
      exact ⟨hrecords ▸ hcount, hrecords ▸ hhead, hrecords ▸ hlast, hfirstKey, hlastKey⟩

theorem validateBlock_ok {path : String} {count : Nat} {entry : SparseIndexEntry} {block : Block}
    (hdata : block.data = some block.records) (h : entry.Matches block)
    (hcount : count + entry.recordCount < u64Limit) :
    validateBlock path count entry block = .ok (count + entry.recordCount) := by
  have hmatches : ¬ (block.records = [] ∨ block.records.length ≠ entry.recordCount ∨
      block.records.head?.map MemtableRecord.key ≠ some entry.firstKey ∨
      block.records.getLast?.map MemtableRecord.key ≠ some entry.lastKey ∨
      block.firstKey ≠ entry.firstKey ∨ block.lastKey ≠ entry.lastKey) := by
    simp only [not_or, ne_eq, not_not]
    refine ⟨?_, h.recordCount, h.head, h.last, h.firstKey, h.lastKey⟩
    intro hnil
    have hhead := h.head
    rw [hnil] at hhead
    cases hhead
  rw [validateBlock, hdata]
  simp only
  rw [if_neg hmatches, h.recordCount, addRecords_of_lt hcount]

theorem validateBlock_regular (path : String) (count : Nat) (entry : SparseIndexEntry)
    (block : Block) : Exec.Regular (validateBlock path count entry block) := by
  rw [validateBlock]
  split
  · exact .error _
  · split
    · exact .error _
    · exact addRecords_regular _ _

/-- The loop over the blocks that returned compared every entry with its block. -/
theorem foldlM_validateBlock_eq_ok {path : String} {entries : List (SparseIndexEntry × Block)}
    {count count' : Nat}
    (h : entries.foldlM (fun count entry => validateBlock path count entry.1 entry.2) count
      = .ok count') : ∀ entry ∈ entries, entry.1.Matches entry.2 := by
  induction entries generalizing count with
  | nil => exact fun entry hmem => absurd hmem List.not_mem_nil
  | cons entry entries ih =>
    rw [List.foldlM_cons] at h
    obtain ⟨next, hentry, hrest⟩ := Exec.bind_eq_ok h
    intro other hmem
    rcases List.mem_cons.mp hmem with rfl | hmem
    · exact validateBlock_eq_ok hentry
    · exact ih hrest other hmem

theorem foldlM_validateBlock_ok (path : String) (count : Nat) {index : List SparseIndexEntry}
    {blocks : List Block}
    (h : List.Forall₂ (fun entry block => block.data = some block.records ∧ entry.Matches block)
      index blocks) (hcount : count + countedRecords index < u64Limit) :
    (index.zip blocks).foldlM (fun count entry => validateBlock path count entry.1 entry.2) count
      = .ok (count + countedRecords index) := by
  induction h generalizing count with
  | nil => rfl
  | @cons entry block index blocks hentry hrest ih =>
    rw [countedRecords_cons] at hcount ⊢
    rw [List.zip_cons_cons, List.foldlM_cons,
      validateBlock_ok hentry.1 hentry.2 (by omega), Exec.ok_bind, ih _ (by omega), Nat.add_assoc]

/-- What `validate_manifest_sstable` accepts. -/
structure Validated (bytes : Bytes) (table : SSTableMeta) (footer : SSTableFooter)
    (index : List SparseIndexEntry) (filter : BloomFilterWrapper) (bitCount : Nat) : Prop where
  accepted : Accepted bytes footer index filter bitCount
  footerBytes : bytes.drop (bytes.length - footerSize) = footer.encode
  fits : footer.Fits
  indexChecksum : crc32 (indexImage index) = footer.indexChecksum
  bloomChecksum : crc32 (filter.image bitCount) = footer.bloomChecksum
  counted : countedRecords index < u64Limit
  recordCount : countedRecords index = table.recordCount
  smallestKey : index.head?.map SparseIndexEntry.firstKey = some table.smallestKey
  largestKey : index.getLast?.map SparseIndexEntry.lastKey = some table.largestKey
  blocks : ∀ entry ∈ index, ∃ block, Loads bytes footer index entry.firstKey block ∧
    entry.Matches block

/-! ### The whole check -/

section Validate
variable {files : String → Option Bytes} {table : SSTableMeta}

theorem indexRecords_regular (index : List SparseIndexEntry) :
    Exec.Regular (indexRecords index) := by
  rw [indexRecords_eq]
  exact .ite (.ok _) (.error _)

/-- The footer that was decoded is the one the file ends with. -/
theorem footer_of_result {bytes : Bytes} (hfile : files table.path = some bytes)
    (hlength : footerSize ≤ bytes.length) {footer : SSTableFooter}
    (h : FileProg.result fileErrors files (do
      FileProg.openNamed table.path
      SSTableFooter.asyncDecode) = .ok footer) :
    SSTableFooter.decode (bytes.drop (bytes.length - footerSize)) = .ok (footer, []) := by
  rw [result_footer hfile hlength] at h
  obtain ⟨⟨found, rest⟩, hdecode, rfl⟩ := Exec.map_eq_ok h
  obtain ⟨hbytes, -⟩ := SSTableFooter.decode_eq_ok hdecode
  have hrest : rest = [] := by
    have hcount := congrArg List.length hbytes
    rw [List.length_append, SSTableFooter.length_encode, List.length_drop] at hcount
    exact List.length_eq_zero_iff.mp (by omega)
  rw [hdecode, hrest]

/-- The check never panics: it accepts the table or returns an error. -/
theorem validate_regular (hsize : ∀ bytes, files table.path = some bytes → bytes.length ≤ isizeMax) :
    Exec.Regular (validateManifestSstable files table) := by
  rw [validateManifestSstable]
  cases hfile : files table.path with
  | none => exact .error _
  | some bytes =>
    simp only
    split
    · exact .error _
    rename_i hlength
    rw [not_lt] at hlength
    refine Exec.Regular.bind_of_ok ?_ fun footer hfooter => ?_
    · rw [result_footer hfile hlength]
      exact (SSTableFooter.decode_regular _).map _
    replace hfooter := footer_of_result hfile hlength hfooter
    refine .ite (.error _) ?_
    refine (Preflight.validate_regular bytes footer).bind_of_ok fun _ hvalid => ?_
    -- behind the preflight every section and every block can be decoded
    obtain ⟨index, filter, bitCount, haccepted⟩ := Preflight.validate_eq_ok hvalid
    have hchecked := haccepted.result_checked hfile (hsize bytes hfile)
    have hsections := haccepted.result_sections hfile (hsize bytes hfile) hlength hfooter
    refine Exec.Regular.bind ?_ fun checked => ?_
    · rw [hchecked]
      exact .ite (.error _) (.ite (.error _) (.ok _))
    rw [hsections]
    refine (indexRecords_regular index).bind fun count => ?_
    refine .ite (.error _) ?_
    refine Exec.Regular.bind ?_ fun blocks => ?_
    · rw [result_opened hfile]
      exact (haccepted.getBlocks_regular index 0).map _
    refine (Exec.Regular.foldlM (fun count entry => validateBlock_regular _ count _ _) _ 0).bind
      fun actualCount => ?_
    exact .ite (.error _) (.ok _)

theorem validate_eq_ok {bytes : Bytes} (hfile : files table.path = some bytes)
    (hsize : bytes.length ≤ isizeMax) (h : validateManifestSstable files table = .ok ()) :
    ∃ footer index filter bitCount, Validated bytes table footer index filter bitCount := by
  rw [validateManifestSstable, hfile] at h
  simp only at h
  split at h
  · cases h
  rename_i hlength
  rw [not_lt] at hlength
  obtain ⟨footer, hfooter, h⟩ := Exec.bind_eq_ok h
  replace hfooter := footer_of_result hfile hlength hfooter
  split at h
  · cases h
  obtain ⟨_, hvalid, h⟩ := Exec.bind_eq_ok h
  obtain ⟨index, filter, bitCount, haccepted⟩ := Preflight.validate_eq_ok hvalid
  rw [haccepted.result_checked hfile hsize, haccepted.result_sections hfile hsize hlength hfooter] at h
  obtain ⟨checked, hchecked, h⟩ := Exec.bind_eq_ok h
  rw [Exec.ok_bind] at h
  obtain ⟨count, hcount, h⟩ := Exec.bind_eq_ok h
  by_cases hindexCrc : crc32 (indexImage index) ≠ footer.indexChecksum
  · rw [if_pos hindexCrc] at hchecked
    cases hchecked
  rw [if_neg hindexCrc] at hchecked
  by_cases hbloomCrc : crc32 (filter.image bitCount) ≠ footer.bloomChecksum
  · rw [if_pos hbloomCrc] at hchecked
    cases hchecked
  rw [indexRecords_eq] at hcount
  by_cases hcounted : countedRecords index < u64Limit
  · rw [if_pos hcounted] at hcount
    obtain rfl := Except.ok.inj hcount
    split at h
    · cases h
    · rename_i hmanifest
      simp only [not_or, ne_eq, not_not] at hmanifest
      obtain ⟨-, -, hrecordCount, hsmallest, hlargest⟩ := hmanifest
      obtain ⟨blocks, hblocks, h⟩ := Exec.bind_eq_ok h
      obtain ⟨actualCount, hactual, -⟩ := Exec.bind_eq_ok h
      rw [result_opened hfile] at hblocks
      obtain ⟨⟨_, cur⟩, hrun, rfl⟩ := Exec.map_eq_ok hblocks
      have hloads := haccepted.getBlocks_eq_ok hrun
      have hmatches := foldlM_validateBlock_eq_ok hactual
      have hboth : List.Forall₂ (fun entry block => Loads bytes footer index entry.firstKey block ∧
          entry.Matches block) index _ :=
        List.forall₂_iff_zip.mpr ⟨hloads.length_eq, fun hpair =>
          ⟨List.forall₂_zip hloads hpair, hmatches _ hpair⟩⟩
      obtain ⟨hfooterBytes, hfits⟩ := SSTableFooter.decode_eq_ok hfooter
      rw [List.append_nil] at hfooterBytes
      refine ⟨footer, index, filter, bitCount, {
        accepted := haccepted
        footerBytes := hfooterBytes
        fits := hfits
        indexChecksum := not_not.mp hindexCrc
        bloomChecksum := not_not.mp hbloomCrc
        counted := hcounted
        recordCount := hrecordCount
        smallestKey := hsmallest
        largestKey := hlargest
        blocks := ?_ }⟩
      intro entry hmem
      obtain ⟨block, -, hblock⟩ := exists_right_of_forall₂ hboth hmem
      exact ⟨block, hblock⟩
  · rw [if_neg hcounted] at hcount
    cases hcount

theorem Loads.data {bytes : Bytes} {footer : SSTableFooter} {index : List SparseIndexEntry} {key : Key}
    {block : Block} (h : Loads bytes footer index key block) :
    block.data = some block.records := by
  obtain ⟨_, _, -, -, himage⟩ := h
  exact himage.shaped.data

theorem Validated.validate_ok {bytes : Bytes} {footer : SSTableFooter}
    {index : List SparseIndexEntry} {filter : BloomFilterWrapper} {bitCount : Nat}
    (h : Validated bytes table footer index filter bitCount)
    (hfile : files table.path = some bytes) (hsize : bytes.length ≤ isizeMax) :
    validateManifestSstable files table = .ok () := by
  have hlength : footerSize ≤ bytes.length := by
    have hend := h.accepted.bloomBlockEnd
    omega
  have hdecode : SSTableFooter.decode (bytes.drop (bytes.length - footerSize)) = .ok (footer, []) := by
    rw [h.footerBytes, SSTableFooter.decode_encode h.fits]
  have hfooter : FileProg.result fileErrors files (do
      FileProg.openNamed table.path
      SSTableFooter.asyncDecode) = .ok footer := by
    rw [result_footer hfile hlength, hdecode]
    rfl
  have hvalid : Preflight.validate bytes footer = .ok () :=
    (Preflight.validate_iff hsize).mpr ⟨index, filter, bitCount, h.accepted⟩
  have hoffsets : Preflight.offsetsFit footer bytes.length = true := by
    by_contra hbad
    rw [Preflight.validate, Bool.eq_false_of_not_eq_true hbad] at hvalid
    cases hvalid
  have hcount : indexRecords index = .ok (countedRecords index) := by
    rw [indexRecords_eq, if_pos h.counted]
  have hmanifest : ¬ (index = [] ∨ index.length ≠ index.length ∨
      countedRecords index ≠ table.recordCount ∨
      index.head?.map SparseIndexEntry.firstKey ≠ some table.smallestKey ∨
      index.getLast?.map SparseIndexEntry.lastKey ≠ some table.largestKey) := by
    simp only [not_or, ne_eq, not_not]
    refine ⟨?_, trivial, h.recordCount, h.smallestKey, h.largestKey⟩
    rintro rfl
    cases h.smallestKey
  obtain ⟨blocks, hblocks⟩ := exists_forall₂ h.blocks
  obtain ⟨stop, hrun⟩ := run_getBlocks_of_loads files
    (hblocks.imp fun _ _ hboth => hboth.1) 0
  have hloop := foldlM_validateBlock_ok table.path 0
    (hblocks.imp fun _ _ hboth => ⟨hboth.1.data, hboth.2⟩) (by rw [Nat.zero_add]; exact h.counted)
  rw [Nat.zero_add] at hloop
  have hresult : FileProg.result fileErrors files (do
      FileProg.openNamed table.path
      SSTableCodec.getAllBlocks footer index) = .ok blocks := by
    rw [result_opened hfile]
    exact congrArg (Except.map Prod.fst) hrun
  rw [validateManifestSstable, hfile]
  simp only
  rw [if_neg (not_lt.mpr hlength), hfooter, Exec.ok_bind, hoffsets, Bool.not_true,
    if_neg Bool.false_ne_true, hvalid, Exec.ok_bind, h.accepted.result_checked hfile hsize,
    if_neg (not_not.mpr h.indexChecksum), if_neg (not_not.mpr h.bloomChecksum), Exec.ok_bind,
    h.accepted.result_sections hfile hsize hlength hdecode, Exec.ok_bind, hcount, Exec.ok_bind,
    if_neg hmanifest, hresult, Exec.ok_bind, hloop, Exec.ok_bind,
    if_neg (not_not.mpr h.recordCount)]
  rfl

/-- What the check accepts. -/
theorem validate_iff {bytes : Bytes} (hfile : files table.path = some bytes)
    (hsize : bytes.length ≤ isizeMax) : validateManifestSstable files table = .ok () ↔
      ∃ footer index filter bitCount, Validated bytes table footer index filter bitCount :=
  ⟨validate_eq_ok hfile hsize, fun ⟨_, _, _, _, h⟩ => h.validate_ok hfile hsize⟩

end Validate

end CereDB.Storage
