import CereDB.Proofs.WrittenTables

/-!
# `CereDB.Proofs.CorruptTables`: one corrupted byte of a table is caught at open

Each byte of a written table is under one checksum: the footer and every block end with their own,
and the footer holds those of the index and of the Bloom filter. What has to be shown is that the
corrupted file is still compared with the same checksum over the same bytes:

* a byte outside the footer leaves the footer, and with it the checksums and the ends of the
  sections;
* a byte of the data section leaves the index, which determines where every block starts and ends,
  so a length inside a block cannot move its end.
-/

set_option autoImplicit false

namespace CereDB.Storage

open CereDB.Lib SSTableCodec

namespace SSTableCodec.Holds

variable {fastbloom : FastBloom} {codec : SSTableCodec} {records : List MemtableRecord}
  {table : SSTableMeta} {footer : SSTableFooter} {index : List SparseIndexEntry}
  {filter : BloomFilterWrapper} {bitCount pos : Nat} {byte : UInt8}

/-- A part of the file with a checksum that was not corrupted itself. -/
theorem getElem?_of_part {bytes : Bytes} {start stop : Nat} (hstart : start ≤ pos) (hstop : pos < stop)
    (hlength : stop ≤ bytes.length)
    (h : crc32 (((bytes.set pos byte).take stop).drop start) = crc32 ((bytes.take stop).drop start)) :
    bytes[pos]? = some byte := by
  rw [slice_set, if_neg (not_lt.mpr hstart)] at h
  have hpart := getElem?_of_crc32_set (by rw [List.length_drop, List.length_take]; omega) h
  rw [List.getElem?_drop, Nat.add_sub_cancel' hstart, List.getElem?_take_of_lt hstop] at hpart
  exact hpart

/-- A part of the file that ends with its own checksum. -/
theorem getElem?_of_sealed_part {bytes body other : Bytes} {start stop : Nat} (hstart : start ≤ pos)
    (hstop : pos < stop) (hlength : stop ≤ bytes.length)
    (hpart : (bytes.take stop).drop start = sealed body)
    (h : ((bytes.set pos byte).take stop).drop start = sealed other) : bytes[pos]? = some byte := by
  rw [slice_set, if_neg (not_lt.mpr hstart), hpart] at h
  have hbyte := getElem?_of_sealed_set (by
    rw [← hpart, List.length_drop, List.length_take]
    omega) h
  rw [← hpart, List.getElem?_drop, Nat.add_sub_cancel' hstart, List.getElem?_take_of_lt hstop] at hbyte
  exact hbyte

/-- A part of the file without the corrupted byte. -/
theorem part_unchanged {bytes : Bytes} {start stop : Nat} (h : pos < start ∨ stop ≤ pos) :
    ((bytes.set pos byte).take stop).drop start = (bytes.take stop).drop start := by
  rw [slice_set]
  rcases h with hbefore | hbehind
  · rw [if_pos hbefore]
  · split
    · rfl
    · rw [List.set_eq_of_length_le]
      rw [List.length_drop, List.length_take]
      omega

/-- A file that differs from a written table in one byte and is accepted has the same byte there. -/
theorem getElem?_of_validated (h : codec.Holds fastbloom records) (hpos : pos < codec.encoded.length)
    (hvalid : Validated (codec.encoded.set pos byte) table footer index filter bitCount) :
    codec.encoded[pos]? = some byte := by
  have hsize : (codec.encoded.set pos byte).length ≤ isizeMax := by
    rw [List.length_set]
    exact h.size
  have hend := codec.bloomBlockEnd_add_footerSize
  have hindexEnd : codec.footer.indexBlockEnd ≤ codec.footer.bloomBlockEnd := Nat.le_add_right _ _
  have hdataEnd : codec.footer.indexBlockStart ≤ codec.footer.indexBlockEnd := Nat.le_add_right _ _
  have hfooterPart : (codec.encoded.take codec.encoded.length).drop codec.footer.bloomBlockEnd
      = codec.footer.encode := by
    rw [List.take_length, ← codec.encoded_footer]
    congr 1
    omega
  have hfooterBytes : ((codec.encoded.set pos byte).take codec.encoded.length).drop
      codec.footer.bloomBlockEnd = footer.encode := by
    rw [← hvalid.footerBytes, List.take_of_length_le (le_of_eq List.length_set), List.length_set]
    congr 1
    omega
  by_cases hfooter : codec.footer.bloomBlockEnd ≤ pos
  · exact getElem?_of_sealed_part hfooter hpos (le_refl _) hfooterPart hfooterBytes
  -- the footer is the one that was written
  rw [part_unchanged (.inl (not_le.mp hfooter))] at hfooterBytes
  obtain rfl : footer = codec.footer := by
    refine h.footer_eq hvalid ?_
    rw [hvalid.footerBytes, ← hfooterBytes, hfooterPart]
  by_cases hbloom : codec.footer.indexBlockEnd ≤ pos
  · refine getElem?_of_part hbloom (not_le.mp hfooter) (by omega) ?_
    have hpart := hvalid.accepted.bloomBytes
    have hchecksum := hvalid.bloomChecksum
    rw [← hpart] at hchecksum
    exact hchecksum.trans (congrArg crc32 codec.encoded_bloom).symm
  by_cases hindex : codec.footer.indexBlockStart ≤ pos
  · refine getElem?_of_part hindex (not_le.mp hbloom) (by omega) ?_
    have hchecksum := hvalid.indexChecksum
    rw [← hvalid.accepted.indexBytes] at hchecksum
    exact hchecksum.trans (congrArg crc32 codec.encoded_index).symm
  -- the index is the one that was written, so every block stands where it was written
  obtain rfl := h.index_eq hsize hvalid.accepted (by
    rw [part_unchanged (.inl (not_le.mp hindex)), codec.encoded_index])
  obtain ⟨front, block, back, hblocks, hstart, hstop⟩ := exists_part_at Block.encode
    (not_le.mp hindex : pos < (dataSection codec.blocks).length)
  obtain ⟨found, hfound, -, -⟩ := h.exists_block hvalid hblocks
  refine getElem?_of_sealed_part hstart hstop ?_ (encoded_block hblocks) hfound
  have hsplit : codec.footer.indexBlockStart = (dataSection front).length
      + (block.encode.length + (dataSection back).length) := by
    rw [← List.length_append, ← List.length_append, ← dataSection_split hblocks]
    rfl
  show (dataSection front).length + block.encode.length ≤ codec.encoded.length
  omega

end SSTableCodec.Holds

/-- A change of any one byte of a table that a flush or a compaction wrote makes
`validate_manifest_sstable` return an error. -/
theorem corrupt_byte_caught (fastbloom : FastBloom) (table : SSTableMeta) (bytes : Bytes)
    (records : List MemtableRecord) (h : Registered fastbloom table bytes records) (pos : Nat)
    (byte : UInt8) (hpos : pos < bytes.length) (hbyte : bytes[pos]? ≠ some byte)
    (files : String → Option Bytes) (hfile : files table.path = some (bytes.set pos byte)) :
    ∃ e, validateManifestSstable files table = .error (.error e) := by
  obtain ⟨codec, rfl, hholds, -⟩ := h.holds
  have hsize : (codec.encoded.set pos byte).length ≤ isizeMax := by
    rw [List.length_set]
    exact hholds.size
  have hregular : Exec.Regular (validateManifestSstable files table) := by
    refine validate_regular fun found hfound => ?_
    rw [hfile] at hfound
    rw [← Option.some.inj hfound]
    exact hsize
  refine hregular.exists_error fun result hok => ?_
  obtain ⟨footer, index, filter, bitCount, hvalid⟩ := (validate_iff hfile hsize).mp hok
  exact hbyte (hholds.getElem?_of_validated hpos hvalid)

/-- The first byte of the table of one put, a length inside its block. -/
theorem corrupt_byte_firstByte : ∃ table,
    flushTable .acceptAll .default (Memtable.append ∅ [97] [118] .put 1) = .ok table ∧
    ∃ e, validateManifestSstable (fun _ => some (table.encoded.set 0 7)) (flushMeta 1 table)
      = .error (.error e) := by
  have hok : (flushTable .acceptAll .default (Memtable.append ∅ [97] [118] .put 1)).map
      (fun table => table.encoded[0]?) = .ok (some 0) := by decide +kernel
  obtain ⟨table, htable, hfirst⟩ := Exec.map_eq_ok hok
  have hpos : 0 < table.encoded.length := by
    cases hencoded : table.encoded with
    | nil =>
      rw [hencoded] at hfirst
      cases hfirst
    | cons first rest => exact Nat.succ_pos _
  exact ⟨table, htable, corrupt_byte_caught .acceptAll _ _ _ (.flush 1 htable) 0 7 hpos
    (by rw [hfirst]; decide) _ rfl⟩

end CereDB.Storage
