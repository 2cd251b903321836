import HafeCodec.BitArray.Comparison
import HafeCodec.Format.Archive

/-!
# The writer

The table is written row by row, without the empty rows, behind its size. The size is computed by a
loop of its own in 32-bit arithmetic; it is the number of bytes written when that fits
(`Hafe.calcSymbolTableDiskSize_eq`). What the writer emits for a `Hafe` whose codewords have at most
255 bits is the file of an archive with the same contents (`Hafe.Storable.exists_write`), so that
the reader gets them back (`Hafe.read_write`).

## Main definitions

* `SymbolTable.stored`: what a file stores of a table.
* `Hafe.rows`: the bytes of the rows that are not empty.
* `Hafe.Storable`: what the writer needs to know of a `Hafe`.
* `Hafe.Obtained`: the ways to come by a `Hafe`.

## Main results

* `Hafe.calcSymbolTableDiskSize_eq`, `Hafe.write_eq`.
* `Hafe.Storable.exists_write`, `Hafe.read_write`.
-/

open BitString

namespace HafeCodec

/-! ### What a file stores of a table -/

/-- What a file stores of a codeword. -/
def HuffmanCode.stored (c : HuffmanCode) : HuffmanCode :=
  ⟨c.effectiveBytes, c.bitIdx, 8 * c.effectiveBytes.length⟩

/-- What a file stores of a table. -/
def SymbolTable.stored (st : SymbolTable) : SymbolTable :=
  fun s => if (st s).empty then HuffmanCode.blank else (st s).stored

namespace HuffmanCode

variable {c : HuffmanCode}

theorem readable_stored (hc : c.Readable) : c.stored.Readable where
  length_le := by
    have hlen := hc.length_effectiveBytes
    change c.bitIdx ≤ 8 * c.effectiveBytes.length
    omega
  length_lt := hc.length_lt

theorem effectiveBytes_stored (hc : c.Readable) :
    c.stored.effectiveBytes = c.effectiveBytes := by
  have hsize : c.stored.effectiveByteSize = c.effectiveBytes.length :=
    (readable_stored hc).effectiveByteSize_eq.trans hc.length_effectiveBytes.symm
  rw [BitArray.effectiveBytes, hsize]
  exact List.take_length

theorem bits_stored (hc : c.Readable) : c.stored.bits = c.bits := by
  rw [← (readable_stored hc).take_unpack_effectiveBytes, effectiveBytes_stored hc]
  exact hc.take_unpack_effectiveBytes

theorem zeroPadded_stored (hc : c.Readable) (hz : c.ZeroPadded) : c.stored.ZeroPadded :=
  ((BitArray.effectiveBytes_eq_iff (readable_stored hc) hc hz).mp
    ⟨rfl, effectiveBytes_stored hc⟩).2

end HuffmanCode

namespace SymbolTable

variable {st : SymbolTable} {s : UInt8}

theorem code_stored (hst : (st s).Readable) : st.stored.code s = st.code s := by
  rw [code, stored]
  cases hempty : (st s).empty with
  | true =>
    have hlen : (st s).bits.length = 0 := hst.length_bits.trans (beq_iff_eq.mp hempty)
    exact (List.eq_nil_of_length_eq_zero hlen).symm
  | false => exact HuffmanCode.bits_stored hst

/-- Padding with zeros is kept. -/
theorem zeroPadded_stored (hst : (st s).Readable) (hz : (st s).ZeroPadded) :
    (st.stored s).ZeroPadded := by
  rw [stored]
  cases (st s).empty with
  | true => exact rfl
  | false => exact HuffmanCode.zeroPadded_stored hst hz

end SymbolTable

open IStream

namespace Hafe

variable {st : SymbolTable} {h : Hafe}

/-- The bytes of one row, none for an empty one. -/
def row (st : SymbolTable) (s : UInt8) : List UInt8 :=
  if (st s).empty then []
  else s :: HuffmanCode.length8 (st s) :: (st s).effectiveBytes

/-- The bytes of the rows. -/
def rows (st : SymbolTable) : List UInt8 :=
  symbols.flatMap (row st)

/-- The effective bytes lie in the vector. -/
def BytesStored (a : BitArray) : Prop :=
  a.effectiveByteSize ≤ a.vct.length

theorem writeBits_eq {a : BitArray} (ha : BytesStored a) : writeBits a = .ok a.effectiveBytes :=
  if_pos ha

theorem bytesStored_of_writeBits {a : BitArray} {v : List UInt8} (hv : writeBits a = .ok v) :
    BytesStored a := by
  rw [writeBits] at hv
  split_ifs at hv with hle
  exact hle

theorem length_row (hst : ∀ s, BytesStored (st s)) (s : UInt8) :
    (row st s).length = if (st s).empty then 0 else 1 + 1 + (st s).effectiveByteSize := by
  rw [row]
  split_ifs
  · rfl
  · rw [List.length_cons, List.length_cons, BitArray.effectiveBytes,
      List.length_take_of_le (hst s)]
    omega

/-- **The size announced** is the number of bytes of the rows, in 32-bit arithmetic. -/
theorem calcSymbolTableDiskSize_eq (hst : ∀ s, BytesStored (st s)) :
    calcSymbolTableDiskSize st = (rows st).length % 2 ^ 32 := by
  suffices key : ∀ (l : List UInt8) (b : ℕ), b < 2 ^ 32 →
      l.foldl (fun bsize sym => if (st sym).empty then bsize
        else (bsize + 1 + 1 + (st sym).effectiveByteSize) % 2 ^ 32) b =
        (b + (l.flatMap (row st)).length) % 2 ^ 32 by
    have hkey := key symbols 0 (by decide)
    rwa [Nat.zero_add] at hkey
  intro l
  induction l with
  | nil =>
    intro b hb
    exact (Nat.mod_eq_of_lt hb).symm
  | cons s l ih =>
    intro b hb
    rw [List.foldl_cons, List.flatMap_cons, List.length_append, length_row hst]
    split_ifs with hs
    · rw [ih b hb, Nat.zero_add]
    · rw [ih _ (Nat.mod_lt _ (by decide))]
      omega

theorem writeSymbolTable_eq (hst : ∀ s, BytesStored (st s)) :
    writeSymbolTable st = .ok (toLE 4 (calcSymbolTableDiskSize st) ++ rows st) := by
  have hstep (done : List UInt8) (s : UInt8) :
      (if (st s).empty then .ok (done.flatMap (row st)) else do
        let entry ← writeEntry s (st s)
        return done.flatMap (row st) ++ entry : Outcome (List UInt8)) =
        .ok ((done ++ [s]).flatMap (row st)) := by
    rw [List.flatMap_append, List.flatMap_singleton, row]
    split_ifs with hs
    · rw [List.append_nil]
    · rw [writeEntry, writeBits_eq (hst s)]
      rfl
  obtain ⟨os, hos, rfl⟩ := ExceptFold.foldlM_ok (l := symbols) (s := [])
    (f := fun os sym => (if (st sym).empty then .ok os else do
      let entry ← writeEntry sym (st sym)
      return os ++ entry : Outcome (List UInt8)))
    (fun done os => os = done.flatMap (row st)) rfl
    (fun done s _ os _ hos => ⟨_, hos ▸ hstep done s, rfl⟩)
  rw [writeSymbolTable, hos]
  rfl

/-- The bytes of a file with the size of the table in 32-bit arithmetic. -/
def fileBytes (h : Hafe) : List UInt8 :=
  magic ++ (h.reserved ++ (toLE 4 ((rows h.symbolTable).length % 2 ^ 32) ++
    (rows h.symbolTable ++ (toLE 8 h.bitstreamBitsz ++ h.bitStream.effectiveBytes))))

/-- **The bytes written.** -/
theorem write_eq (hst : ∀ s, BytesStored (h.symbolTable s)) (hbits : BytesStored h.bitStream) :
    write h = .ok (fileBytes h) := by
  rw [write, writeSymbolTable_eq hst, ExceptFold.ok_bind, writeBits_eq hbits, fileBytes,
    calcSymbolTableDiskSize_eq hst]
  simp only [ExceptFold.ok_bind, ExceptFold.pure_eq_ok, List.append_assoc]

/-- A loop over the rows that succeeds has met no row outside of its vector. -/
theorem bytesStored_of_foldlM {l os os' : List UInt8}
    (hw : l.foldlM (fun os sym => (if (st sym).empty then .ok os else do
      let entry ← writeEntry sym (st sym)
      return os ++ entry : Outcome (List UInt8))) os = .ok os') :
    ∀ s ∈ l, BytesStored (st s) := by
  induction l generalizing os with
  | nil => exact fun _ hs => absurd hs List.not_mem_nil
  | cons t l ih =>
    rw [List.foldlM_cons] at hw
    obtain ⟨os₁, ht, hw⟩ := ExceptFold.bind_eq_ok_iff.mp hw
    refine List.forall_mem_cons.mpr ⟨?_, ih hw⟩
    split_ifs at ht with hempty
    · have h0 : (st t).bitIdx = 0 := beq_iff_eq.mp hempty
      rw [BytesStored, BitArray.effectiveByteSize, BitArray.bitLength, if_pos h0]
      exact Nat.zero_le _
    · obtain ⟨entry, hentry, -⟩ := ExceptFold.bind_eq_ok_iff.mp ht
      obtain ⟨code, hcode, -⟩ := ExceptFold.bind_eq_ok_iff.mp hentry
      exact bytesStored_of_writeBits hcode

/-- **A writer that succeeds** has written these bytes. -/
theorem eq_fileBytes_of_write {bytes : List UInt8} (hw : write h = .ok bytes) :
    bytes = fileBytes h ∧ BytesStored h.bitStream := by
  obtain ⟨table, htable, hw'⟩ := ExceptFold.bind_eq_ok_iff.mp hw
  obtain ⟨bits, hbits, -⟩ := ExceptFold.bind_eq_ok_iff.mp hw'
  obtain ⟨entries, hentries, -⟩ := ExceptFold.bind_eq_ok_iff.mp htable
  have hst (s : UInt8) : BytesStored (h.symbolTable s) :=
    bytesStored_of_foldlM hentries s (mem_symbols s)
  rw [write_eq hst (bytesStored_of_writeBits hbits)] at hw
  exact ⟨(Except.ok.inj hw).symm, bytesStored_of_writeBits hbits⟩

/-! ### The rows as entries -/

/-- The row of a symbol as an entry. -/
def entryOf (s : UInt8) {c : HuffmanCode} (hc : c.Readable) (hle : c.bitLength ≤ 255)
    (h0 : c.bitIdx ≠ 0) : Entry where
  symbol := s
  length := HuffmanCode.length8 c
  code := c.effectiveBytes
  length_ne_zero hz := h0 (by
    rw [← BitArray.bitLength, ← HuffmanCode.toNat_length8 hle, hz]
    rfl)
  length_code := by rw [hc.length_effectiveBytes, HuffmanCode.toNat_length8 hle, BitArray.bitLength]

theorem huffmanCode_entryOf (s : UInt8) {c : HuffmanCode} (hc : c.Readable)
    (hle : c.bitLength ≤ 255) (h0 : c.bitIdx ≠ 0) :
    (entryOf s hc hle h0).huffmanCode = c.stored := by
  rw [Entry.huffmanCode, entryOf, HuffmanCode.toNat_length8 hle]
  rfl

/-- **The rows of some symbols are entries**, which enter the stored codewords of these symbols. -/
theorem exists_entries (hst : ∀ s, (st s).Readable) (hle : ∀ s, (st s).bitLength ≤ 255)
    (l : List UInt8) :
    ∃ es, entryBytes es = l.flatMap (row st) ∧ ∀ table s, insertAll table es s =
      if s ∈ l ∧ (st s).empty = false then (st s).stored else table s := by
  induction l with
  | nil => exact ⟨[], rfl, fun _ _ => (if_neg fun h => absurd h.1 List.not_mem_nil).symm⟩
  | cons t l ih =>
    obtain ⟨es, hes, hins⟩ := ih
    cases hempty : (st t).empty with
    | true =>
      refine ⟨es, by rw [List.flatMap_cons, row, if_pos hempty, List.nil_append, hes],
        fun table s => (hins table s).trans (if_congr ?_ rfl rfl)⟩
      refine ⟨fun h => ⟨List.mem_cons_of_mem t h.1, h.2⟩, fun h => ⟨?_, h.2⟩⟩
      rcases List.mem_cons.mp h.1 with rfl | hs
      · exact Bool.noConfusion (hempty.symm.trans h.2)
      · exact hs
    | false =>
      have h0 : (st t).bitIdx ≠ 0 := beq_eq_false_iff_ne.mp hempty
      refine ⟨entryOf t (hst t) (hle t) h0 :: es, ?_, fun table s => ?_⟩
      · rw [entryBytes_cons, List.flatMap_cons, hes, row, hempty]
        rfl
      · rw [insertAll_cons, hins _ s]
        rcases eq_or_ne s t with rfl | hst'
        · have hself : (entryOf s (hst s) (hle s) h0).insert table s = (st s).stored :=
            (Function.update_self _ _ _).trans (huffmanCode_entryOf s (hst s) (hle s) h0)
          rw [hself, ite_self, if_pos ⟨List.mem_cons_self, hempty⟩]
        · have hother : (entryOf t (hst t) (hle t) h0).insert table s = table s :=
            Function.update_of_ne hst' _ _
          rw [hother]
          exact if_congr (by rw [List.mem_cons, or_iff_right hst']) rfl rfl

/-- A row has at most 34 bytes. -/
theorem length_rows_lt (hst : ∀ s, (st s).Readable) (hle : ∀ s, (st s).bitLength ≤ 255) :
    (rows st).length < 2 ^ 32 := by
  have hrow (s : UInt8) : (row st s).length ≤ 34 := by
    have hs := hle s
    rw [BitArray.bitLength] at hs
    rw [length_row fun s => (hst s).effectiveByteSize_le, (hst s).effectiveByteSize_eq]
    split_ifs
    · exact Nat.zero_le _
    · omega
  have hsum : (rows st).length ≤ symbols.length * 34 := by
    rw [rows, List.length_flatMap]
    refine (List.sum_le_card_nsmul _ 34 fun n hn => ?_).trans_eq ?_
    · obtain ⟨s, -, rfl⟩ := List.mem_map.mp hn
      exact hrow s
    · rw [List.length_map, smul_eq_mul]
  rw [length_symbols] at hsum
  omega

/-! ### Writing and reading -/

/-- What the writer needs to know of a `Hafe` in order to write a file that can be read. -/
structure Storable (h : Hafe) : Prop where
  length_reserved : h.reserved.length = 16
  readable : ∀ s, (h.symbolTable s).Readable
  bitLength_le : ∀ s, (h.symbolTable s).bitLength ≤ 255
  readable_bitStream : h.bitStream.Readable
  bitstreamBitsz_eq : h.bitstreamBitsz = h.bitStream.bitLength
  bitLength_pos : 0 < h.bitStream.bitLength

/-- **The writer emits the file of an archive** with the same contents. -/
theorem Storable.exists_write (hs : Storable h) :
    ∃ a : Archive, write h = .ok a.bytes ∧ a.reserved = h.reserved ∧
      entryBytes a.entries = rows h.symbolTable ∧
      a.tableSize = (rows h.symbolTable).length ∧
      a.symbolTable = h.symbolTable.stored ∧
      a.bitLength = h.bitstreamBitsz ∧ a.bitBytes = h.bitStream.effectiveBytes := by
  have hbits := hs.readable_bitStream
  have hsz := hs.bitstreamBitsz_eq
  have hpos := hs.bitLength_pos
  have hlt := hbits.length_lt
  rw [BitArray.bitLength] at hsz hpos
  obtain ⟨es, hes, hins⟩ := exists_entries hs.readable hs.bitLength_le symbols
  have hsize := length_rows_lt hs.readable hs.bitLength_le
  have hes' : entryBytes es = rows h.symbolTable := hes
  let a : Archive :=
    { reserved := h.reserved
      tableSize := (rows h.symbolTable).length
      entries := es
      bitLength := h.bitstreamBitsz
      bitBytes := h.bitStream.effectiveBytes
      length_reserved := hs.length_reserved
      tableSize_lt := hsize
      counts := (counts_iff (by rw [hes']; omega)).mpr (by rw [hes', Nat.zero_add])
      bitLength_pos := by omega
      bitLength_lt := by omega
      length_bitBytes := by rw [hbits.length_effectiveBytes, hsz] }
  refine ⟨a, ?_, rfl, hes', rfl, funext fun s => ?_, rfl, rfl⟩
  · rw [write_eq (fun s => (hs.readable s).effectiveByteSize_le) hbits.effectiveByteSize_le,
      fileBytes, Nat.mod_eq_of_lt hsize]
    simp only [Archive.bytes, a, hes']
  · refine (hins (fun _ => HuffmanCode.blank) s).trans ?_
    rw [SymbolTable.stored]
    cases hempty : (h.symbolTable s).empty with
    | true => exact if_neg fun hn => Bool.noConfusion hn.2
    | false => exact if_pos ⟨mem_symbols s, rfl⟩

/-- The ways to come by a `Hafe`: from a table of codewords of at most 255 bits and a bit stream of
at least one bit, or by reading. -/
inductive Obtained : Hafe → Prop
  | ofParts {st : SymbolTable} {bitStream : BitArray} (hst : ∀ s, (st s).WellFormed)
      (hle : ∀ s, (st s).bitLength ≤ 255) (hbits : bitStream.WellFormed)
      (hpos : 1 ≤ bitStream.bitLength) : Obtained (ofParts st bitStream)
  | read {is is' : IStream} {h : Hafe} (hfail : is.fail = false)
      (hr : Hafe.read is = .ok (h, is')) : Obtained h

theorem Obtained.storable (hobt : Obtained h) : Storable h := by
  cases hobt with
  | ofParts hst hle hbits hpos =>
    exact ⟨List.length_replicate, fun s => (hst s).readable, hle, hbits.readable, rfl, hpos⟩
  | @read is is' h hfail hr =>
    obtain ⟨l, x, fail⟩ := is
    obtain rfl : fail = false := hfail
    obtain ⟨a, w, -, rfl, -⟩ := read_eq_ok_iff.mp hr
    exact ⟨a.length_reserved, fun s => (a.wellFormed_symbolTable s).readable,
      a.bitLength_symbolTable_le, a.wellFormed_bitStream.readable, rfl, a.bitLength_pos⟩

/-- **Writing and reading.** The file of a `Hafe`, followed by any bytes, is read back: the reader
consumes exactly the file and returns the same codewords, bit stream and reserved bytes. The size
written before the table is the number of its bytes. -/
theorem read_write (hobt : Obtained h) (t : List UInt8) (x : Bool) :
    ∃ (table bytes : List UInt8) (h' : Hafe),
      write h = .ok bytes ∧
      bytes = magic ++ h.reserved ++ toLE 4 table.length ++ table ++ toLE 8 h.bitstreamBitsz ++
        h.bitStream.effectiveBytes ∧
      table.length < 2 ^ 32 ∧
      read (ofBytes (bytes ++ t) x) = .ok (h', ofBytes t true) ∧
      (∀ s, h'.symbolTable.code s = h.symbolTable.code s ∧
        (h'.symbolTable s).empty = (h.symbolTable s).empty) ∧
      h'.bitStream.bitLength = h.bitStream.bitLength ∧ h'.bitStream.bits = h.bitStream.bits ∧
      h'.reserved = h.reserved := by
  have hs := hobt.storable
  obtain ⟨a, hw, hreserved, hrows, hsize, htable, hlen, hbytes⟩ := hs.exists_write
  have hcode (s : UInt8) : a.symbolTable.code s = h.symbolTable.code s := by
    rw [htable, SymbolTable.code_stored (hs.readable s)]
  have hsz : a.bitLength = h.bitStream.bitIdx := hlen.trans hs.bitstreamBitsz_eq
  refine ⟨rows h.symbolTable, a.bytes, a.toHafe, hw, ?_, hsize ▸ a.tableSize_lt, read_bytes a t x,
    fun s => ⟨hcode s, ?_⟩, hsz, ?_, hreserved⟩
  · rw [Archive.bytes, hreserved, hsize, hrows, hlen, hbytes]
    simp only [List.append_assoc]
  · have hidx : (a.symbolTable s).bitIdx = (h.symbolTable s).bitIdx := by
      rw [← (a.wellFormed_symbolTable s).readable.length_bits, ← (hs.readable s).length_bits]
      exact congrArg List.length (hcode s)
    exact congrArg (· == 0) hidx
  · change a.bitStream.bits = _
    rw [a.bits_bitStream, hbytes, hsz, hs.readable_bitStream.take_unpack_effectiveBytes]

theorem read_write_fileA :
    ∃ (table bytes : List UInt8) (h' : Hafe),
      write (ofParts (Archive.fileA 0).symbolTable (Archive.fileA 0).bitStream) = .ok bytes ∧
      bytes = magic ++ List.replicate 16 0x1d ++ toLE 4 table.length ++ table ++ toLE 8 1 ++ [0] ∧
      table.length < 2 ^ 32 ∧
      read (ofBytes (bytes ++ [1, 2, 3]) false) = .ok (h', ofBytes [1, 2, 3] true) ∧
      (∀ s, h'.symbolTable.code s = (Archive.fileA 0).symbolTable.code s ∧
        (h'.symbolTable s).empty = ((Archive.fileA 0).symbolTable s).empty) ∧
      h'.bitStream.bitLength = 1 ∧ h'.bitStream.bits = (Archive.fileA 0).bitStream.bits ∧
      h'.reserved = List.replicate 16 0x1d :=
  read_write (.ofParts (Archive.fileA 0).wellFormed_symbolTable
    (Archive.fileA 0).bitLength_symbolTable_le (Archive.fileA 0).wellFormed_bitStream le_rfl)
    [1, 2, 3] false

end Hafe

end HafeCodec
