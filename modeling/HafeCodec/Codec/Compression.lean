import HafeCodec.Codec.Overrun
import HafeCodec.Codec.Resynchronization
import HafeCodec.Codec.RoundTrip

/-!
# What compression does on any input

The length of the input is not bounded by anything but the memory, while its symbols are counted in
32 bits and the frequencies are added with a test. So compression either has no symbol left to build
a tree from, reports an overflow, or has a table; with a table it returns a file, or writes outside
of the array reserved when the codewords need more than eight bits for a byte
(`compress_outcome`). Whatever file it returns is decompressed to the input without the symbols
whose counters have wrapped to zero, so that it is the file of the input exactly when there are no
such symbols (`decompress_of_compress`).

## Main definitions

* `Encoder.tableOf`: the first half of the encoder.
* `OverflowingCounts`: the counters add up to the bound.

## Main results

* `Hafe.Storable.decompress_of_write`: decoding a file that was written is decoding in memory.
* `Encoder.tableOf_cases`.
* `compress_outcome`, `decompress_of_compress`.
-/

open ShortestMatch

namespace HafeCodec

/-! ### Decoding what was written -/

/-- Decompression decodes what was read. -/
theorem Archive.decompress_eq_decode (a : Archive) (build : Build) (exceptions : Bool)
    (rest : List UInt8) : decompress build exceptions (a.bytes ++ rest) =
      Decoder.decode build a.symbolTable a.bitStream := by
  rw [decompress, Hafe.read_bytes, ExceptFold.ok_bind]
  change (Decoder.new build a.symbolTable a.bitStream >>= fun d => pure d.str) = _
  rw [Decoder.new]
  cases Decoder.decode build a.symbolTable a.bitStream with
  | error f => rfl
  | ok str => rfl

/-- **Decoding a file that was written** is decoding in memory, with the outcome of the decoder
whatever it is, when the codewords are padded with zeros. -/
theorem Hafe.Storable.decompress_of_write {h : Hafe} (hs : Storable h)
    (hz : ∀ s, (h.symbolTable s).ZeroPadded) (build : Build) (exceptions : Bool)
    (rest : List UInt8) : ∃ bytes, h.write = .ok bytes ∧
      decompress build exceptions (bytes ++ rest) =
        Decoder.decode build h.symbolTable h.bitStream := by
  obtain ⟨a, hw, -, -, -, htable, hlen, hbytes⟩ := hs.exists_write
  have hlookup : a.symbolTable.lookup = h.symbolTable.lookup := by
    rw [htable]
    exact SymbolTable.lookup_stored hs.readable hz
  have hbits : a.bitStream.bits = h.bitStream.bits := by
    rw [a.bits_bitStream, hlen, hs.bitstreamBitsz_eq, hbytes]
    exact hs.readable_bitStream.take_unpack_effectiveBytes
  refine ⟨a.bytes, hw, (a.decompress_eq_decode build exceptions rest).trans ?_⟩
  exact Decoder.decode_congr build hs.readable (fun s => (a.wellFormed_symbolTable s).readable)
    (fun s => (hs.readable s).length_bits.trans_le (hs.bitLength_le s)) a.length_code_le
    hs.readable_bitStream.inBounds a.wellFormed_bitStream.readable.inBounds hlookup hbits

/-! ### The table of any string -/

/-- The 32-bit counter of the symbol is not zero at the end of the string. -/
def Counted (str : List UInt8) (s : UInt8) : Prop :=
  ¬ 2 ^ 32 ∣ str.count s

instance (str : List UInt8) (s : UInt8) : Decidable (Counted str s) :=
  inferInstanceAs (Decidable (¬ _))

theorem Counted.mem {str : List UInt8} {s : UInt8} (h : Counted str s) : s ∈ str := by
  by_contra hmem
  rw [Counted, List.count_eq_zero_of_not_mem hmem] at h
  exact h (dvd_zero _)

/-- The counter of a symbol is zero when the symbol occurs a multiple of `2^32` times. -/
theorem Histogram.frequency_ne_zero_iff {data : List UInt8} {h : Histogram}
    (hd : ofData data = .ok h) (s : UInt8) : h.frequency s ≠ 0 ↔ Counted data s := by
  rw [Counted, Nat.dvd_iff_mod_eq_zero, ← frequency_ofData hd s, Ne, ← UInt32.toNat_inj,
    UInt32.toNat_zero]

/-- At least two symbols are counted, and the counters add up to the bound on the frequencies. -/
def OverflowingCounts (str : List UInt8) : Prop :=
  2 ≤ (symbols.filter fun s => Counted str s).length ∧
    2 ^ 32 - 1 ≤ (symbols.map fun s => str.count s % 2 ^ 32).sum

theorem overflowingCounts_iff {str : List UInt8} {h : Histogram}
    (hh : Histogram.ofData str = .ok h) : OverflowingCounts str ↔
      1 < (HuffmanTree.weights h).length ∧ HuffmanNode.maxFreq ≤ HuffmanTree.total h := by
  rw [OverflowingCounts, HuffmanTree.length_weights, ← HuffmanTree.sum_frequency]
  simp only [Histogram.frequency_ne_zero_iff hh, Histogram.frequency_ofData hh]
  exact Iff.rfl

namespace Encoder

/-- The table of a string, which the constructor of the encoder builds first. -/
def tableOf (Q : PriorityQueue) (past : UInt32) (str : List UInt8) : Outcome SymbolTable := do
  let histogram ← Histogram.ofData str
  let tree ← HuffmanTree.build Q past histogram
  SymbolTable.ofTree tree

variable {Q : PriorityQueue} {past : UInt32} {str : List UInt8} {st : SymbolTable}

/-- What is known of a table of the string. -/
structure Tabled (str : List UInt8) (st : SymbolTable) : Prop where
  readable : ∀ s, (st s).Readable
  zeroPadded : ∀ s, (st s).ZeroPadded
  bitLength_le : ∀ s, (st s).bitLength ≤ 45
  code_ne_nil_iff : ∀ s, st.code s ≠ [] ↔ Counted str s
  exists_counted : ∃ s, Counted str s
  minimal : ∀ {s}, Counted str s → Minimal st.lookup (st.code s) s
  flatMap_code_filter : ∀ w : List UInt8,
    (w.filter fun s => Counted str s).flatMap st.code = w.flatMap st.code
  length_rest_le : 2 ≤ (symbols.filter fun s => Counted str s).length →
    ∀ {l r : List Bool} {w : List UInt8}, Parse st.lookup l w r → r.length ≤ 45

/-- **The table of any string**: no symbol is left, the counters overflow, or there is a table. -/
theorem tableOf_cases (Q : PriorityQueue) (past : UInt32) (str : List UInt8)
    (hlen : str.length ≠ 2 ^ 64 - 1) :
    ((∀ s, ¬ Counted str s) ∧ tableOf Q past str = .error .undefined) ∨
      (OverflowingCounts str ∧
        tableOf Q past str = .error (.runtimeError "overflow detected")) ∨
      ¬ OverflowingCounts str ∧ ∃ st, tableOf Q past str = .ok st ∧ Tabled str st := by
  obtain ⟨h, hh⟩ := Histogram.ofData_eq_ok hlen
  have hfreq := Histogram.frequency_ne_zero_iff hh
  by_cases hne : h.entries = []
  · refine Or.inl ⟨fun s hs => (hfreq s).mpr hs (h.entries_eq_nil_iff.mp hne s), ?_⟩
    rw [tableOf, hh, ExceptFold.ok_bind, HuffmanTree.build_eq_undefined Q past hne]
    rfl
  have hover := overflowingCounts_iff hh
  have hspec := HuffmanTree.build_spec Q past hne
  cases hb : HuffmanTree.build Q past h with
  | error e =>
    rw [hb] at hspec
    obtain ⟨rfl, hsize, hmax⟩ := hspec
    refine Or.inr (Or.inl ⟨hover.mpr ⟨hsize, hmax⟩, ?_⟩)
    rw [tableOf, hh, ExceptFold.ok_bind, hb]
    rfl
  | ok tree =>
    rw [hb] at hspec
    obtain ⟨st, hst, hc⟩ := SymbolTable.exists_codewords hne hb
    have hcode (s : UInt8) : st.code s ≠ [] ↔ Counted str s :=
      (hc.code_ne_nil_iff hne hb s).trans (hfreq s)
    refine Or.inr (Or.inr ⟨fun ho => ?_, st, ?_, hc.readable hne hb, hc.zeroPadded hne hb,
      hc.bitLength_le hne hb, hcode, ?_, fun hs => hc.minimal hne hb ((hfreq _).mpr hs),
      fun w => ?_, fun htwo => hc.length_rest_le hne hb ?_⟩)
    · obtain ⟨hsize, hmax⟩ := hover.mp ho
      exact Nat.not_le.mpr (hspec.2.2 hsize) hmax
    · rw [tableOf, hh, ExceptFold.ok_bind, hb, ExceptFold.ok_bind, hst]
    · obtain ⟨s, hs⟩ := h.entries_ne_nil_iff.mp hne
      exact ⟨s, (hfreq s).mp hs⟩
    · rw [← hc.flatMap_code_filter w]
      simp only [hfreq]
    · rw [HuffmanTree.length_weights]
      simp only [hfreq]
      exact htwo

theorem tabled_of_tableOf (hst : tableOf Q past str = .ok st) : Tabled str st := by
  have hlen : str.length ≠ 2 ^ 64 - 1 := by
    intro hlen
    rw [tableOf, Histogram.ofData, if_pos hlen] at hst
    cases hst
  obtain ⟨-, herr⟩ | ⟨-, herr⟩ | ⟨-, st', hst', ht⟩ := tableOf_cases Q past str hlen
  · rw [herr] at hst
    cases hst
  · rw [herr] at hst
    cases hst
  · rwa [← Except.ok.inj (hst'.symm.trans hst)]

theorem Tabled.length_code_le (ht : Tabled str st) (s : UInt8) :
    (st.code s).length ≤ HuffmanCode.maxLength :=
  (ht.readable s).length_bits.trans_le ((ht.bitLength_le s).trans (by decide))

/-- A bit stream that holds the codewords of a string, with the table, can be written. -/
theorem Tabled.storable (ht : Tabled str st) {e : BitArray} (he : e.WellFormed)
    (hbits : e.bits = str.flatMap st.code) : Hafe.Storable (Hafe.ofParts st e) := by
  refine ⟨List.length_replicate, ht.readable, fun s => (ht.bitLength_le s).trans (by decide),
    he.readable, rfl, ?_⟩
  obtain ⟨s, hs⟩ := ht.exists_counted
  change 0 < e.bitIdx
  rw [← he.readable.length_bits, hbits, List.length_pos_iff]
  exact fun hnil => (ht.code_ne_nil_iff s).mpr hs (List.flatMap_eq_nil_iff.mp hnil s hs.mem)

/-- **The file of a string with a table** is decompressed to the symbols that are counted. -/
theorem Tabled.decompress_of_write (ht : Tabled str st) {e : BitArray} (he : e.WellFormed)
    (hbits : e.bits = str.flatMap st.code) (build : Build) (exceptions : Bool)
    (rest : List UInt8) : ∃ bytes, (Hafe.ofParts st e).write = .ok bytes ∧
      decompress build exceptions (bytes ++ rest) =
        .ok (str.filter fun s => Counted str s) := by
  obtain ⟨bytes, hw, hd⟩ :=
    (ht.storable he hbits).decompress_of_write ht.zeroPadded build exceptions rest
  refine ⟨bytes, hw, hd.trans (Decoder.decode_flatMap build ht.readable
    (fun s => ht.length_code_le s) he.readable.inBounds (fun s hs => ht.minimal ?_) ?_)⟩
  · simpa using (List.mem_filter.mp hs).2
  · exact hbits.trans (ht.flatMap_code_filter str).symm

end Encoder

/-! ### Compression -/

section Compression

variable {Q : PriorityQueue} {past : UInt32} {str : List UInt8}

open Encoder

/-- Compression builds the table, encodes the string with it, and writes both. -/
theorem compress_eq (Q : PriorityQueue) (past : UInt32) (str : List UInt8) :
    compress Q past str = tableOf Q past str >>= fun st =>
      encodeFast st str >>= fun e => (Hafe.ofParts st e).write := by
  rw [compress, Encoder.new, tableOf]
  cases Histogram.ofData str with
  | error f => rfl
  | ok h =>
    rw [ExceptFold.ok_bind, ExceptFold.ok_bind]
    cases HuffmanTree.build Q past h with
    | error f => rfl
    | ok tree =>
      rw [ExceptFold.ok_bind, ExceptFold.ok_bind]
      cases SymbolTable.ofTree tree with
      | error f => rfl
      | ok st =>
        rw [ExceptFold.ok_bind, ExceptFold.ok_bind]
        cases encodeFast st str with
        | error f => rfl
        | ok e => rfl

/-- The four things that compression can do below `2^61` bytes. -/
theorem compress_cases (Q : PriorityQueue) (past : UInt32) (str : List UInt8)
    (hlen : str.length < 2 ^ 61) :
    ((∀ s, ¬ Counted str s) ∧ tableOf Q past str = .error .undefined ∧
        compress Q past str = .error .undefined) ∨
      (OverflowingCounts str ∧
        tableOf Q past str = .error (.runtimeError "overflow detected") ∧
        compress Q past str = .error (.runtimeError "overflow detected")) ∨
      ¬ OverflowingCounts str ∧ ∃ st, tableOf Q past str = .ok st ∧ Tabled str st ∧
        ((8 * str.length < (str.map fun c => (st c).bitLength).sum ∧
            compress Q past str = .error .undefined) ∨
          (str.map fun c => (st c).bitLength).sum ≤ 8 * str.length ∧
            ∃ bytes, compress Q past str = .ok bytes) := by
  rw [compress_eq]
  obtain ⟨hzero, herr⟩ | ⟨hover, herr⟩ | ⟨hover, st, hst, ht⟩ :=
    tableOf_cases Q past str (by omega)
  · exact Or.inl ⟨hzero, herr, by rw [herr]; rfl⟩
  · exact Or.inr (Or.inl ⟨hover, herr, by rw [herr]; rfl⟩)
  refine Or.inr (Or.inr ⟨hover, st, hst, ht, ?_⟩)
  have hu : u64 (str.length * 8) = 8 * str.length := by
    rw [u64_of_lt (by omega), Nat.mul_comm]
  have hpos : str.length ≠ 0 := by
    obtain ⟨s, hs⟩ := ht.exists_counted
    exact (List.length_pos_of_mem hs.mem).ne'
  have hcases := encodeFast_cases str ht.readable
    fun s => (ht.bitLength_le s).trans (by decide)
  rw [hu] at hcases
  rw [hst, ExceptFold.ok_bind]
  obtain ⟨h0, -⟩ | ⟨-, hfits, e, he, hwf, hbits⟩ | ⟨-, hlong, herr⟩ := hcases
  · omega
  · obtain ⟨bytes, hw, -⟩ := ht.decompress_of_write hwf hbits .debug false []
    exact Or.inr ⟨hfits, bytes, by rw [he, ExceptFold.ok_bind, hw]⟩
  · exact Or.inl ⟨hlong, by rw [herr]; rfl⟩

theorem OverflowingCounts.exists_counted (h : OverflowingCounts str) :
    ∃ s, Counted str s := by
  obtain ⟨s, hs⟩ := List.exists_mem_of_length_pos (Nat.zero_lt_two.trans_le h.1)
  exact ⟨s, by simpa using (List.mem_filter.mp hs).2⟩

/-- What compression returns was made with a table. -/
theorem exists_table_of_compress {bytes : List UInt8} (hc : compress Q past str = .ok bytes) :
    ∃ st e, tableOf Q past str = .ok st ∧ Tabled str st ∧ encodeFast st str = .ok e ∧
      e.WellFormed ∧ e.bits = str.flatMap st.code ∧
      (str.map fun c => (st c).bitLength).sum ≤ 8 * str.length ∧
      (Hafe.ofParts st e).write = .ok bytes := by
  rw [compress_eq] at hc
  obtain ⟨st, hst, hc⟩ := ExceptFold.bind_eq_ok_iff.mp hc
  obtain ⟨e, he, hw⟩ := ExceptFold.bind_eq_ok_iff.mp hc
  have ht := tabled_of_tableOf hst
  obtain ⟨-, what, herr⟩ | ⟨-, hfits, e', he', hwf, hbits⟩ | ⟨-, -, herr⟩ :=
    encodeFast_cases str ht.readable fun s => (ht.bitLength_le s).trans (by decide)
  · rw [herr] at he
    cases he
  · obtain rfl := Except.ok.inj (he'.symm.trans he)
    have hle := hfits.trans (Nat.mod_le _ _)
    exact ⟨st, e', hst, ht, he', hwf, hbits, hle.trans_eq (Nat.mul_comm _ _), hw⟩
  · rw [herr] at he
    cases he

/-- A compressed file is decompressed to the symbols that are counted. -/
theorem decompress_append_of_compress {bytes : List UInt8} (hc : compress Q past str = .ok bytes)
    (build : Build) (exceptions : Bool) (rest : List UInt8) :
    decompress build exceptions (bytes ++ rest) = .ok (str.filter fun s => Counted str s) := by
  obtain ⟨st, e, -, ht, -, he, hbits, -, hw⟩ := exists_table_of_compress hc
  obtain ⟨bytes', hw', hd⟩ := ht.decompress_of_write he hbits build exceptions rest
  obtain rfl := Except.ok.inj (hw'.symm.trans hw)
  exact hd

/-- **What a file of any input holds.** Whatever compression returns, for an input of any length, is
decompressed without a fault to the input without the symbols whose counters are zero. It is the
input exactly when no symbol of it occurs a multiple of `2^32` times. -/
theorem decompress_of_compress {bytes : List UInt8} (hc : compress Q past str = .ok bytes)
    (build : Build) (exceptions : Bool) (rest : List UInt8) :
    decompress build exceptions (bytes ++ rest) =
        .ok (str.filter fun s => Counted str s) ∧
      (decompress build exceptions (bytes ++ rest) = .ok str ↔
        ∀ s ∈ str, Counted str s) := by
  have hd := decompress_append_of_compress hc build exceptions rest
  refine ⟨hd, ?_⟩
  rw [hd, Except.ok.injEq, List.filter_eq_self]
  simp only [decide_eq_true_eq]

/-- Three bytes are compressed. -/
theorem exists_compress_aab :
    ∃ bytes, compress (MinQueue.sortedList _) 0 [97, 97, 98] = .ok bytes := by
  obtain ⟨e, hnew, he⟩ : ∃ e, Encoder.new (MinQueue.sortedList _) 0 [97, 97, 98] = .ok e ∧ _ :=
    Encoder.exists_new _ 0 (by decide) (by decide)
  obtain ⟨a, hw, -⟩ := he.storable_hafe.exists_write
  exact ⟨a.bytes, by rw [compress, hnew, ExceptFold.ok_bind, hw]⟩

theorem decompress_of_compress_aab :
    ∃ bytes, compress (MinQueue.sortedList _) 0 [97, 97, 98] = .ok bytes ∧
      decompress .debug false (bytes ++ [1, 2]) =
          .ok ([97, 97, 98].filter fun s => Counted [97, 97, 98] s) ∧
        (decompress .debug false (bytes ++ [1, 2]) = .ok [97, 97, 98] ↔
          ∀ s ∈ [97, 97, 98], Counted [97, 97, 98] s) := by
  obtain ⟨bytes, hc⟩ := exists_compress_aab
  exact ⟨bytes, hc, decompress_of_compress hc .debug false [1, 2]⟩

end Compression

end HafeCodec
