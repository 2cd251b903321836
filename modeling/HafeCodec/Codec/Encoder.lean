import HafeCodec.BitArray.Append
import HafeCodec.BitArray.Observation
import HafeCodec.Table.Codewords

/-!
# The encoder

The codewords of the bytes of a string are written one after the other into a bit array of
`8 * str.length()` bits, either by `operator+=` (`Encoder.encode`) or bit by bit at a running index
(`Encoder.encodeFast`). Neither looks at the capacity before it writes. The table built from the
string itself needs at most eight bits for a byte on average, since the code of eight bits for every
byte is prefix-free; so both encoders stay inside of their vector (`Encoder.encoders_in_bounds`).

## Main definitions

* `Encoder.encode`, `Encoder.encodeFast`.
* `Encoder`, `Encoder.new`.

## Main results

* `Encoder.exists_encode`, `Encoder.exists_encodeFast`: the encoders on a table and a string whose
  codewords fit.
* `Encoder.encoders_agree`: both return the codewords in a row.
* `Encoder.sum_bitLength_le`: the table of a string is no worse than eight bits for every byte.
* `Encoder.encoders_in_bounds`.
-/

open BitString

namespace HafeCodec

/-- The members `m_histogram`, `m_symbol_table`, `m_bitstream` and `m_original_input_length`. -/
structure Encoder where
  histogram : Histogram
  symbolTable : SymbolTable
  bitstream : BitArray
  originalInputLength : ℕ

namespace Encoder

open BitArray

/-- `encode(const SymbolTable &st, const std::string &str)`. -/
def encode (st : SymbolTable) (str : List UInt8) : Outcome BitArray := do
  let encoded ← BitArray.ofLength (u64 (str.length * 8))
  str.foldlM (fun encoded ch => encoded.append (st ch)) encoded

/-- The inner loop of `encode_fast` on the codeword `enc`, from the array and the index `bits`. The
bound `len` has type `uint_fast8_t`. -/
def writeCode (p : BitArray × ℕ) (enc : HuffmanCode) : Outcome (BitArray × ℕ) :=
  (List.range (HuffmanCode.length8 enc).toNat).foldlM (fun p b => do
    let encoded ← p.1.put p.2 (← enc.get b)
    return (encoded, u64 (p.2 + 1))) p

/-- `encode_fast(const SymbolTable &st, const std::string &str)`. -/
def encodeFast (st : SymbolTable) (str : List UInt8) : Outcome BitArray := do
  let encoded ← BitArray.ofLength (u64 (str.length * 8))
  let p ← str.foldlM (fun p ch => writeCode p (st ch)) (encoded, 0)
  return p.1.setBitLength p.2

/-- `Encoder(const std::string &str)`. -/
def new (Q : PriorityQueue) (past : UInt32) (str : List UInt8) : Outcome Encoder := do
  let histogram ← Histogram.ofData str
  let tree ← HuffmanTree.build Q past histogram
  let symbolTable ← SymbolTable.ofTree tree
  let bitstream ← encodeFast symbolTable str
  return { histogram, symbolTable, bitstream, originalInputLength := str.length }

variable {st : SymbolTable} {str : List UInt8}

/-- The length of an encoded string. -/
theorem length_flatMap_code (hst : ∀ s, (st s).Readable) (l : List UInt8) :
    (l.flatMap st.code).length = (l.map fun c => (st c).bitLength).sum := by
  rw [List.length_flatMap]
  exact congrArg List.sum (List.map_congr_left fun c _ => (hst c).length_bits)

/-- A codeword fits behind those already written when all codewords fit. -/
private theorem length_done_le {n : ℕ} (hst : ∀ s, (st s).Readable)
    (htotal : (str.map fun c => (st c).bitLength).sum ≤ n) {done rest : List UInt8} {c : UInt8}
    (hsplit : str = done ++ c :: rest) :
    (done.flatMap st.code).length + (st c).bitIdx ≤ n := by
  rw [← length_flatMap_code hst, hsplit, List.flatMap_append, List.length_append,
    List.flatMap_cons, List.length_append] at htotal
  have hc : (st.code c).length = (st c).bitIdx := (hst c).length_bits
  omega

/-! ### The encoder by appending -/

/-- The bits reserved for a string of `len` bytes, a multiple of eight. -/
theorem u64_mul_eight (len : ℕ) : u64 (len * 8) % 8 = 0 ∧ u64 (len * 8) < 2 ^ 64 := by
  rw [u64]
  omega

/-- The array reserved for a string of `len` bytes has no free bits but those asked for. -/
theorem exists_reserved {len : ℕ} (h0 : u64 (len * 8) ≠ 0) :
    ∃ a, BitArray.ofLength (u64 (len * 8)) = .ok a ∧ a.Holds [] ∧
      8 * a.vct.length = u64 (len * 8) ∧ 8 * a.vct.length < 2 ^ 64 := by
  obtain ⟨hmod, hlt⟩ := u64_mul_eight len
  obtain ⟨a, ha, hzero, hsize⟩ := Holds.ofLength (n := u64 (len * 8)) (by omega) (by omega)
  exact ⟨a, ha, hzero, by omega, by omega⟩

/-- **The encoder by appending** concatenates the codewords when they fit. -/
theorem exists_encode (hst : ∀ s, (st s).Readable) (h0 : u64 (str.length * 8) ≠ 0)
    (htotal : (str.map fun c => (st c).bitLength).sum ≤ u64 (str.length * 8)) :
    ∃ e, encode st str = .ok e ∧ e.Readable ∧ e.bits = str.flatMap st.code := by
  obtain ⟨a, ha, hzero, hsize, hlt⟩ := exists_reserved h0
  set n := u64 (str.length * 8) with hn
  have hwf : a.WellFormed := hzero.wellFormed (by omega)
  have hidx : a.bitIdx = 0 := hzero.bitIdx_eq
  have hstep (done : List UInt8) (c : UInt8) (rest : List UInt8) (t : BitArray)
      (hsplit : str = done ++ c :: rest) (ht : Extended a (done.flatMap st.code) t) :
      ∃ t', t.append (st c) = .ok t' ∧ Extended a ((done ++ [c]).flatMap st.code) t' := by
    rw [List.flatMap_append, List.flatMap_singleton]
    by_cases hc : (st c).bitIdx = 0
    · have hnil : st.code c = [] := List.eq_nil_of_length_eq_zero ((hst c).length_bits.trans hc)
      exact ⟨t, if_pos hc, by rwa [hnil, List.append_nil]⟩
    -- A codeword that is not empty finds a free bit, so that no byte was attached before.
    have hroom := length_done_le hst htotal hsplit
    have hge := ht.size_ge
    have hle := ht.size_le
    have htidx := ht.bitIdx_eq
    have hsize' : t.vct.length = a.vct.length := by omega
    have htwf : t.WellFormed := by
      refine ⟨?_, by omega, by omega⟩
      rw [ht.capacity_eq, u64_of_lt (by omega)]
    obtain ⟨t', ht', hext⟩ := htwf.exists_append (hst c) (by omega) (by omega)
    exact ⟨t', ht', ht.trans hext⟩
  obtain ⟨e, he, hext⟩ := ExceptFold.foldlM_ok (fun done t => Extended a (done.flatMap st.code) t)
    hwf.extended_nil hstep
  have hlen := length_flatMap_code hst str
  have heidx := hext.bitIdx_eq
  have hge := hext.size_ge
  refine ⟨e, ?_, ⟨by omega, by omega⟩, ?_⟩
  · rw [encode, ← hn, ha, ExceptFold.ok_bind]
    exact he
  · rw [hext.bits_eq, hzero.bits_eq, List.nil_append]

/-! ### The encoder by writing -/

/-- The array and the index of `encode_fast` after the bits `l` have been written into `m`
bytes. -/
structure Written (m : ℕ) (l : List Bool) (p : BitArray × ℕ) : Prop where
  index_eq : p.2 = l.length
  size_eq : p.1.vct.length = m
  holds : (p.1.setBitLength p.2).Holds l

/-- Writing one bit. -/
theorem Written.put {m : ℕ} {l : List Bool} {p : BitArray × ℕ} (h : Written m l p)
    (hm : 8 * m < 2 ^ 64) (hroom : l.length < 8 * m) (value : Bool) :
    ∃ a, p.1.put p.2 value = .ok a ∧ Written m (l ++ [value]) (a, u64 (p.2 + 1)) := by
  have hidx := h.index_eq
  have hsize := h.size_eq
  obtain ⟨v, hput, hv⟩ := exists_put (a := p.1) (i := p.2) (by omega) value
  have hlen : v.length = m := (length_of_unpack_eq_set hv).trans hsize
  have hnext : u64 (p.2 + 1) = (l ++ [value]).length := by
    rw [u64_of_lt (by omega), hidx, List.length_append, List.length_singleton]
  have hunpack : unpack p.1.vct = l ++ List.replicate (8 * p.1.vct.length - l.length) false :=
    h.holds.unpack_eq
  refine ⟨{ p.1 with vct := v }, hput, hnext, hlen, hnext, ?_, ?_⟩
  · change p.1.bitCapacity = u64 (8 * v.length)
    rw [hlen, ← hsize]
    exact h.holds.capacity_eq
  · change unpack v = _ ++ List.replicate (8 * v.length - _) false
    rw [hv, hunpack, hidx, Holds.set_append_replicate l value (by omega), hlen, hsize,
      List.length_append, List.length_singleton]

/-- Writing one codeword. -/
theorem Written.writeCode {m : ℕ} {l : List Bool} {p : BitArray × ℕ} (h : Written m l p)
    (hm : 8 * m < 2 ^ 64) {enc : HuffmanCode} (henc : enc.Readable) (hshort : enc.bitIdx ≤ 255)
    (hroom : l.length + enc.bitIdx ≤ 8 * m) :
    ∃ p', writeCode p enc = .ok p' ∧ Written m (l ++ enc.bits) p' := by
  have hlen := henc.length_bits
  have hmod : (HuffmanCode.length8 enc).toNat = enc.bits.length := by
    rw [HuffmanCode.toNat_length8 hshort, hlen, bitLength]
  have hstep (i : ℕ) (t : BitArray × ℕ) (hi : i < enc.bits.length)
      (ht : Written m (l ++ enc.bits.take i) t) :
      ∃ t', (do
          let encoded ← t.1.put t.2 (← enc.get i)
          return (encoded, u64 (t.2 + 1)) : Outcome (BitArray × ℕ)) = .ok t' ∧
        Written m (l ++ enc.bits.take (i + 1)) t' := by
    have hget := get_eq_ok (List.getElem?_eq_getElem hi)
    have htake : (l ++ enc.bits.take i).length = l.length + i := by
      rw [List.length_append, List.length_take_of_le hi.le]
    obtain ⟨a, ha, hw⟩ := ht.put hm (by omega) enc.bits[i]
    refine ⟨(a, u64 (t.2 + 1)), by rw [hget, ExceptFold.ok_bind, ha]; rfl, ?_⟩
    rwa [List.append_assoc, List.take_concat_get' _ _ hi] at hw
  obtain ⟨p', hp', hw⟩ := ExceptFold.foldlM_range_ok
    (fun i t => Written m (l ++ enc.bits.take i) t) (by rwa [List.take_zero, List.append_nil])
    hstep
  refine ⟨p', by rw [Encoder.writeCode, hmod]; exact hp', ?_⟩
  rwa [List.take_length] at hw

/-- **The encoder by writing** concatenates the codewords when they fit. -/
theorem exists_encodeFast (hst : ∀ s, (st s).Readable) (hshort : ∀ s, (st s).bitIdx ≤ 255)
    (h0 : u64 (str.length * 8) ≠ 0)
    (htotal : (str.map fun c => (st c).bitLength).sum ≤ u64 (str.length * 8)) :
    ∃ e, encodeFast st str = .ok e ∧ e.Holds (str.flatMap st.code) ∧
      8 * e.vct.length = u64 (str.length * 8) := by
  obtain ⟨a, ha, hzero, hsize, hlt⟩ := exists_reserved h0
  set n := u64 (str.length * 8) with hn
  have hinit : Written a.vct.length [] (a, 0) :=
    ⟨rfl, rfl, rfl, hzero.capacity_eq, hzero.unpack_eq⟩
  have hstep (done : List UInt8) (c : UInt8) (rest : List UInt8) (p : BitArray × ℕ)
      (hsplit : str = done ++ c :: rest) (hp : Written a.vct.length (done.flatMap st.code) p) :
      ∃ p', writeCode p (st c) = .ok p' ∧
        Written a.vct.length ((done ++ [c]).flatMap st.code) p' := by
    have hroom := length_done_le hst htotal hsplit
    obtain ⟨p', hp', hw⟩ := hp.writeCode (by omega) (hst c) (hshort c) (by omega)
    refine ⟨p', hp', ?_⟩
    rw [List.flatMap_append, List.flatMap_singleton]
    exact hw
  obtain ⟨p, hp, hw⟩ := ExceptFold.foldlM_ok
    (fun done p => Written a.vct.length (done.flatMap st.code) p) hinit hstep
  have hpsize : (p.1.setBitLength p.2).vct.length = a.vct.length := hw.size_eq
  refine ⟨p.1.setBitLength p.2, ?_, hw.holds, by omega⟩
  rw [encodeFast, ← hn, ha, ExceptFold.ok_bind, hp]
  rfl

/-! ### The two encoders agree -/

/-- **The two encoders agree.** When the codewords fit into the bits reserved, whose number is
computed in 64 bits, both encoders return arrays of the same length with the same bit at every
index, those of the codewords in a row. -/
theorem encoders_agree (hst : ∀ s, (st s).Readable) (hshort : ∀ s, (st s).bitLength ≤ 255)
    (h0 : u64 (str.length * 8) ≠ 0)
    (htotal : (str.map fun c => (st c).bitLength).sum ≤ u64 (str.length * 8)) :
    ∃ e e', encode st str = .ok e ∧ encodeFast st str = .ok e' ∧ SameBits e e' ∧
      e.Shows (str.flatMap st.code) ∧ e'.Shows (str.flatMap st.code) := by
  obtain ⟨e, he, hread, hbits⟩ := exists_encode hst h0 htotal
  obtain ⟨e', he', hholds, -⟩ := exists_encodeFast hst hshort h0 htotal
  have hlen := length_flatMap_code hst str
  have hu := u64_mul_eight str.length
  have hshows : e.Shows (str.flatMap st.code) := hread.shows_iff.mpr hbits
  have hshows' : e'.Shows (str.flatMap st.code) := hholds.shows (by omega)
  exact ⟨e, e', he, he', sameBits_iff.mpr ⟨_, hshows, hshows'⟩, hshows, hshows'⟩

theorem encoders_agree_aba :
    ∃ e e', encode .tableAb [97, 98, 97] = .ok e ∧ encodeFast .tableAb [97, 98, 97] = .ok e' ∧
      SameBits e e' ∧ e.Shows ([97, 98, 97].flatMap (SymbolTable.code .tableAb)) ∧
      e'.Shows ([97, 98, 97].flatMap (SymbolTable.code .tableAb)) :=
  encoders_agree (fun s => (SymbolTable.wellFormed_tableAb s).readable)
    (fun s => (SymbolTable.bitLength_tableAb_le s).trans (by decide)) (by decide) (by decide)

/-- A string whose length in bits wraps to zero. -/
def hugeString : List UInt8 :=
  List.replicate (2 ^ 61) 97

/-- No bits are reserved for a string whose length in bits wraps to zero. -/
theorem encode_eq_error (h : u64 (str.length * 8) = 0) (e : BitArray) :
    encode st str ≠ .ok e ∧ encodeFast st str ≠ .ok e := by
  rw [encode, encodeFast, h]
  exact ⟨nofun, nofun⟩

/-- The codewords fit into eight bits for every byte, and both encoders throw. -/
theorem not_encoders_agree :
    hugeString ≠ [] ∧ (∀ s, (SymbolTable.tableAb s).Readable) ∧
      (∀ s, (SymbolTable.tableAb s).bitLength ≤ 255) ∧
      (hugeString.map fun c => (SymbolTable.tableAb c).bitLength).sum ≤ 8 * hugeString.length ∧
      ¬ ∃ e e', encode .tableAb hugeString = .ok e ∧ encodeFast .tableAb hugeString = .ok e' ∧
        SameBits e e' := by
  have hlen : hugeString.length = 2 ^ 61 := List.length_replicate
  refine ⟨List.ne_nil_of_length_pos (by rw [hlen]; decide),
    fun s => (SymbolTable.wellFormed_tableAb s).readable,
    fun s => (SymbolTable.bitLength_tableAb_le s).trans (by decide), ?_, ?_⟩
  · rw [hlen, hugeString, List.map_replicate, List.sum_replicate, smul_eq_mul]
    decide
  · rintro ⟨e, -, he, -⟩
    exact (encode_eq_error (by rw [hlen]; rfl) e).1 he

/-! ### The table of a string -/

/-- A sum over a string, sorted by symbol. -/
theorem sum_count (str : List UInt8) (g : UInt8 → ℕ) :
    (symbols.map fun s => str.count s * g s).sum = (str.map g).sum := by
  have hsum := Finset.sum_list_map_count str g
  have hsub : str.toFinset ⊆ symbols.toFinset := fun s _ => List.mem_toFinset.mpr (mem_symbols s)
  rw [Finset.sum_subset hsub fun s _ hs => by
    rw [List.count_eq_zero_of_not_mem fun h => hs (List.mem_toFinset.mpr h), zero_nsmul],
    List.sum_toFinset _ nodup_symbols] at hsum
  exact hsum.symm

/-- A symbol of the string occurs in its histogram. -/
theorem frequency_ne_zero {h : Histogram} (hcount : ∀ s, (h.frequency s).toNat = str.count s)
    {s : UInt8} (hs : s ∈ str) : h.frequency s ≠ 0 := by
  intro h0
  have hcs := hcount s
  rw [h0, UInt32.toNat_zero] at hcs
  exact (List.count_pos_iff.mpr hs).ne hcs

/-- **The table of a string** is built, and its counters are exact, when the string is not empty
and shorter than the bound on the frequencies. -/
theorem exists_table (Q : PriorityQueue) (past : UInt32) (hpos : 1 ≤ str.length)
    (hlt : str.length ≤ 2 ^ 32 - 2) :
    ∃ h tree st, Histogram.ofData str = .ok h ∧ HuffmanTree.build Q past h = .ok tree ∧
      SymbolTable.ofTree tree = .ok st ∧ SymbolTable.Codewords h tree st ∧ h.entries ≠ [] ∧
      ∀ s, (h.frequency s).toNat = str.count s := by
  obtain ⟨h, hh⟩ := Histogram.ofData_eq_ok (show str.length ≠ 2 ^ 64 - 1 by omega)
  have hcount (s : UInt8) : (h.frequency s).toNat = str.count s := by
    have hle := List.count_le_length (a := s) (l := str)
    rw [Histogram.frequency_ofData hh, Nat.mod_eq_of_lt (by omega)]
  have hne : h.entries ≠ [] := by
    obtain ⟨s, hs⟩ := List.exists_mem_of_length_pos hpos
    exact h.entries_ne_nil_iff.mpr ⟨s, frequency_ne_zero hcount hs⟩
  have htotal : HuffmanTree.total h = str.length := by
    have hsum := HuffmanTree.sum_symbols h fun _ => 1
    simp only [Nat.mul_one, hcount] at hsum
    have hlen := sum_count str fun _ => 1
    simp only [Nat.mul_one, List.map_const', List.sum_replicate, smul_eq_mul] at hlen
    rw [HuffmanTree.total, ← hsum, hlen]
  obtain ⟨tree, htree⟩ := HuffmanTree.exists_build Q past hne
    (by rw [htotal, HuffmanNode.maxFreq]; omega)
  obtain ⟨st, hst, hc⟩ := SymbolTable.exists_codewords hne htree
  exact ⟨h, tree, st, hh, htree, hst, hc, hne, hcount⟩

/-- **The table of a string is no worse than eight bits for every byte.** -/
theorem sum_bitLength_le {Q : PriorityQueue} {past : UInt32} {h : Histogram} {tree : HuffmanTree}
    (hc : SymbolTable.Codewords h tree st) (hne : h.entries ≠ [])
    (hb : HuffmanTree.build Q past h = .ok tree)
    (hcount : ∀ s, (h.frequency s).toNat = str.count s) :
    (str.map fun c => (st c).bitLength).sum ≤ 8 * str.length := by
  have hle := hc.sum_weights_le hne hb (isPrefixFree_byteBits _) fun s _ => byteBits_ne_nil s
  rw [← HuffmanTree.sum_symbols h fun s => (st.code s).length,
    ← HuffmanTree.sum_symbols h fun s => (byteBits s).length] at hle
  simp only [hcount, length_byteBits, hc.clean.length_code] at hle
  rw [sum_count, sum_count] at hle
  rwa [List.map_const', List.sum_replicate, smul_eq_mul, Nat.mul_comm] at hle

/-- **The encoders stay inside of their vector.** The codewords of a string in the table built from
it have at most `8 * str.length()` bits together, and both encoders succeed, that is, make no access
outside of the vector. -/
theorem encoders_in_bounds (Q : PriorityQueue) (past : UInt32) (hpos : 1 ≤ str.length)
    (hlt : str.length ≤ 2 ^ 32 - 2) :
    ∃ h tree st, Histogram.ofData str = .ok h ∧ HuffmanTree.build Q past h = .ok tree ∧
      SymbolTable.ofTree tree = .ok st ∧
      (str.map fun c => (st c).bitLength).sum ≤ 8 * str.length ∧
      (∃ e, encodeFast st str = .ok e ∧ e.bits = str.flatMap st.code ∧
        e.bitCapacity = 8 * str.length ∧ e.vct.length = str.length) ∧
      ∃ e, encode st str = .ok e ∧ e.bits = str.flatMap st.code := by
  obtain ⟨h, tree, st, hh, htree, hst, hc, hne, hcount⟩ := exists_table Q past hpos hlt
  have hread (s : UInt8) : (st s).Readable := hc.readable hne htree s
  have hshort (s : UInt8) : (st s).bitIdx ≤ 255 := (hc.bitLength_le hne htree s).trans (by decide)
  have htotal := sum_bitLength_le hc hne htree hcount
  have hu : u64 (str.length * 8) = str.length * 8 := u64_of_lt (by omega)
  have h0 : u64 (str.length * 8) ≠ 0 := by omega
  obtain ⟨e, he, hholds, hsize⟩ := exists_encodeFast hread hshort h0 (by omega)
  obtain ⟨e', he', -, hbits⟩ := exists_encode hread h0 (by omega)
  refine ⟨h, tree, st, hh, htree, hst, htotal, ⟨e, he, hholds.bits_eq, ?_, by omega⟩, e', he',
    hbits⟩
  rw [hholds.capacity_eq, hsize, hu, u64_of_lt (by omega), Nat.mul_comm]

theorem encoders_in_bounds_aab :
    ∃ h tree st, Histogram.ofData [97, 97, 98] = .ok h ∧
      HuffmanTree.build (MinQueue.sortedList _) 0 h = .ok tree ∧
      SymbolTable.ofTree tree = .ok st ∧
      ([97, 97, 98].map fun c => (st c).bitLength).sum ≤ 8 * 3 ∧
      (∃ e, encodeFast st [97, 97, 98] = .ok e ∧ e.bits = [97, 97, 98].flatMap st.code ∧
        e.bitCapacity = 8 * 3 ∧ e.vct.length = 3) ∧
      ∃ e, encode st [97, 97, 98] = .ok e ∧ e.bits = [97, 97, 98].flatMap st.code :=
  encoders_in_bounds (MinQueue.sortedList _) 0 (by decide) (by decide)

end Encoder

end HafeCodec
