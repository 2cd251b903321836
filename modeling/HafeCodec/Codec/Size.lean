import HafeCodec.Codec.Compression
import HafeCodec.Library.Entropy

/-!
# The size of what is written

No prefix-free code takes fewer bits than the information of the input, which is its length times
the entropy of the relative frequencies of its symbols. The encoder comes close to it: the
number of bits that it writes is at least the information, and exceeds it by less than one bit for
every byte of the input. It does not depend on the way in which ties are broken
(`Encoder.bitLength_bounds`). A file has in addition a header of 32 bytes and one row for every
symbol, so that it is never longer than the input by more than these (`length_of_compress`). The
order of the bytes of the input shows in the bit stream only (`compress_perm`).

## Main definitions

* `Encoder.information`.

## Main results

* `Encoder.exists_encoded`.
* `Encoder.bitLength_bounds`.
* `length_of_compress`, `compress_perm`.
-/

open BitString

namespace HafeCodec

open HuffmanTree

/-! ### The number of bits -/

namespace SymbolTable.Codewords

variable {Q : PriorityQueue} {past : UInt32} {h : Histogram} {tree : HuffmanTree}
  {st : SymbolTable} (hc : Codewords h tree st) (hne : h.entries ≠ [])
  (hb : build Q past h = .ok tree)

include hc hne hb

/-- The table needs at least the information of the counters. -/
theorem information_le : Entropy.information (total h) ((weights h).map Prod.snd : List ℕ) ≤
    (((weights h).map fun p => p.2 * (st.code p.1).length).sum : ℕ) := by
  refine Entropy.information_le_of_isPrefixFree ?_ (fun p hp => ?_) (fun a ha b hb' => ?_)
    fun a ha => ?_
  · rw [map_fst_weights]
    exact h.nodup_map_fst_entries
  · exact Nat.pos_of_ne_zero (mem_weights.mp hp).2
  · exact hc.isPrefixFree hne hb a (mem_map_fst_weights.mp ha) b (mem_map_fst_weights.mp hb')
  · exact (hc.code_ne_nil_iff hne hb a).mpr (mem_map_fst_weights.mp ha)

/-- The table of at least two symbols needs less than one bit more for every occurrence. -/
theorem lt_information_add (htwo : 2 ≤ (weights h).length) :
    (((weights h).map fun p => p.2 * (st.code p.1).length).sum : ℕ) <
      Entropy.information (total h) ((weights h).map Prod.snd : List ℕ) + total h := by
  have hpaths := paths_root hne hb htwo
  have hlt := (greedyMerge_root hne hb).cost_lt_information_add
    (fun p hp => Nat.pos_of_ne_zero (mem_weights.mp (Multiset.mem_coe.mp hp)).2)
    (by
      rw [Ne, Multiset.coe_eq_zero]
      exact List.ne_nil_of_length_pos (by omega))
  rw [hc.sum_weights hne hb, hpaths, CodeTree.sum_codewords]
  exact hlt

/-- All tables of a histogram need the same number of bits. -/
theorem sum_eq {Q' : PriorityQueue} {past' : UInt32} {tree' : HuffmanTree} {st' : SymbolTable}
    (hc' : Codewords h tree' st') (hb' : build Q' past' h = .ok tree') :
    ((weights h).map fun p => p.2 * (st.code p.1).length).sum =
      ((weights h).map fun p => p.2 * (st'.code p.1).length).sum :=
  le_antisymm
    (hc.sum_weights_le hne hb (hc'.isPrefixFree hne hb')
      fun s => (hc'.code_ne_nil_iff hne hb' s).mpr)
    (hc'.sum_weights_le hne hb' (hc.isPrefixFree hne hb) fun s => (hc.code_ne_nil_iff hne hb s).mpr)

end SymbolTable.Codewords

namespace Encoder

/-- The information of a string in bits: the sum, over its symbols, of the number of times that the
symbol occurs, times the binary logarithm of its inverse relative frequency. -/
noncomputable def information (str : List UInt8) : ℝ :=
  Entropy.information str.length (str.dedup.map fun s => str.count s : List ℕ)

variable {str : List UInt8} {h : Histogram}

/-- The counters of a string, when they are exact, add up to its length. -/
theorem total_eq_length (hcount : ∀ s, (h.frequency s).toNat = str.count s) :
    total h = str.length := by
  have hlen := sum_count str fun _ => 1
  simp only [Nat.mul_one, List.map_const', List.sum_replicate, smul_eq_mul, ← hcount] at hlen
  rw [← sum_frequency, hlen]

theorem frequency_ne_zero_iff (hcount : ∀ s, (h.frequency s).toNat = str.count s) (s : UInt8) :
    h.frequency s ≠ 0 ↔ s ∈ str := by
  refine ⟨fun h0 => ?_, frequency_ne_zero hcount⟩
  by_contra hs
  refine h0 (UInt32.toNat_inj.mp ?_)
  rw [hcount, List.count_eq_zero_of_not_mem hs, UInt32.toNat_zero]

/-- The information of the counters, when they are exact, is that of the string. -/
theorem information_eq (hcount : ∀ s, (h.frequency s).toNat = str.count s) :
    Entropy.information (total h) ((weights h).map Prod.snd : List ℕ) = information str := by
  have hperm : (symbols.filter fun s => h.frequency s ≠ 0).Perm str.dedup := by
    rw [List.perm_ext_iff_of_nodup (nodup_symbols.filter _) str.nodup_dedup]
    intro s
    simp [mem_symbols, frequency_ne_zero_iff hcount]
  rw [information, total_eq_length hcount, weights_eq, List.map_map]
  refine congrArg _ (Multiset.coe_eq_coe.mpr ?_)
  simp only [Function.comp_def, hcount]
  exact hperm.map _

/-- The table has at least two codewords exactly when two different symbols occur. -/
theorem two_le_length_weights_iff (hcount : ∀ s, (h.frequency s).toNat = str.count s) :
    2 ≤ (weights h).length ↔ ∃ s ∈ str, ∃ t ∈ str, s ≠ t := by
  have hnodup : (symbols.filter fun s => h.frequency s ≠ 0).Nodup := nodup_symbols.filter _
  rw [length_weights, ← List.toFinset_card_of_nodup hnodup]
  refine Finset.one_lt_card.trans ?_
  simp [mem_symbols, frequency_ne_zero_iff hcount]

/-- **What the encoder does with a string** whose counters are exact: the number of bits is the
total weighted length of the codewords. -/
theorem exists_encoded (Q : PriorityQueue) (past : UInt32) (hpos : 1 ≤ str.length)
    (hlt : str.length ≤ 2 ^ 32 - 2) (hh : Histogram.ofData str = .ok h) :
    ∃ tree e, build Q past h = .ok tree ∧ Encoder.new Q past str = .ok e ∧
      SymbolTable.Codewords h tree e.symbolTable ∧ h.entries ≠ [] ∧
      (∀ s, (h.frequency s).toNat = str.count s) ∧ e.bitstream.bitLength =
        ((weights h).map fun p => p.2 * (e.symbolTable.code p.1).length).sum := by
  obtain ⟨h', tree, st, hh', hb, hst, hc, hne, hcount⟩ := exists_table Q past hpos hlt
  obtain rfl := Except.ok.inj (hh'.symm.trans hh)
  have hread : ∀ s, (st s).Readable := hc.readable hne hb
  have hfits := sum_bitLength_le hc hne hb hcount
  have hu : u64 (str.length * 8) = 8 * str.length := by
    rw [u64_of_lt (by omega), Nat.mul_comm]
  obtain ⟨bits, he, hholds, -⟩ := exists_encodeFast hread
    (fun s => (hc.bitLength_le hne hb s).trans (by decide)) (by omega) (hfits.trans_eq hu.symm)
  refine ⟨tree, ⟨h', st, bits, str.length⟩, hb, ?_, hc, hne, hcount, ?_⟩
  · rw [Encoder.new, hh, ExceptFold.ok_bind, hb, ExceptFold.ok_bind, hst, ExceptFold.ok_bind, he]
    rfl
  · have hsum := sum_symbols h' fun s => (st.code s).length
    simp only [hcount] at hsum
    rw [sum_count str fun s => (st.code s).length, ← List.length_flatMap] at hsum
    exact hholds.bitIdx_eq.trans hsum

/-- The number of bits needed for one symbol, and its information. -/
theorem single_symbol {Q : PriorityQueue} {past : UInt32} {tree : HuffmanTree} {st : SymbolTable}
    (hc : SymbolTable.Codewords h tree st) (hne : h.entries ≠ []) (hb : build Q past h = .ok tree)
    (hone : (weights h).length = 1) :
    ((weights h).map fun p => p.2 * (st.code p.1).length).sum = total h ∧
      Entropy.information (total h) ((weights h).map Prod.snd : List ℕ) = 0 := by
  obtain ⟨s, hs⟩ := List.length_eq_one_iff.mp ((length_weights h).symm.trans hone)
  have hcode := (hc.code_single hne hb hs).1
  rw [total, weights_eq, hs, List.map_singleton, List.map_singleton, List.map_singleton,
    List.sum_singleton, List.sum_singleton, hcode, List.length_singleton]
  refine ⟨Nat.mul_one _, ?_⟩
  rw [← Multiset.cons_coe, Entropy.information_cons]
  rcases eq_or_ne ((h.frequency s).toNat : ℝ) 0 with h0 | h0
  · simp [h0]
  · simp [div_self h0]

/-- **The number of bits** that the encoder writes is the same for every way of breaking ties. It is
at least the information of the string, and greater by less than the length of the string when two
symbols occur; a string of one symbol, whose information is zero, takes one bit for every byte. -/
theorem bitLength_bounds (hpos : 1 ≤ str.length) (hlt : str.length ≤ 2 ^ 32 - 2) :
    ∃ n : ℕ, (∀ Q past, ∃ e, Encoder.new Q past str = .ok e ∧ e.bitstream.bitLength = n) ∧
      information str ≤ n ∧
      ((∃ s ∈ str, ∃ t ∈ str, s ≠ t) → (n : ℝ) < information str + str.length) ∧
      ((∀ s ∈ str, ∀ t ∈ str, s = t) → n = str.length ∧ information str = 0) := by
  obtain ⟨h, hh⟩ := Histogram.ofData_eq_ok (show str.length ≠ 2 ^ 64 - 1 by omega)
  obtain ⟨tree, e, hb, -, hc, hne, hcount, -⟩ :=
    exists_encoded (MinQueue.sortedList _) 0 hpos hlt hh
  have htotal := total_eq_length hcount
  have hinfo := information_eq hcount
  refine ⟨_, fun Q past => ?_, hinfo ▸ hc.information_le hne hb, ?_, ?_⟩
  · obtain ⟨tree', e', hb', hnew', hc', -, -, hlen'⟩ := exists_encoded Q past hpos hlt hh
    exact ⟨e', hnew', hlen'.trans (hc'.sum_eq hne hb' hc hb)⟩
  · intro htwo
    rw [← htotal, ← hinfo]
    exact hc.lt_information_add hne hb ((two_le_length_weights_iff hcount).mpr htwo)
  · intro hall
    have hlt : ¬ 2 ≤ (weights h).length := by
      rw [two_le_length_weights_iff hcount]
      rintro ⟨s, hs, t, ht, hst⟩
      exact hst (hall s hs t ht)
    have hpos : 0 < (weights h).length := by
      rw [weights, List.length_map]
      exact List.length_pos_iff.mpr hne
    have hone : (weights h).length = 1 := by omega
    obtain ⟨hsum, hzero⟩ := single_symbol hc hne hb hone
    exact ⟨hsum.trans htotal, hinfo.symm.trans hzero⟩

theorem bitLength_bounds_aab :
    ∃ n : ℕ, (∀ Q past, ∃ e, Encoder.new Q past [97, 97, 98] = .ok e ∧
        e.bitstream.bitLength = n) ∧
      information [97, 97, 98] ≤ n ∧
      ((∃ s : UInt8, s ∈ [97, 97, 98] ∧ ∃ t ∈ [97, 97, 98], s ≠ t) →
        (n : ℝ) < information [97, 97, 98] + (3 : ℕ)) ∧
      ((∀ s : UInt8, s ∈ [97, 97, 98] → ∀ t ∈ [97, 97, 98], s = t) →
        n = 3 ∧ information [97, 97, 98] = 0) :=
  bitLength_bounds (by decide) (by decide)

end Encoder

/-! ### The length of a file -/

/-- The length of the rows on disk. -/
theorem Hafe.length_rows {st : SymbolTable} (hst : ∀ s, (st s).Readable) :
    (rows st).length = ((symbols.filter fun s => st.code s ≠ []).map fun s =>
      2 + ((st s).bitLength + 7) / 8).sum := by
  rw [rows, List.length_flatMap]
  induction symbols with
  | nil => rfl
  | cons s l ih =>
    rw [List.map_cons, List.sum_cons, ih, length_row fun s => (hst s).effectiveByteSize_le,
      (hst s).effectiveByteSize_eq]
    have hempty : (st s).empty = true ↔ st.code s = [] := by
      rw [BitArray.empty, beq_iff_eq, ← (hst s).length_bits, List.length_eq_zero_iff]
      rfl
    by_cases hs : st.code s = []
    · rw [List.filter_cons_of_neg (by simpa using hs), if_pos (hempty.mpr hs), Nat.zero_add]
    · rw [List.filter_cons_of_pos (by simpa using hs), if_neg (mt hempty.mp hs), List.map_cons,
        List.sum_cons]
      rfl

/-- The length of a file. -/
theorem Archive.length_bytes (a : Archive) :
    a.bytes.length = 32 + (entryBytes a.entries).length + (a.bitLength + 7) / 8 := by
  have hmagic : Hafe.magic.length = 4 := rfl
  simp only [bytes, List.length_append, length_toLE, a.length_reserved, a.length_bitBytes, hmagic]
  omega

/-- **The length of a compressed file**: the header, a row for every symbol that is counted, and the
bits. It exceeds that of the input by no more than the header and eight bytes for every row. -/
theorem length_of_compress {Q : PriorityQueue} {past : UInt32} {str bytes : List UInt8}
    (hc : compress Q past str = .ok bytes) :
    ∃ st, Encoder.tableOf Q past str = .ok st ∧
      bytes.length = 32 + ((symbols.filter fun s => Counted str s).map fun s =>
        2 + ((st s).bitLength + 7) / 8).sum + ((str.map fun c => (st c).bitLength).sum + 7) / 8 ∧
      bytes.length ≤ 32 + 8 * (symbols.filter fun s => Counted str s).length + str.length := by
  obtain ⟨st, e, hst, ht, -, he, hbits, hfits, hw⟩ := exists_table_of_compress hc
  obtain ⟨a, hw', -, hentries, -, -, hlen, -⟩ := (ht.storable he hbits).exists_write
  obtain rfl := Except.ok.inj (hw'.symm.trans hw)
  have hsum : a.bitLength = (str.map fun c => (st c).bitLength).sum := by
    rw [← Encoder.length_flatMap_code ht.readable, ← hbits, he.readable.length_bits]
    exact hlen
  have hrows := Hafe.length_rows ht.readable
  simp only [ht.code_ne_nil_iff] at hrows
  have hbytes := a.length_bytes
  rw [hentries, hsum] at hbytes
  have hle : (Hafe.rows st).length ≤ 8 * (symbols.filter fun s => Counted str s).length := by
    rw [hrows]
    refine (List.sum_le_card_nsmul _ 8 fun n hn => ?_).trans_eq ?_
    · obtain ⟨s, -, rfl⟩ := List.mem_map.mp hn
      have hs := ht.bitLength_le s
      omega
    · rw [List.length_map, smul_eq_mul, Nat.mul_comm]
  refine ⟨st, hst, ?_, ?_⟩
  · rw [hbytes, ← hrows]
    rfl
  · refine hbytes.trans_le ?_
    change _ + (Hafe.rows st).length + _ ≤ _
    omega

theorem length_of_compress_aab :
    ∃ bytes, compress (MinQueue.sortedList _) 0 [97, 97, 98] = .ok bytes ∧
      ∃ st, Encoder.tableOf (MinQueue.sortedList _) 0 [97, 97, 98] = .ok st ∧
        bytes.length = 32 + ((symbols.filter fun s => Counted [97, 97, 98] s).map fun s =>
          2 + ((st s).bitLength + 7) / 8).sum +
            (([97, 97, 98].map fun c => (st c).bitLength).sum + 7) / 8 ∧
        bytes.length ≤ 32 + 8 * (symbols.filter fun s => Counted [97, 97, 98] s).length + 3 := by
  obtain ⟨bytes, hc⟩ := exists_compress_aab
  exact ⟨bytes, hc, length_of_compress hc⟩

/-! ### The order of the input -/

section Permutation

open Encoder BitArray

variable {Q : PriorityQueue} {past : UInt32} {str str' bytes : List UInt8} {st : SymbolTable}

/-- The counters do not depend on the order of the data. -/
theorem Histogram.ofData_perm (hp : str.Perm str') : ofData str = ofData str' := by
  by_cases hlen : str.length = 2 ^ 64 - 1
  · rw [ofData, ofData, if_pos hlen, if_pos (hp.length_eq ▸ hlen)]
  · obtain ⟨h, hh⟩ := ofData_eq_ok hlen
    obtain ⟨h', hh'⟩ := ofData_eq_ok (hp.length_eq ▸ hlen)
    have hfreq : h.frequency = h'.frequency := by
      funext s
      rw [← UInt32.toNat_inj, frequency_ofData hh, frequency_ofData hh', hp.count_eq]
    rw [hh, hh']
    exact congrArg (fun f => Except.ok (Histogram.mk f)) hfreq

theorem Encoder.tableOf_perm (hp : str.Perm str') : tableOf Q past str = tableOf Q past str' := by
  rw [tableOf, tableOf, Histogram.ofData_perm hp]

/-- With one table the strings of the same symbols take the same number of bits. -/
theorem Encoder.exists_encodeFast_perm (hp : str.Perm str') (hst : ∀ s, (st s).Readable)
    (hshort : ∀ s, (st s).bitLength ≤ 255) {e : BitArray} (he : encodeFast st str = .ok e) :
    ∃ e', encodeFast st str' = .ok e' ∧ e'.WellFormed ∧ e'.bits = str'.flatMap st.code ∧
      e'.bitLength = e.bitLength := by
  have hsum := (hp.map fun c => (st c).bitLength).sum_eq
  have hlen (str : List UInt8) {e : BitArray} (hwf : e.WellFormed)
      (hbits : e.bits = str.flatMap st.code) :
      e.bitLength = (str.map fun c => (st c).bitLength).sum := by
    rw [← length_flatMap_code hst, ← hbits, hwf.readable.length_bits]
    rfl
  obtain ⟨-, what, herr⟩ | ⟨h0, hfits, e₁, he₁, hwf, hbits⟩ | ⟨-, -, herr⟩ :=
    encodeFast_cases str hst hshort
  · rw [herr] at he
    cases he
  · obtain rfl := Except.ok.inj (he₁.symm.trans he)
    rw [hp.length_eq] at h0 hfits
    rw [hsum] at hfits
    obtain ⟨h0', -⟩ | ⟨-, -, e', he', hwf', hbits'⟩ | ⟨-, hlong, -⟩ :=
      encodeFast_cases str' hst hshort
    · exact absurd h0' h0
    · exact ⟨e', he', hwf', hbits', by rw [hlen str hwf hbits, hlen str' hwf' hbits', hsum]⟩
    · exact absurd hfits (Nat.not_le.mpr hlong)
  · rw [herr] at he
    cases he

/-- **The order of the input** shows in the bit stream only: two inputs with the same symbols are
compressed to files that agree in front of the bit stream, whose length is the same, or neither of
them is. -/
theorem compress_perm (hp : str.Perm str') (hc : compress Q past str = .ok bytes) :
    ∃ st header v v', tableOf Q past str = .ok st ∧ bytes = header ++ v ∧
      compress Q past str' = .ok (header ++ v') ∧
      v.length = ((str.map fun c => (st c).bitLength).sum + 7) / 8 ∧ v'.length = v.length := by
  obtain ⟨st, e, hst, ht, he, hwf, hbits, -, hw⟩ := exists_table_of_compress hc
  have hst' := hst
  rw [tableOf_perm hp] at hst'
  have ht' := tabled_of_tableOf hst'
  obtain ⟨e', he', hwf', hbits', hlen⟩ := exists_encodeFast_perm hp ht.readable
    (fun s => (ht.bitLength_le s).trans (by decide)) he
  obtain ⟨bytes', hw', -⟩ := ht'.decompress_of_write hwf' hbits' .debug false []
  obtain ⟨hbytes, -⟩ := Hafe.eq_fileBytes_of_write hw
  obtain ⟨hbytes', -⟩ := Hafe.eq_fileBytes_of_write hw'
  have hsum : e.bitIdx = (str.map fun c => (st c).bitLength).sum := by
    rw [← length_flatMap_code ht.readable, ← hbits, hwf.readable.length_bits]
  have hsize : e'.effectiveBytes.length = e.effectiveBytes.length := by
    rw [hwf'.readable.length_effectiveBytes, hwf.readable.length_effectiveBytes]
    exact congrArg (fun n => (n + 7) / 8) hlen
  refine ⟨st, Hafe.magic ++ ((Hafe.ofParts st e).reserved ++
    (toLE 4 ((Hafe.rows st).length % 2 ^ 32) ++ (Hafe.rows st ++ toLE 8 e.bitLength))),
    e.effectiveBytes, e'.effectiveBytes, hst, ?_, ?_, ?_, hsize⟩
  · rw [hbytes, Hafe.fileBytes]
    simp only [List.append_assoc]
    rfl
  · rw [compress_eq, hst', ExceptFold.ok_bind, he', ExceptFold.ok_bind, hw', hbytes',
      Hafe.fileBytes, ← hlen]
    simp only [List.append_assoc]
    rfl
  · rw [hwf.readable.length_effectiveBytes, hsum]

theorem compress_perm_aab :
    ∃ st header v v', tableOf (MinQueue.sortedList _) 0 [97, 97, 98] = .ok st ∧
      compress (MinQueue.sortedList _) 0 [97, 97, 98] = .ok (header ++ v) ∧
      compress (MinQueue.sortedList _) 0 [98, 97, 97] = .ok (header ++ v') ∧
      v.length = (([97, 97, 98].map fun c => (st c).bitLength).sum + 7) / 8 ∧
      v'.length = v.length := by
  obtain ⟨bytes, hc⟩ := exists_compress_aab
  have hp : ([97, 97, 98] : List UInt8).Perm [98, 97, 97] := by decide
  obtain ⟨st, header, v, v', hst, rfl, hc', hlen, hlen'⟩ := compress_perm hp hc
  exact ⟨st, header, v, v', hst, hc, hc', hlen, hlen'⟩

end Permutation

end HafeCodec
