import HafeCodec.Library.Chain
import HafeCodec.Table.Codewords
import HafeCodec.Tree.Construction

/-!
# The longest codewords

The source names Fibonacci frequencies as the worst case and assumes no better bound on the length
of a codeword than the number of symbols. Here the worst case is made exact. The tree of `n` symbols
with Fibonacci frequencies degenerates to a list for every way of breaking ties, so that the two
rarest symbols have codewords of `n - 1` bits; and since the frequencies are added in 32 bits, such
a tree exists for up to 45 symbols, and is rejected as an overflow from 46 symbols on
(`SymbolTable.fibonacci`).

## Main definitions

* `Histogram.Fibonacci h l`: the symbols `l` have Fibonacci frequencies.

## Main results

* `Histogram.Fibonacci.maxFreq_le_total_iff`: when the frequencies overflow.
* `HuffmanTree.chain_root`: the tree degenerates to a list.
* `SymbolTable.Codewords.length_code_fibonacci`, `SymbolTable.fibonacci`.
-/

namespace HafeCodec

/-- The symbols of the list have the Fibonacci numbers as frequencies, in the order of the list, and
no other symbol occurs. -/
structure Histogram.Fibonacci (h : Histogram) (l : List UInt8) : Prop where
  nodup : l.Nodup
  frequency_eq : ∀ (i : ℕ) (hi : i < l.length), (h.frequency l[i]).toNat = Nat.fib (i + 1)
  frequency_absent : ∀ s, s ∉ l → h.frequency s = 0

variable {h : Histogram} {l : List UInt8}

namespace Histogram.Fibonacci

/-- The counters of data in which the numbers of occurrences are Fibonacci numbers. -/
theorem of_count {data : List UInt8} (hd : ofData data = .ok h) (hl : l.Nodup)
    (hfib : ∀ (i : ℕ) (hi : i < l.length), data.count l[i] % 2 ^ 32 = Nat.fib (i + 1))
    (habsent : ∀ s, s ∉ l → data.count s % 2 ^ 32 = 0) : Fibonacci h l where
  nodup := hl
  frequency_eq i hi := (frequency_ofData hd l[i]).trans (hfib i hi)
  frequency_absent s hs := UInt32.toNat_inj.mp ((frequency_ofData hd s).trans (habsent s hs))

theorem mem_iff (hf : Fibonacci h l) (s : UInt8) : s ∈ l ↔ h.frequency s ≠ 0 := by
  constructor
  · intro hs h0
    obtain ⟨i, hi, rfl⟩ := List.getElem_of_mem hs
    have hfib := hf.frequency_eq i hi
    rw [h0, UInt32.toNat_zero] at hfib
    exact (Nat.fib_pos.mpr i.succ_pos).ne hfib
  · intro h0
    by_contra hs
    exact h0 (hf.frequency_absent s hs)

theorem map_frequency (hf : Fibonacci h l) :
    l.map (fun s => (h.frequency s).toNat) = (List.range' 1 l.length).map Nat.fib := by
  refine List.ext_getElem (by simp) fun i hi _ => ?_
  rw [List.length_map] at hi
  rw [List.getElem_map, List.getElem_map, List.getElem_range', hf.frequency_eq i hi, Nat.one_mul,
    Nat.add_comm]

/-- The symbols that occur are those of the list. -/
theorem perm_weights (hf : Fibonacci h l) :
    (HuffmanTree.weights h).Perm (l.map fun s => (s, (h.frequency s).toNat)) := by
  rw [HuffmanTree.weights_eq]
  refine List.Perm.map _ ((List.perm_ext_iff_of_nodup (nodup_symbols.filter _) hf.nodup).mpr ?_)
  intro s
  rw [hf.mem_iff, List.mem_filter]
  simp [mem_symbols]

theorem length_weights (hf : Fibonacci h l) : (HuffmanTree.weights h).length = l.length := by
  rw [hf.perm_weights.length_eq, List.length_map]

/-- The sum of the frequencies is almost a Fibonacci number. -/
theorem total_add_one (hf : Fibonacci h l) : HuffmanTree.total h + 1 = Nat.fib (l.length + 2) := by
  rw [HuffmanTree.total, (hf.perm_weights.map Prod.snd).sum_eq, List.map_map, ← sum_fib,
    ← hf.map_frequency]
  rfl

/-- **The sum of the frequencies** reaches the bound at 46 symbols. -/
theorem maxFreq_le_total_iff (hf : Fibonacci h l) :
    HuffmanNode.maxFreq ≤ HuffmanTree.total h ↔ 46 ≤ l.length := by
  have htotal := hf.total_add_one
  have hmax : HuffmanNode.maxFreq = 4294967295 := rfl
  constructor
  · intro hle
    by_contra! hlt
    have hmono := Nat.fib_mono (show l.length + 2 ≤ 47 by omega)
    have hval : Nat.fib 47 = 2971215073 := by norm_num
    omega
  · intro hle
    have hmono := Nat.fib_mono (show 48 ≤ l.length + 2 by omega)
    have hval : Nat.fib 48 = 4807526976 := by norm_num
    omega

theorem entries_ne_nil (hf : Fibonacci h l) (hl : l ≠ []) : h.entries ≠ [] := by
  rw [h.entries_ne_nil_iff]
  obtain ⟨s, hs⟩ := List.exists_mem_of_ne_nil l hl
  exact ⟨s, (hf.mem_iff s).mp hs⟩

end Histogram.Fibonacci

open Histogram HuffmanTree

variable {Q : PriorityQueue} {past : UInt32} {tree : HuffmanTree} {st : SymbolTable}

/-- **The tree degenerates to a list.** -/
theorem HuffmanTree.chain_root {s : UInt8} (hf : Fibonacci h (s :: l))
    (hb : build Q past h = .ok tree) :
    CodeTree.Chain (CodeTree.leaf s 1) (l.map fun s => (s, (h.frequency s).toNat))
      tree.root.toTree := by
  have hgreedy := greedyMerge_root (hf.entries_ne_nil (List.cons_ne_nil s l)) hb
  have hone : (h.frequency s).toNat = 1 := hf.frequency_eq 0 (Nat.succ_pos _)
  have hrest := hf.map_frequency
  rw [List.map_cons, List.length_cons, List.range'_succ, List.map_cons] at hrest
  rw [Multiset.coe_eq_coe.mpr hf.perm_weights, List.map_cons, ← Multiset.cons_coe,
    Multiset.map_cons, hone] at hgreedy
  refine hgreedy.chain ?_
  rw [List.map_map]
  exact (List.cons.inj hrest).2 ▸ dominated_fib Nat.one_pos l.length

namespace SymbolTable

/-- The lengths of the codewords of Fibonacci frequencies. -/
theorem Codewords.length_code_fibonacci (hc : Codewords h tree st) (hf : Fibonacci h l)
    (htwo : 2 ≤ l.length) (hb : build Q past h = .ok tree) {i : ℕ} (hi : i < l.length) :
    (st.code l[i]).length = l.length - max 1 i := by
  cases l with
  | nil => exact absurd hi (Nat.not_lt_zero i)
  | cons s l =>
    have hchain := chain_root hf hb
    have hpaths := paths_root (hf.entries_ne_nil (List.cons_ne_nil s l)) hb
      (htwo.trans_eq hf.length_weights.symm)
    cases i with
    | zero =>
      obtain ⟨c, hcode, hlen⟩ := hchain.exists_codeword (List.mem_singleton_self _)
      rw [← hpaths] at hcode
      rw [List.getElem_cons_zero, hc.code_path _ hcode, hlen, List.length_map, List.length_nil,
        List.length_cons, Nat.zero_add, max_eq_left (Nat.zero_le 1), Nat.add_sub_cancel]
    | succ i =>
      have hi' : i < (l.map fun s => (s, (h.frequency s).toNat)).length :=
        (List.length_map _).symm ▸ Nat.lt_of_succ_lt_succ hi
      obtain ⟨c, hcode, hlen⟩ := hchain.exists_codeword_getElem hi'
      rw [← hpaths, List.getElem_map] at hcode
      rw [List.getElem_cons_succ, hc.code_path _ hcode, hlen, List.length_map, List.length_cons,
        max_eq_right i.succ_pos, Nat.add_sub_add_right]

/-- **The worst case.** Two or more symbols with Fibonacci frequencies have a table exactly up to 45
symbols, whatever way ties are broken. The tree has then one leaf at every depth and two at the
greatest one, so that the lengths of the codewords fall from one less than the number of symbols,
for the two rarest ones, to one. From 46 symbols on an overflow is reported. -/
theorem fibonacci (Q : PriorityQueue) (past : UInt32) (hf : Fibonacci h l) (htwo : 2 ≤ l.length) :
    (l.length ≤ 45 → ∃ tree st, build Q past h = .ok tree ∧ ofTree tree = .ok st ∧
        tree.height = l.length - 1 ∧
        ∀ (i : ℕ) (hi : i < l.length), (st l[i]).bitLength = l.length - max 1 i) ∧
      (46 ≤ l.length → build Q past h = .error (.runtimeError "overflow detected")) := by
  have hl : l ≠ [] := List.ne_nil_of_length_pos (by omega)
  have hne := hf.entries_ne_nil hl
  have hmax := hf.maxFreq_le_total_iff
  constructor
  · intro hle
    obtain ⟨tree, hb⟩ := exists_build Q past hne (by omega)
    obtain ⟨st, hst, hc⟩ := exists_codewords hne hb
    refine ⟨tree, st, hb, hst, ?_, fun i hi => ?_⟩
    · obtain ⟨s, l', rfl⟩ := List.exists_cons_of_ne_nil hl
      rw [height, HuffmanNode.height_eq, (chain_root hf hb).height_eq, List.length_map,
        CodeTree.height, List.length_cons, Nat.zero_add, Nat.add_sub_cancel]
    · rw [← hc.clean.length_code, hc.length_code_fibonacci hf htwo hb hi]
  · intro hle
    have hspec := build_spec Q past hne
    cases hb : build Q past h with
    | error e =>
      rw [hb] at hspec
      rw [hspec.1]
    | ok tree =>
      rw [hb] at hspec
      have hlt := hspec.2.2 (htwo.trans_eq hf.length_weights.symm)
      exact absurd (hmax.mpr hle) (Nat.not_le.mpr hlt)

/-- The histogram of the string `abcc`. -/
def abcc : Histogram :=
  [97, 98, 99, 99].foldl Histogram.increment ⟨fun _ => 0⟩

theorem abcc_frequency : Fibonacci abcc [97, 98, 99] := by
  have hd : ofData [97, 98, 99, 99] = .ok abcc := rfl
  refine .of_count hd (by decide) (by decide) fun s hs => ?_
  rw [List.count_eq_zero_of_not_mem (by simpa using hs), Nat.zero_mod]

theorem fibonacci_abcc :
    ([97, 98, 99].length ≤ 45 → ∃ tree st, build (MinQueue.sortedList _) 0 abcc = .ok tree ∧
        ofTree tree = .ok st ∧ tree.height = [97, 98, 99].length - 1 ∧
        ∀ (i : ℕ) (hi : i < [97, 98, 99].length),
          (st [97, 98, 99][i]).bitLength = [97, 98, 99].length - max 1 i) ∧
      (46 ≤ [97, 98, 99].length →
        build (MinQueue.sortedList _) 0 abcc = .error (.runtimeError "overflow detected")) :=
  fibonacci (MinQueue.sortedList _) 0 abcc_frequency (by decide)

end SymbolTable

end HafeCodec
