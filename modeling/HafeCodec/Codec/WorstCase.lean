import HafeCodec.Codec.Compression
import HafeCodec.Table.WorstCase

/-!
# Inputs that are too long for the encoder

The fast encoder relies on a table whose codewords need at most eight bits for every byte of the
input. This is so as long as the counters are exact, but not when they have wrapped: a symbol that
occurs `2^32 + 1` times is counted once and may get the longest codeword of all. On the inputs whose
counters are Fibonacci numbers the lengths of all codewords are known, so that it is known on which
of them the encoder writes outside of its array (`compress_fibonacci`).

## Main definitions

* `FibonacciCounts str l`: the counters of the symbols `l` are Fibonacci numbers.
* `fibonacciBits str l`: the number of bits that the encoder writes.

## Main results

* `FibonacciCounts.sum_bitLength`, `compress_fibonacci`.
-/

namespace HafeCodec

/-- The counters of the symbols of the list are the Fibonacci numbers, in the order of the list, and
those of all other symbols are zero. -/
structure FibonacciCounts (str l : List UInt8) : Prop where
  nodup : l.Nodup
  count_eq : ∀ (i : ℕ) (hi : i < l.length), str.count l[i] % 2 ^ 32 = Nat.fib (i + 1)
  count_absent : ∀ s, s ∉ l → str.count s % 2 ^ 32 = 0

/-- The bits of the codewords of the symbols of the list, as often as they occur. -/
def fibonacciBits (str l : List UInt8) : ℕ :=
  (l.zipIdx.map fun p => str.count p.1 * (l.length - max 1 p.2)).sum

/-- A sum over all symbols has no other terms than those of a list outside of which it is zero. -/
theorem sum_symbols_eq {l : List UInt8} (hl : l.Nodup) {g : UInt8 → ℕ}
    (hg : ∀ s, s ∉ l → g s = 0) : (symbols.map g).sum = (l.map g).sum := by
  rw [← List.sum_toFinset g nodup_symbols, ← List.sum_toFinset g hl]
  symm
  refine Finset.sum_subset (fun s _ => List.mem_toFinset.mpr (mem_symbols s)) fun s _ hs => ?_
  exact hg s fun hmem => hs (List.mem_toFinset.mpr hmem)

section

variable {Q : PriorityQueue} {past : UInt32} {str l : List UInt8} {st : SymbolTable}

open Encoder

theorem FibonacciCounts.histogram (hf : FibonacciCounts str l) {h : Histogram}
    (hh : Histogram.ofData str = .ok h) : h.Fibonacci l :=
  .of_count hh hf.nodup hf.count_eq hf.count_absent

/-- The lengths of the codewords of the table of the input. -/
theorem FibonacciCounts.bitLength_eq (hf : FibonacciCounts str l) (htwo : 2 ≤ l.length)
    (hst : tableOf Q past str = .ok st) {i : ℕ} (hi : i < l.length) :
    (st l[i]).bitLength = l.length - max 1 i := by
  obtain ⟨h, hh, hst⟩ := ExceptFold.bind_eq_ok_iff.mp hst
  obtain ⟨tree, hb, hst⟩ := ExceptFold.bind_eq_ok_iff.mp hst
  obtain ⟨st', hst', hc⟩ :=
    SymbolTable.exists_codewords (HuffmanTree.entries_ne_nil_of_build hb) hb
  obtain rfl := Except.ok.inj (hst'.symm.trans hst)
  rw [← hc.clean.length_code, hc.length_code_fibonacci (hf.histogram hh) htwo hb hi]

/-- **The number of bits** of the codewords of the input. -/
theorem FibonacciCounts.sum_bitLength (hf : FibonacciCounts str l) (htwo : 2 ≤ l.length)
    (hst : tableOf Q past str = .ok st) (ht : Tabled str st) :
    (str.map fun c => (st c).bitLength).sum = fibonacciBits str l := by
  rw [← sum_count str, sum_symbols_eq hf.nodup fun s hs => ?_, fibonacciBits]
  · refine congrArg List.sum (List.ext_getElem (by simp) fun i hi _ => ?_)
    rw [List.length_map] at hi
    rw [List.getElem_map, List.getElem_map, List.getElem_zipIdx, hf.bitLength_eq htwo hst hi,
      Nat.zero_add]
  · have hcode : st.code s = [] := by
      by_contra hne
      exact (ht.code_ne_nil_iff s).mp hne (Nat.dvd_of_mod_eq_zero (hf.count_absent s hs))
    rw [show (st s).bitLength = (st.code s).length from (ht.readable s).length_bits.symm, hcode,
      List.length_nil, Nat.mul_zero]

/-- **Compression of an input with Fibonacci counters**, for every way of breaking ties. From 46
symbols on an overflow is reported. Up to 45 symbols a file is returned when the codewords need at
most eight bits for every byte, and otherwise a bit is written outside of the array reserved. -/
theorem compress_fibonacci (Q : PriorityQueue) (past : UInt32) (hf : FibonacciCounts str l)
    (htwo : 2 ≤ l.length) (hlen : str.length < 2 ^ 61) :
    (compress Q past str = .error (.runtimeError "overflow detected") ↔ 46 ≤ l.length) ∧
      ((∃ bytes, compress Q past str = .ok bytes) ↔
        l.length ≤ 45 ∧ fibonacciBits str l ≤ 8 * str.length) ∧
      (compress Q past str = .error .undefined ↔
        l.length ≤ 45 ∧ 8 * str.length < fibonacciBits str l) := by
  obtain ⟨h, hh⟩ := Histogram.ofData_eq_ok (show str.length ≠ 2 ^ 64 - 1 by omega)
  have hfib := hf.histogram hh
  have hover : OverflowingCounts str ↔ 46 ≤ l.length := by
    rw [overflowingCounts_iff hh, hfib.length_weights, hfib.maxFreq_le_total_iff]
    omega
  obtain ⟨hzero, -, -⟩ | ⟨ho, -, hcomp⟩ | ⟨ho, st, hst, ht, hcases⟩ :=
    compress_cases Q past str hlen
  · have hmem := (hfib.mem_iff l[0]).mp (List.getElem_mem _)
    exact absurd ((Histogram.frequency_ne_zero_iff hh _).mp hmem) (hzero _)
  · have hgt : ¬ l.length ≤ 45 := Nat.not_le.mpr (hover.mp ho)
    simp [hcomp, hover.mp ho, hgt]
  · rw [hf.sum_bitLength htwo hst ht] at hcases
    have hnot : ¬ 46 ≤ l.length := mt hover.mpr ho
    have hle : l.length ≤ 45 := Nat.le_of_not_lt hnot
    obtain ⟨hlong, hcomp⟩ | ⟨hfits, bytes, hcomp⟩ := hcases
    · simp [hcomp, hnot, hle, hlong]
    · simp [hcomp, hnot, hle, hfits]

/-! ### An input that the encoder cannot take -/

/-- The letters from `a` to `j`. -/
def letters : List UInt8 :=
  [97, 98, 99, 100, 101, 102, 103, 104, 105, 106]

/-- The letters from `b` to `j`, the number of each being a Fibonacci number. -/
def fibonacciLetters : List UInt8 :=
  letters.tail.zipIdx.flatMap fun p => List.replicate (Nat.fib (p.2 + 2)) p.1

/-- The letter `a`, `2^32 + 1` times, and the other letters behind it. -/
def overrunData : List UInt8 :=
  List.replicate (2 ^ 32 + 1) 97 ++ fibonacciLetters

theorem count_overrunData (s : UInt8) :
    overrunData.count s = (if s = 97 then 2 ^ 32 + 1 else 0) + fibonacciLetters.count s := by
  rw [overrunData, List.count_append, List.count_replicate]
  simp only [beq_iff_eq, eq_comm (a := s)]

theorem length_overrunData : overrunData.length = 2 ^ 32 + 1 + fibonacciLetters.length := by
  rw [overrunData, List.length_append, List.length_replicate]

theorem fibonacciCounts_overrunData : FibonacciCounts overrunData letters where
  nodup := by decide
  count_eq := by
    simp only [count_overrunData]
    decide +kernel
  count_absent s hs := by
    have hsub : ∀ s ∈ fibonacciLetters, s ∈ letters := by decide +kernel
    have hne : s ≠ 97 := fun heq => hs (heq ▸ List.mem_cons_self)
    rw [count_overrunData, if_neg hne, List.count_eq_zero_of_not_mem fun hmem => hs (hsub s hmem),
      Nat.zero_add, Nat.zero_mod]

theorem lt_fibonacciBits_overrunData :
    8 * overrunData.length < fibonacciBits overrunData letters := by
  rw [fibonacciBits, length_overrunData]
  simp only [count_overrunData]
  decide +kernel

/-- **An input that the encoder cannot take**: it writes outside of its array, for every way of
breaking ties. -/
theorem compress_fibonacci_overrunData :
    (compress (MinQueue.sortedList _) 0 overrunData =
        .error (.runtimeError "overflow detected") ↔ 46 ≤ letters.length) ∧
      ((∃ bytes, compress (MinQueue.sortedList _) 0 overrunData = .ok bytes) ↔
        letters.length ≤ 45 ∧ fibonacciBits overrunData letters ≤ 8 * overrunData.length) ∧
      compress (MinQueue.sortedList _) 0 overrunData = .error .undefined := by
  have hlen : overrunData.length < 2 ^ 61 := by
    rw [length_overrunData]
    decide +kernel
  obtain ⟨hover, hok, hun⟩ := compress_fibonacci (MinQueue.sortedList _) 0
    fibonacciCounts_overrunData (by decide) hlen
  exact ⟨hover, hok, hun.mpr ⟨by decide, lt_fibonacciBits_overrunData⟩⟩

end

end HafeCodec
