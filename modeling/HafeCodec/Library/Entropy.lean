import HafeCodec.Library.GreedyMerge
import Mathlib.Analysis.SpecialFunctions.Log.Base

/-!
# Entropy and the lengths of codewords

A symbol of weight `w` among symbols of the total weight `n` carries `logb 2 (n / w)` bits of
information. The sum of `w * logb 2 (n / w)` over all symbols, which is `n` times the entropy of the
relative weights, is compared with the total weighted length of codewords. No lengths that satisfy
the Kraft inequality have a smaller total (`Entropy.information_le`), and there are such lengths
whose total is greater by less than `n` (`Entropy.kraft_shannon_le`, `Entropy.total_shannon_lt`).
Since the greedy cost is minimal, it lies between these bounds.

## Main definitions

* `Entropy.information n W`: the information carried by symbols of the weights `W`.
* `Entropy.shannon n W`: the information of every symbol, rounded up to a length.

## Main results

* `Entropy.information_le`, `Entropy.information_le_of_isPrefixFree`.
* `Entropy.kraft_shannon_le`, `Entropy.total_shannon_lt`.
* `GreedyMerge.cost_lt_information_add`.
-/

open LengthAssignment

namespace Entropy

/-- The sum of `w * logb 2 (n / w)` over the weights. -/
noncomputable def information (n : ℕ) (W : Multiset ℕ) : ℝ :=
  (W.map fun w : ℕ => (w : ℝ) * Real.logb 2 (n / w)).sum

@[simp] theorem information_zero (n : ℕ) : information n 0 = 0 :=
  rfl

@[simp] theorem information_cons (n w : ℕ) (W : Multiset ℕ) :
    information n (w ::ₘ W) = w * Real.logb 2 (n / w) + information n W := by
  simp [information]

variable {n : ℕ} {W : Multiset ℕ}

/-! ### The lower bound -/

/-- One symbol: the difference between its information and the length of its codeword. -/
theorem mul_logb_le {w l : ℕ} (hn : 0 < n) (hw : 0 < w) :
    (w : ℝ) * Real.logb 2 (n / w) ≤ w * l + (n * (1 / 2) ^ l - w) / Real.log 2 := by
  have hlog : 0 < Real.log 2 := Real.log_pos one_lt_two
  have hn' : (0 : ℝ) < n := Nat.cast_pos.mpr hn
  have hw' : (0 : ℝ) < w := Nat.cast_pos.mpr hw
  have hpow : (0 : ℝ) < (1 / 2) ^ l := by positivity
  -- The logarithm lies below its tangent at the weight that would suit the length.
  have htangent := Real.log_le_sub_one_of_pos (show (0 : ℝ) < n * (1 / 2) ^ l / w by positivity)
  have hsplit : Real.log (n * (1 / 2) ^ l / w) = Real.log (n / w) - l * Real.log 2 := by
    rw [mul_div_right_comm, Real.log_mul (by positivity) hpow.ne', Real.log_pow, one_div,
      Real.log_inv]
    ring
  have hmul : (w : ℝ) * (n * (1 / 2) ^ l / w - 1) = n * (1 / 2) ^ l - w := by
    field_simp
  have hle := mul_le_mul_of_nonneg_left htangent hw'.le
  rw [hsplit, hmul] at hle
  rw [← sub_le_iff_le_add', le_div_iff₀ hlog, Real.logb, sub_mul, mul_assoc,
    div_mul_cancel₀ _ hlog.ne']
  linarith

/-- All symbols: the difference between their information and the total length. -/
theorem information_le_add {P : Multiset (ℕ × ℕ)} (hn : 0 < n) (hP : ∀ p ∈ P, 0 < p.1) :
    information n (P.map Prod.fst) ≤ total P +
      (n * (kraft (P.map Prod.snd) : ℚ) - (P.map Prod.fst).sum) / Real.log 2 := by
  induction P using Multiset.induction_on with
  | empty => simp [total]
  | cons p P ih =>
    have hone := mul_logb_le (l := p.2) hn (hP p (Multiset.mem_cons_self p P))
    have hrest := ih fun q hq => hP q (Multiset.mem_cons_of_mem hq)
    rw [Multiset.map_cons, Multiset.map_cons, information_cons, total_cons, kraft_cons,
      Multiset.sum_cons]
    push_cast at hone hrest ⊢
    rw [mul_add, add_sub_add_comm, add_div]
    linarith

/-- **No code is shorter than the information**, whatever lengths satisfy the Kraft inequality. -/
theorem information_le {P : Multiset (ℕ × ℕ)} (hP : ∀ p ∈ P, 0 < p.1)
    (hk : kraft (P.map Prod.snd) ≤ 1) :
    information (P.map Prod.fst).sum (P.map Prod.fst) ≤ total P := by
  rcases Nat.eq_zero_or_pos (P.map Prod.fst).sum with h0 | hn
  · have hempty : P = 0 := by
      refine Multiset.eq_zero_of_forall_notMem fun p hp => (hP p hp).ne' ?_
      exact Multiset.sum_eq_zero_iff.mp h0 p.1 (Multiset.mem_map_of_mem _ hp)
    subst hempty
    simp [total]
  · have hle := information_le_add hn hP
    have hlog : 0 < Real.log 2 := Real.log_pos one_lt_two
    have hk' : ((kraft (P.map Prod.snd) : ℚ) : ℝ) ≤ 1 := by exact_mod_cast hk
    have hcast : (0 : ℝ) ≤ ((P.map Prod.fst).sum : ℕ) := Nat.cast_nonneg _
    have hneg : (((P.map Prod.fst).sum : ℕ) * (kraft (P.map Prod.snd) : ℚ) -
        ((P.map Prod.fst).sum : ℕ)) / Real.log 2 ≤ (0 : ℝ) :=
      div_nonpos_of_nonpos_of_nonneg (sub_nonpos.mpr (mul_le_of_le_one_right hcast hk')) hlog.le
    linarith

/-- **No prefix-free code is shorter than the information.** -/
theorem information_le_of_isPrefixFree {α : Type*} {L : List (α × ℕ)}
    (hL : (L.map Prod.fst).Nodup) (hpos : ∀ p ∈ L, 0 < p.2) {d : α → List Bool}
    (hd : PrefixCode.IsPrefixFree d {a | a ∈ L.map Prod.fst})
    (hne : ∀ a ∈ L.map Prod.fst, d a ≠ []) :
    information (L.map Prod.snd).sum (L.map Prod.snd) ≤
      ((L.map fun p => p.2 * (d p.1).length).sum : ℕ) := by
  have hk := PrefixCode.kraft_le_one hL hd hne
  rw [List.map_map] at hk
  have hle := information_le (P := (L : Multiset (α × ℕ)).map fun p => (p.2, (d p.1).length))
    (fun p hp => by
      obtain ⟨q, hq, rfl⟩ := Multiset.mem_map.mp hp
      exact hpos q (Multiset.mem_coe.mp hq))
    (by
      rw [Multiset.map_map]
      exact hk)
  rw [total, Multiset.map_map, Multiset.map_map] at hle
  exact hle

/-! ### The upper bound -/

/-- The information of a symbol, rounded up. -/
noncomputable def shannonLength (n w : ℕ) : ℕ :=
  ⌈Real.logb 2 (n / w)⌉₊

/-- The weights with the information of every symbol, rounded up to a length. -/
noncomputable def shannon (n : ℕ) (W : Multiset ℕ) : Multiset (ℕ × ℕ) :=
  W.map fun w => (w, shannonLength n w)

@[simp] theorem map_fst_shannon (n : ℕ) (W : Multiset ℕ) : (shannon n W).map Prod.fst = W := by
  simp [shannon]

/-- A codeword as long as the information rounded up takes no more than the share of its symbol. -/
theorem pow_shannonLength_le {w : ℕ} (hn : 0 < n) (hw : 0 < w) :
    ((1 / 2 : ℝ)) ^ shannonLength n w ≤ w / n := by
  have hpos : (0 : ℝ) < n / w := div_pos (Nat.cast_pos.mpr hn) (Nat.cast_pos.mpr hw)
  have hle : (n : ℝ) / w ≤ 2 ^ shannonLength n w := by
    rw [← Real.rpow_natCast, ← Real.logb_le_iff_le_rpow one_lt_two hpos]
    exact Nat.le_ceil _
  rw [one_div, inv_pow, ← inv_div]
  exact inv_anti₀ hpos hle

/-- **The rounded lengths satisfy the Kraft inequality.** -/
theorem kraft_shannon_le (hn : 0 < n) (hW : ∀ w ∈ W, 0 < w) :
    ((kraft ((shannon n W).map Prod.snd) : ℚ) : ℝ) ≤ (W.sum : ℕ) / n := by
  induction W using Multiset.induction_on with
  | empty => simp [shannon]
  | cons w W ih =>
    have hone := pow_shannonLength_le hn (hW w (Multiset.mem_cons_self w W))
    have hrest := ih fun v hv => hW v (Multiset.mem_cons_of_mem hv)
    rw [shannon, Multiset.map_cons, Multiset.map_cons, kraft_cons, Multiset.sum_cons]
    push_cast at hone hrest ⊢
    rw [add_div]
    exact add_le_add hone hrest

/-- The rounded length of a symbol is less than its information and one. -/
theorem mul_shannonLength_lt {w : ℕ} (hw : 0 < w) (hle : w ≤ n) :
    (w : ℝ) * shannonLength n w < w * Real.logb 2 (n / w) + w := by
  have hw' : (0 : ℝ) < w := Nat.cast_pos.mpr hw
  have hone : (1 : ℝ) ≤ n / w := by
    rw [le_div_iff₀ hw', one_mul]
    exact_mod_cast hle
  have hceil := Nat.ceil_lt_add_one (Real.logb_nonneg one_lt_two hone)
  calc (w : ℝ) * shannonLength n w < w * (Real.logb 2 (n / w) + 1) :=
        mul_lt_mul_of_pos_left hceil hw'
    _ = w * Real.logb 2 (n / w) + w := by ring

/-- **The rounded lengths** have a total that is greater than the information by less than the sum
of the weights. -/
theorem total_shannon_lt (hne : W ≠ 0) (hW : ∀ w ∈ W, 0 < w ∧ w ≤ n) :
    (total (shannon n W) : ℝ) < information n W + (W.sum : ℕ) := by
  have hlt : (W.map fun w : ℕ => (w : ℝ) * shannonLength n w).sum <
      (W.map fun w : ℕ => w * Real.logb 2 (n / w) + w).sum :=
    Multiset.sum_lt_sum_of_nonempty hne fun w hw => mul_shannonLength_lt (hW w hw).1 (hW w hw).2
  rw [Multiset.sum_map_add, ← information] at hlt
  have hleft : (total (shannon n W) : ℝ) =
      (W.map fun w : ℕ => (w : ℝ) * shannonLength n w).sum := by
    rw [total, shannon, Multiset.map_map, Nat.cast_multiset_sum, Multiset.map_map]
    simp
  have hright : ((W.sum : ℕ) : ℝ) = (W.map fun w : ℕ => (w : ℝ)).sum := Nat.cast_multiset_sum W
  rwa [hleft, hright]

end Entropy

namespace GreedyMerge

open Entropy

variable {α : Type*} {t : CodeTree α}

/-- **The greedy cost is less than the information and the sum of the weights.** -/
theorem cost_lt_information_add {L : Multiset (α × ℕ)} (hL : ∀ p ∈ L, 0 < p.2) (hne : L ≠ 0)
    (h : GreedyMerge (L.map fun p => CodeTree.leaf p.1 p.2) t) :
    (t.cost : ℝ) < information (L.map Prod.snd).sum (L.map Prod.snd) + (L.map Prod.snd).sum := by
  set W := L.map Prod.snd with hWdef
  have hW : ∀ w ∈ W, 0 < w ∧ w ≤ W.sum := by
    intro w hw
    refine ⟨?_, Multiset.single_le_sum (fun _ _ => Nat.zero_le _) w hw⟩
    obtain ⟨p, hp, rfl⟩ := Multiset.mem_map.mp hw
    exact hL p hp
  have hWne : W ≠ 0 := fun h0 => hne (Multiset.map_eq_zero.mp h0)
  obtain ⟨w, hw⟩ := Multiset.exists_mem_of_ne_zero hWne
  have hpos : 0 < W.sum := (hW w hw).1.trans_le (hW w hw).2
  have hk : kraft ((shannon W.sum W).map Prod.snd) ≤ 1 := by
    have hle := kraft_shannon_le hpos fun w hw => (hW w hw).1
    rw [div_self (Nat.cast_ne_zero.mpr hpos.ne')] at hle
    exact_mod_cast hle
  have hcost := h.cost_le (P := shannon W.sum W)
    (by simp [hWdef, Function.comp_def, CodeTree.weight]) hk
  have hzero : ((L.map fun p => CodeTree.leaf p.1 p.2).map CodeTree.cost).sum = 0 := by
    simp [Function.comp_def, CodeTree.cost]
  rw [hzero, zero_add] at hcost
  exact (Nat.cast_le.mpr hcost).trans_lt (total_shannon_lt hWne hW)

end GreedyMerge
