import Mathlib.Algebra.Order.Ring.Rat
import Mathlib.Algebra.BigOperators.Group.Multiset.Basic
import Mathlib.Algebra.Order.BigOperators.Group.Multiset
import Mathlib.Data.Finset.Max
import Mathlib.Tactic.FieldSimp
import Mathlib.Tactic.Linarith
import Mathlib.Tactic.Positivity
import Mathlib.Tactic.Ring

/-!
# Weighted lengths under the Kraft inequality

A multiset of pairs `(w, l)` assigns a codeword of length `l` to a symbol of weight `w`. Among the
assignments whose lengths satisfy the Kraft inequality `∑ 2^{-l} ≤ 1` there is always one, of no
larger total `∑ w · l`, in which two symbols of least weight are siblings: both have the greatest
length (`LengthAssignment.exists_siblings`). This is the exchange argument behind the greedy
construction of optimal prefix codes, stated for lengths only: no tree occurs in it.

## Main definitions

* `LengthAssignment.kraft`: the Kraft sum of a multiset of lengths.
* `LengthAssignment.total`: the total weighted length of an assignment.

## Main results

* `LengthAssignment.kraft_shorten`: a single longest codeword can be shortened to the second
  greatest length.
* `LengthAssignment.exists_siblings`: two least weights can be given one common greatest length.
-/

namespace LengthAssignment

/-- The Kraft sum `∑ 2^{-l}` of a multiset of lengths. -/
def kraft (L : Multiset ℕ) : ℚ :=
  (L.map fun l => (1 / 2 : ℚ) ^ l).sum

/-- The total weighted length `∑ w · l`. -/
def total (P : Multiset (ℕ × ℕ)) : ℕ :=
  (P.map fun p => p.1 * p.2).sum

@[simp] theorem kraft_zero : kraft 0 = 0 :=
  rfl

@[simp] theorem kraft_cons (l : ℕ) (L : Multiset ℕ) :
    kraft (l ::ₘ L) = (1 / 2 : ℚ) ^ l + kraft L := by
  simp [kraft]

@[simp] theorem total_cons (p : ℕ × ℕ) (P : Multiset (ℕ × ℕ)) :
    total (p ::ₘ P) = p.1 * p.2 + total P := by
  simp [total]

/-- Two siblings of length `m + 1` weigh as much in the Kraft sum as their parent of length
`m`. -/
theorem kraft_siblings (m : ℕ) (L : Multiset ℕ) :
    kraft ((m + 1) ::ₘ (m + 1) ::ₘ L) = kraft (m ::ₘ L) := by
  simp only [kraft_cons, pow_succ]
  ring

/-- Over lengths at most `b` the Kraft sum is an integral multiple of `2^{-b}`. -/
theorem kraft_eq_div {b : ℕ} {L : Multiset ℕ} (hL : ∀ l ∈ L, l ≤ b) :
    kraft L = ((L.map fun l => 2 ^ (b - l)).sum : ℕ) / 2 ^ b := by
  induction L using Multiset.induction_on with
  | empty => simp
  | cons l L ih =>
    have hl : l ≤ b := hL l (Multiset.mem_cons_self l L)
    have hpow : (2 : ℚ) ^ b = 2 ^ (b - l) * 2 ^ l := by
      rw [← pow_add, Nat.sub_add_cancel hl]
    rw [kraft_cons, ih fun k hk => hL k (Multiset.mem_cons_of_mem hk), Multiset.map_cons,
      Multiset.sum_cons, Nat.cast_add, add_div, Nat.cast_pow, Nat.cast_ofNat]
    congr 1
    rw [hpow, one_div, inv_pow]
    field_simp

/-- **A single longest codeword can be shortened.** If all other lengths are at most `b`, and
`b` occurs among them, the length `a ≥ b` may be replaced by `b`. -/
theorem kraft_shorten {a b : ℕ} {L : Multiset ℕ} (hL : ∀ l ∈ L, l ≤ b)
    (hk : kraft (a ::ₘ b ::ₘ L) ≤ 1) : 0 < b ∧ kraft (b ::ₘ b ::ₘ L) ≤ 1 := by
  have hbL : ∀ l ∈ b ::ₘ L, l ≤ b := by simpa using hL
  have hbbL : ∀ l ∈ b ::ₘ b ::ₘ L, l ≤ b := by simpa using hL
  set n := ((b ::ₘ L).map fun l => 2 ^ (b - l)).sum with hn
  have hpos : (0 : ℚ) < 2 ^ b := by positivity
  have hn1 : 1 ≤ n := by simp [hn]
  -- The longest codeword leaves a gap, and the gap is a multiple of `2^{-b}`.
  have hlt : n < 2 ^ b := by
    rw [kraft_cons, kraft_eq_div hbL] at hk
    have ha : (0 : ℚ) < (1 / 2) ^ a := by positivity
    have hdiv : (n : ℚ) / 2 ^ b < 1 := by linarith
    rw [div_lt_one hpos] at hdiv
    exact_mod_cast hdiv
  refine ⟨Nat.pos_of_ne_zero ?_, ?_⟩
  · rintro rfl
    omega
  · have hsum : ((b ::ₘ b ::ₘ L).map fun l => 2 ^ (b - l)).sum = n + 1 := by
      rw [Multiset.map_cons, Multiset.sum_cons, ← hn, Nat.sub_self, pow_zero, Nat.add_comm]
    rw [kraft_eq_div hbbL, hsum, div_le_one hpos]
    exact_mod_cast hlt

/-- A symbol of least weight can be given the greatest length, the lengths being permuted. -/
theorem exists_longest {x a : ℕ} {R : Multiset (ℕ × ℕ)} (hx : ∀ p ∈ R, x ≤ p.1) :
    ∃ a' R', (∀ p ∈ R', p.2 ≤ a') ∧ R'.map Prod.fst = R.map Prod.fst ∧
      a' ::ₘ R'.map Prod.snd = a ::ₘ R.map Prod.snd ∧
      total ((x, a') ::ₘ R') ≤ total ((x, a) ::ₘ R) := by
  by_cases hmax : ∀ p ∈ R, p.2 ≤ a
  · exact ⟨a, R, hmax, rfl, rfl, le_rfl⟩
  push Not at hmax
  obtain ⟨q, hqR, hq⟩ := hmax
  have hne : R ≠ 0 := by
    rintro rfl
    simp at hqR
  obtain ⟨p, hpR, hp⟩ := Multiset.exists_max_image Prod.snd hne
  obtain ⟨R₀, rfl⟩ := Multiset.exists_cons_of_mem hpR
  have hap : a ≤ p.2 := hq.le.trans (hp q hqR)
  refine ⟨p.2, (p.1, a) ::ₘ R₀, ?_, by simp, ?_, ?_⟩
  · intro r hr
    rcases Multiset.mem_cons.mp hr with rfl | hr
    · exact hap
    · exact hp r (Multiset.mem_cons_of_mem hr)
  · simp only [Multiset.map_cons]
    exact Multiset.cons_swap _ _ _
  · have hswap : x * p.2 + p.1 * a ≤ x * a + p.1 * p.2 :=
      mul_add_mul_le_mul_add_mul (hx p (Multiset.mem_cons_self p R₀)) hap
    simp only [total_cons]
    omega

/-- The pair of a given weight can be split off. -/
theorem exists_cons_of_map_fst {P : Multiset (ℕ × ℕ)} {x : ℕ} {W : Multiset ℕ}
    (hP : P.map Prod.fst = x ::ₘ W) : ∃ a R, P = (x, a) ::ₘ R ∧ R.map Prod.fst = W := by
  obtain ⟨p, hp, rfl, hR⟩ := (Multiset.map_eq_cons Prod.fst P W x).mpr hP
  exact ⟨p.2, P.erase p, (Multiset.cons_erase hp).symm, hR⟩

/-- **Two least weights can be made siblings.** Every assignment satisfying the Kraft inequality
can be changed, without increasing the total, into one in which two symbols of least weight have
one common positive length. -/
theorem exists_siblings {x y : ℕ} {W : Multiset ℕ} {P : Multiset (ℕ × ℕ)}
    (hP : P.map Prod.fst = x ::ₘ y ::ₘ W) (hx : ∀ w ∈ y ::ₘ W, x ≤ w) (hy : ∀ w ∈ W, y ≤ w)
    (hk : kraft (P.map Prod.snd) ≤ 1) :
    ∃ m R, R.map Prod.fst = W ∧ kraft ((m + 1) ::ₘ (m + 1) ::ₘ R.map Prod.snd) ≤ 1 ∧
      total ((x, m + 1) ::ₘ (y, m + 1) ::ₘ R) ≤ total P := by
  obtain ⟨a₀, R₀, rfl, hR₀⟩ := exists_cons_of_map_fst hP
  have hxR : ∀ p ∈ R₀, x ≤ p.1 := fun p hp => hx p.1 (hR₀ ▸ Multiset.mem_map_of_mem _ hp)
  -- First `x` is given the greatest length, then `y` the greatest of the others.
  obtain ⟨a, R₁, ha, hR₁, hsnd₁, htot₁⟩ := exists_longest (a := a₀) hxR
  obtain ⟨b₀, R₂, rfl, hR₂⟩ := exists_cons_of_map_fst (hR₁.trans hR₀)
  have hyR : ∀ p ∈ R₂, y ≤ p.1 := fun p hp => hy p.1 (hR₂ ▸ Multiset.mem_map_of_mem _ hp)
  obtain ⟨b, R, hb, hR, hsnd, htot⟩ := exists_longest (a := b₀) hyR
  have hba : b ≤ a := by
    have hmem : b ∈ b₀ ::ₘ R₂.map Prod.snd := hsnd ▸ Multiset.mem_cons_self _ _
    rw [← Multiset.map_cons Prod.snd (y, b₀)] at hmem
    obtain ⟨p, hp, rfl⟩ := Multiset.mem_map.mp hmem
    exact ha p hp
  have hkab : kraft (a ::ₘ b ::ₘ R.map Prod.snd) ≤ 1 := by
    rw [hsnd]
    rw [Multiset.map_cons, ← hsnd₁, Multiset.map_cons] at hk
    exact hk
  obtain ⟨hpos, hkbb⟩ := kraft_shorten (fun l hl => by
    obtain ⟨p, hp, rfl⟩ := Multiset.mem_map.mp hl
    exact hb p hp) hkab
  obtain ⟨m, rfl⟩ : ∃ m, b = m + 1 := ⟨b - 1, by omega⟩
  refine ⟨m, R, hR.trans hR₂, hkbb, ?_⟩
  have hxle : x * (m + 1) ≤ x * a := Nat.mul_le_mul_left x hba
  simp only [total_cons] at htot htot₁ ⊢
  omega

end LengthAssignment
