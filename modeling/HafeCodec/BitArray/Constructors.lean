import HafeCodec.BitArray.Bits
import Mathlib.Algebra.Order.Floor.Div

/-!
# The constructors at every length

The number of bytes for `n` bits is computed as `(n + 7) >> 3` in 64-bit arithmetic. The sum wraps
for the seven largest lengths, for which no byte is required then. The pointer constructor tests
the number of bytes against zero; the length constructor tests the length instead, and the vector
constructor tests the size of its vector only.

## Main definitions

* `ceilDiv`: the division of the source that rounds up.
* `BitArray.Sound`: the array has a byte, a capacity that did not wrap, and room for the length.
* `BitArray.SoundOrThrows`: what a constructor is to do.

## Main results

* `BitArray.bytesRequired_eq_ceil_iff`, `BitArray.bytesRequired_eq_ceilDiv_iff`: the lengths at
  which the number of bytes is right, and at which it is that of `ceilDiv`.
* `BitArray.constructors_sound_iff`: the lengths and vectors for which each constructor is sound.
-/

namespace HafeCodec

/-- `ceil_div(uint64_t num, uint8_t div)`, that is `(num - 1) / div + 1` in 64-bit arithmetic. -/
def ceilDiv (num div : ℕ) : ℕ :=
  u64 (u64Pred num / div + 1)

namespace BitArray

/-! ### The number of bytes -/

variable {n : ℕ}

/-- The number of bytes is the quotient rounded up as long as the sum does not wrap. -/
theorem bytesRequired_eq_ceil_iff (hn : n < 2 ^ 64) :
    bytesRequired n = n ⌈/⌉ 8 ↔ n + 7 < 2 ^ 64 := by
  rw [Nat.ceilDiv_eq_add_pred_div, Nat.add_sub_assoc (by decide)]
  constructor
  · intro heq
    by_contra hwrap
    rw [bytesRequired_eq_zero hn (by omega)] at heq
    omega
  · exact bytesRequired_eq

/-- The two divisions of the source agree except at zero, where `ceilDiv` wraps, and at the seven
largest lengths. -/
theorem bytesRequired_eq_ceilDiv_iff (hn : n < 2 ^ 64) :
    bytesRequired n = ceilDiv n 8 ↔ 0 < n ∧ n + 7 < 2 ^ 64 := by
  have hdiv : ceilDiv n 8 = if n = 0 then 2 ^ 61 else (n - 1) / 8 + 1 := by
    rw [ceilDiv, u64Pred]
    split_ifs with h0
    · rfl
    · exact u64_of_lt (by omega)
  rw [hdiv]
  rcases lt_or_ge (n + 7) (2 ^ 64) with hlt | hwrap
  · rw [bytesRequired_eq hlt]
    split_ifs with h0 <;> omega
  · rw [bytesRequired_eq_zero hn hwrap, if_neg (by omega)]
    omega

/-! ### The constructors -/

/-- A sound array for `n` bits: at least one byte, a capacity of eight bits for each byte that did
not wrap, room for `n` bits, and the right number of bytes for them. -/
structure Sound (n : ℕ) (a : BitArray) : Prop where
  size_pos : 1 ≤ a.vct.length
  capacity_eq : a.bitCapacity = 8 * a.vct.length
  capacity_lt : 8 * a.vct.length < 2 ^ 64
  le_capacity : n ≤ a.bitCapacity
  required_eq : bytesRequired n = n ⌈/⌉ 8

/-- A constructor throws, or makes a sound array for `n` bits. -/
def SoundOrThrows (n : ℕ) (r : Outcome BitArray) : Prop :=
  (∃ what, r = .error (.runtimeError what)) ∨ ∃ a, r = .ok a ∧ Sound n a

/-- An array with the bytes that the length needs and the capacity of these is sound. -/
theorem sound_of_le {a : BitArray} (hpos : 0 < a.vct.length) (hn : n + 7 < 2 ^ 64)
    (hcap : a.bitCapacity = 8 * a.vct.length) (hle : bytesRequired n ≤ a.vct.length)
    (hlt : a.vct.length < 2 ^ 61) : Sound n a where
  size_pos := hpos
  capacity_eq := hcap
  capacity_lt := by omega
  le_capacity := by
    rw [bytesRequired_eq hn] at hle
    omega
  required_eq := (bytesRequired_eq_ceil_iff (by omega)).mpr hn

theorem SoundOrThrows.of_ok {a : BitArray} {r : Outcome BitArray} (h : SoundOrThrows n r)
    (hr : r = .ok a) : Sound n a := by
  subst hr
  obtain ⟨what, hthrow⟩ | ⟨a', hok, hsound⟩ := h
  · cases hthrow
  · rwa [Except.ok.inj hok]

/-- The length constructor is sound as long as the sum does not wrap. -/
theorem soundOrThrows_ofLength_iff (hn : n < 2 ^ 64) :
    SoundOrThrows n (ofLength n) ↔ n + 7 < 2 ^ 64 := by
  constructor
  · intro h
    by_contra hwrap
    have hsound := h.of_ok (if_neg (by omega))
    exact hwrap ((bytesRequired_eq_ceil_iff hn).mp hsound.required_eq)
  · intro hlt
    rcases Nat.eq_zero_or_pos n with rfl | h0
    · exact Or.inl ⟨_, if_pos rfl⟩
    · obtain ⟨a, ha, hholds, hsize⟩ := Holds.ofLength h0 hlt
      have hcap : a.bitCapacity = 8 * a.vct.length :=
        hholds.capacity_eq.trans (u64_of_lt (by omega))
      have hreq : bytesRequired n = a.vct.length := (bytesRequired_eq hlt).trans hsize.symm
      exact Or.inr ⟨a, ha, sound_of_le (by omega) hlt hcap hreq.le (by omega)⟩

/-- The pointer constructor is sound at every length, as it tests the number of bytes. -/
theorem soundOrThrows_ofPointer (hn : n < 2 ^ 64) {v : List BitArray8} {byteLength : ℕ}
    (hv : byteLength ≤ v.length) : SoundOrThrows n (ofPointer v byteLength n) := by
  by_cases hfits : byteLength < bytesRequired n
  · exact Or.inl ⟨_, if_pos hfits⟩
  by_cases hzero : bytesRequired n = 0
  · exact Or.inl ⟨_, by rw [ofPointer, if_neg hfits, if_pos hzero]⟩
  obtain ⟨h0, hlt⟩ := (bytesRequired_ne_zero_iff hn).mp hzero
  have hreq := bytesRequired_eq hlt
  have hle := le_of_not_gt hfits
  have hlen : (v.take (bytesRequired n)).length = bytesRequired n :=
    List.length_take_of_le (hle.trans hv)
  have hpos : 0 < (v.take (bytesRequired n)).length := by omega
  have hsize : (v.take (bytesRequired n)).length < 2 ^ 61 := by omega
  exact Or.inr ⟨_, ofPointer_eq_ok h0 hlt hle hv, sound_of_le hpos hlt rfl hlen.ge hsize⟩

/-- The vector constructor is sound as long as neither the sum nor the capacity wraps. -/
theorem soundOrThrows_ofVector_iff (hn : n < 2 ^ 64) {v : List BitArray8} :
    SoundOrThrows n (ofVector v n) ↔ v = [] ∨ n + 7 < 2 ^ 64 ∧ v.length < 2 ^ 61 := by
  by_cases hnil : v = []
  · subst hnil
    exact iff_of_true (Or.inl ⟨_, if_pos rfl⟩) (Or.inl rfl)
  have hpos : 0 < v.length := List.length_pos_iff.mpr hnil
  rw [or_iff_right hnil]
  by_cases hfits : v.length < bytesRequired n
  · have hthrow : ofVector v n = .error (.runtimeError "internal error") := by
      rw [ofVector, if_neg hpos.ne', if_pos hfits]
    have hlt := ((bytesRequired_ne_zero_iff hn).mp (Nat.ne_zero_of_lt hfits)).2
    rw [bytesRequired_eq hlt] at hfits
    exact iff_of_true (Or.inl ⟨_, hthrow⟩) ⟨hlt, by omega⟩
  · have hok : ofVector v n = .ok ⟨v, n, u64 (v.length <<< 3)⟩ := by
      rw [ofVector, if_neg hpos.ne', if_neg hfits]
    constructor
    · intro h
      have hsound := h.of_ok hok
      have hcap : 8 * v.length < 2 ^ 64 := hsound.capacity_lt
      exact ⟨(bytesRequired_eq_ceil_iff hn).mp hsound.required_eq, by omega⟩
    · rintro ⟨hlt, hsize⟩
      have hcap : u64 (v.length <<< 3) = 8 * v.length := by
        rw [Nat.shiftLeft_eq, Nat.mul_comm, u64_of_lt (by omega)]
      exact Or.inr ⟨_, hok, sound_of_le hpos hlt hcap (le_of_not_gt hfits) hsize⟩

/-- **Soundness of the constructors.** The length constructor is sound except at the seven largest
lengths, the pointer constructor at every length, and the vector constructor as long as the length
is not one of these and the vector has less than `2^61` bytes. -/
theorem constructors_sound_iff (hn : n < 2 ^ 64) (v : List BitArray8) :
    (SoundOrThrows n (ofLength n) ↔ n + 7 < 2 ^ 64) ∧
      (∀ byteLength ≤ v.length, SoundOrThrows n (ofPointer v byteLength n)) ∧
      (SoundOrThrows n (ofVector v n) ↔ v = [] ∨ n + 7 < 2 ^ 64 ∧ v.length < 2 ^ 61) :=
  ⟨soundOrThrows_ofLength_iff hn, fun _ hv => soundOrThrows_ofPointer hn hv,
    soundOrThrows_ofVector_iff hn⟩

theorem constructors_sound_nine :
    SoundOrThrows 9 (ofLength 9) ∧ SoundOrThrows 9 (ofPointer [171, 128] 2 9) ∧
      SoundOrThrows 9 (ofVector [171, 128] 9) := by
  obtain ⟨hlength, hpointer, hvector⟩ := constructors_sound_iff (n := 9) (by decide) [171, 128]
  exact ⟨hlength.mpr (by decide), hpointer 2 le_rfl, hvector.mpr (Or.inr (by decide))⟩

/-- **The largest length** makes an array without a byte, and an array of one byte that claims
`2^64 - 1` bits. -/
theorem not_sound_max :
    (ofLength (2 ^ 64 - 1) = .ok ⟨[], 0, 0⟩ ∧
        ¬ SoundOrThrows (2 ^ 64 - 1) (ofLength (2 ^ 64 - 1))) ∧
      ofVector [0] (2 ^ 64 - 1) = .ok ⟨[0], 2 ^ 64 - 1, 8⟩ ∧
        ¬ SoundOrThrows (2 ^ 64 - 1) (ofVector [0] (2 ^ 64 - 1)) := by
  have hlength : ofLength (2 ^ 64 - 1) = .ok ⟨[], 0, 0⟩ := rfl
  have hvector : ofVector [0] (2 ^ 64 - 1) = .ok ⟨[0], 2 ^ 64 - 1, 8⟩ := rfl
  refine ⟨⟨hlength, fun h => ?_⟩, hvector, fun h => ?_⟩
  · exact absurd (h.of_ok hlength).size_pos (by decide)
  · exact absurd (h.of_ok hvector).le_capacity (by decide)

end BitArray

end HafeCodec
