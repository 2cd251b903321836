import HafeCodec.Library.BitString

/-!
# Bytes addressed bit by bit

`BitArray8` is one byte whose bit `0` is the most significant one. Reading and writing a bit are
shifts and masks in the source; here they are read through `BitVec.getMsbD`, the bit of a byte in
the same numbering.

## Main results

* `BitArray8.get_eq`, `BitArray8.getMsbD_assign`.
* `BitArray8.takeFew_eq_iff`.
-/

open BitString

namespace HafeCodec

/-- The source's struct with the single field `uint8_t data`. -/
abbrev BitArray8 : Type :=
  UInt8

namespace BitArray8

/-- `data |= (1 << (7-i))`. -/
def setBit (data : BitArray8) (i : ℕ) : BitArray8 :=
  data ||| UInt8.ofNat (1 <<< (7 - i))

/-- `data &= ~(1 << (7-i))`. -/
def clearBit (data : BitArray8) (i : ℕ) : BitArray8 :=
  data &&& ~~~UInt8.ofNat (1 <<< (7 - i))

/-- `operator[]`: `(data >> (7 - i)) & 1`. -/
def get (data : BitArray8) (i : ℕ) : Bool :=
  (data.toNat >>> (7 - i)) &&& 1 != 0

/-- `operator()`: write one bit. -/
def assign (data : BitArray8) (i : ℕ) (value : Bool) : BitArray8 :=
  if value then data.setBit i else data.clearBit i

/-- `data >> (8 - bit_length)`. -/
def takeFew (data : BitArray8) (bitLength : ℕ) : UInt8 :=
  UInt8.ofNat (data.toNat >>> (8 - bitLength))

theorem getMsbD_eq_testBit (data : BitArray8) {i : ℕ} (hi : i < 8) :
    data.toBitVec.getMsbD i = data.toNat.testBit (7 - i) := by
  rw [BitVec.getMsbD_eq_getLsbD, decide_eq_true hi, Bool.true_and, BitVec.getLsbD,
    UInt8.toNat_toBitVec]

theorem get_eq (data : BitArray8) {i : ℕ} (hi : i < 8) : data.get i = data.toBitVec.getMsbD i := by
  rw [getMsbD_eq_testBit data hi, get, Nat.testBit, Nat.and_comm]

/-- The mask of bit `i`. -/
private theorem getMsbD_mask : ∀ i < 8, ∀ j < 8,
    (UInt8.ofNat (1 <<< (7 - i))).toBitVec.getMsbD j = decide (i = j) := by
  decide

/-- **Writing one bit** changes this bit only. -/
theorem getMsbD_assign (data : BitArray8) {i j : ℕ} (hi : i < 8) (hj : j < 8) (value : Bool) :
    (data.assign i value).toBitVec.getMsbD j =
      if j = i then value else data.toBitVec.getMsbD j := by
  have hmask := getMsbD_mask i hi j hj
  by_cases hij : j = i
  · subst hij
    cases value <;> simp [assign, setBit, clearBit, hmask]
  · have hji : decide (i = j) = false := decide_eq_false fun h => hij h.symm
    rw [hji] at hmask
    cases value <;> simp [assign, setBit, clearBit, hmask, hij, hj]

/-- Two bytes with the same first bits. -/
theorem take_byteBits_eq_iff {b c : BitArray8} {k : ℕ} (hk : k ≤ 8) :
    (byteBits b).take k = (byteBits c).take k ↔
      ∀ j < k, b.toBitVec.getMsbD j = c.toBitVec.getMsbD j := by
  rw [byteBits, byteBits, ← List.map_take, ← List.map_take, List.take_range, Nat.min_eq_left hk,
    List.map_inj_left]
  exact forall_congr' fun j => by rw [List.mem_range]

/-- **The first bits of a byte** are what is left of it when the others are shifted out. -/
theorem takeFew_eq_iff (b c : BitArray8) {k : ℕ} (hk : k ≤ 8) :
    b.takeFew k = c.takeFew k ↔ (byteBits b).take k = (byteBits c).take k := by
  have hsmall (x : BitArray8) : x.toNat >>> (8 - k) < 256 :=
    (Nat.shiftRight_le _ _).trans_lt x.toNat_lt
  have hshift : b.takeFew k = c.takeFew k ↔ b.toNat >>> (8 - k) = c.toNat >>> (8 - k) := by
    rw [takeFew, takeFew, ← UInt8.toNat_inj, UInt8.toNat_ofNat', UInt8.toNat_ofNat',
      Nat.mod_eq_of_lt (hsmall b), Nat.mod_eq_of_lt (hsmall c)]
  rw [hshift, take_byteBits_eq_iff hk]
  constructor
  · intro h j hj
    have hbit := congrArg (fun n => n.testBit (k - 1 - j)) h
    simp only [Nat.testBit_shiftRight] at hbit
    rw [getMsbD_eq_testBit b (by omega), getMsbD_eq_testBit c (by omega)]
    rwa [show 8 - k + (k - 1 - j) = 7 - j by omega] at hbit
  · intro h
    refine Nat.eq_of_testBit_eq fun i => ?_
    rw [Nat.testBit_shiftRight, Nat.testBit_shiftRight]
    rcases lt_or_ge i k with hi | hi
    · have hbit := h (k - 1 - i) (by omega)
      rw [getMsbD_eq_testBit b (by omega), getMsbD_eq_testBit c (by omega)] at hbit
      rwa [show 7 - (k - 1 - i) = 8 - k + i by omega] at hbit
    · have hhigh (x : BitArray8) : x.toNat.testBit (8 - k + i) = false :=
        Nat.testBit_lt_two_pow (x.toNat_lt.trans_le (Nat.pow_le_pow_right (by omega)
          (show 8 ≤ 8 - k + i by omega)))
      rw [hhigh, hhigh]

end BitArray8

end HafeCodec
