import HafeCodec.BitArray.Bits

/-!
# Copies and comparisons of bit arrays

A copy keeps the bytes up to the one that stores the last bit, whatever is found in the unused bits
of that byte. Two arrays of one length whose last bytes agree are compared byte by byte, again with
the unused bits (`BitArray.equal_eq`).

## Main definitions

* `BitArray.copied`: the array left by the copy constructor.
* `BitArray.lastByte`: the byte that stores the last bit.
* `BitArray.masked`: the last byte without its padding.

## Main results

* `BitArray.Readable.copy_eq`, `BitArray.Readable.backByte_eq`.
* `BitArray.equal_eq_of_lastByte`: what the comparison returns.
* `BitArray.equal_eq`: the comparison of two arrays whose last bytes agree.
* `BitArray.effectiveBytes_eq_iff`: two arrays have the same effective bytes when the second is
  padded with zeros.
-/

open BitString

namespace HafeCodec

namespace BitArray

variable {a o : BitArray} {b c : UInt8}

/-- The array left by the copy constructor. -/
def copied (o : BitArray) : BitArray where
  vct := o.effectiveBytes ++ List.replicate (o.vct.length - o.effectiveByteSize) 0
  bitIdx := o.bitIdx
  bitCapacity := o.bitCapacity

/-- The byte that stores the last bit. -/
def lastByte (a : BitArray) : UInt8 :=
  a.effectiveBytes.getLastD 0

/-! ### Copies -/

theorem Readable.copy_eq (h : o.Readable) : o.copy = .ok o.copied := by
  rw [copy, h.copyAssign_eq, resize, List.take_nil, List.nil_append, List.length_nil, Nat.sub_zero,
    List.drop_replicate]
  rfl

theorem Readable.length_vct_copied (h : o.Readable) :
    o.copied.vct.length = o.vct.length := by
  have hle := h.effectiveByteSize_le
  rw [copied, List.length_append, List.length_replicate, effectiveBytes, List.length_take]
  omega

theorem Readable.copied (h : o.Readable) : o.copied.Readable where
  length_le := by rw [h.length_vct_copied]; exact h.length_le
  length_lt := h.length_lt

/-- A copy has the effective bytes of the array copied. -/
theorem Readable.effectiveBytes_copied (h : o.Readable) :
    o.copied.effectiveBytes = o.effectiveBytes := by
  have hsize : o.copied.effectiveByteSize = o.effectiveBytes.length := by
    rw [h.copied.effectiveByteSize_eq, h.length_effectiveBytes, BitArray.copied]
  rw [BitArray.effectiveBytes, hsize, BitArray.copied, List.take_left]

theorem Readable.lastByte_copied (h : o.Readable) : o.copied.lastByte = o.lastByte := by
  rw [lastByte, h.effectiveBytes_copied, lastByte]

/-! ### The last byte -/

/-- The last byte is found by the length alone. -/
theorem lastElementByteIdx_congr (h : a.bitIdx = o.bitIdx) :
    a.lastElementByteIdx = o.lastElementByteIdx := by
  rw [lastElementByteIdx, lastElementByteIdx, effectiveByteSize, effectiveByteSize, bitLength,
    bitLength, h]

theorem effectiveByteSize_sub_one (a : BitArray) :
    a.effectiveByteSize - 1 = a.lastElementByteIdx := by
  rw [lastElementByteIdx]
  split_ifs <;> omega

theorem lastElementByteIdx_eq (h : a.bitIdx + 7 < 2 ^ 64) :
    a.lastElementByteIdx = (a.bitIdx - 1) / 8 := by
  rw [← effectiveByteSize_sub_one, effectiveByteSize_eq h]
  omega

/-- For the seven greatest lengths the last byte is taken to be the first one. -/
theorem lastElementByteIdx_eq_zero (h : a.bitIdx < 2 ^ 64) (hwrap : 2 ^ 64 ≤ a.bitIdx + 7) :
    a.lastElementByteIdx = 0 := by
  have hsize : a.effectiveByteSize = 0 := by
    rw [effectiveByteSize, bitLength, bytesRequired_eq_zero h hwrap, ite_self]
  rw [← effectiveByteSize_sub_one, hsize]

/-- The last byte lies in the vector, behind the other effective bytes. -/
theorem Readable.lastByte_spec (h : a.Readable) (h0 : a.bitIdx ≠ 0) :
    a.vct[a.lastElementByteIdx]? = some a.lastByte ∧
      a.effectiveBytes = a.vct.take a.lastElementByteIdx ++ [a.lastByte] := by
  have hsize := h.effectiveByteSize_eq
  have hle := h.effectiveByteSize_le
  have hidx := effectiveByteSize_sub_one a
  have hk : a.effectiveByteSize = a.lastElementByteIdx + 1 := by omega
  have hlt : a.lastElementByteIdx < a.vct.length := by omega
  have heff : a.effectiveBytes =
      a.vct.take a.lastElementByteIdx ++ [a.vct[a.lastElementByteIdx]] := by
    rw [effectiveBytes, hk, List.take_concat_get' _ _ hlt]
  have hlast : a.lastByte = a.vct[a.lastElementByteIdx] := by
    rw [lastByte, heff, List.getLastD_concat]
  rw [hlast]
  exact ⟨List.getElem?_eq_getElem hlt, heff⟩

/-- The last byte is read inside of the vector. -/
theorem Readable.backByte_eq (h : a.Readable) (h0 : a.bitIdx ≠ 0) :
    a.backByte = .ok a.lastByte := by
  rw [backByte, load_eq_ok (h.lastByte_spec h0).1]

/-! ### Comparisons -/

/-- The last byte of an array of `n` bits without its padding. -/
def masked (n : ℕ) (b : BitArray8) : UInt8 :=
  if n % 8 = 0 then b else b.takeFew (n % 8)

theorem backByteWithoutPadding_eq_ok (hb : a.vct[a.lastElementByteIdx]? = some b) :
    a.backByteWithoutPadding = .ok (masked a.bitIdx b) := by
  rw [backByteWithoutPadding, backByte, load_eq_ok hb, ExceptFold.ok_bind, ExceptFold.pure_eq_ok,
    masked, paddingBits, hasPaddingBits]
  by_cases h0 : a.bitIdx % 8 = 0
  · simp [h0]
  · have hmod := Nat.mod_lt a.bitIdx (show 8 > 0 by decide)
    simp [h0, Nat.sub_sub_self hmod.le]

/-- **What the comparison returns** for two arrays of one length. -/
theorem equal_eq_of_lastByte (hlen : a.bitIdx = o.bitIdx)
    (hb : a.vct[a.lastElementByteIdx]? = some b) (hc : o.vct[a.lastElementByteIdx]? = some c) :
    a.equal o = .ok (if masked a.bitIdx b ≠ masked a.bitIdx c then a.bitIdx != 0
      else decide (a.vct.take a.lastElementByteIdx = o.vct.take a.lastElementByteIdx)) := by
  have hbl := (List.getElem?_eq_some_iff.mp hb).1
  have hcl := (List.getElem?_eq_some_iff.mp hc).1
  have hc' : o.vct[o.lastElementByteIdx]? = some c := lastElementByteIdx_congr hlen ▸ hc
  rw [equal, bitLength, bitLength, if_neg (not_not.mpr hlen), backByteWithoutPadding_eq_ok hb,
    ExceptFold.ok_bind, backByteWithoutPadding_eq_ok hc', ExceptFold.ok_bind, ← hlen,
    effectiveByteSize_sub_one]
  by_cases hmask : masked a.bitIdx b = masked a.bitIdx c
  · rw [if_neg (not_not.mpr hmask), if_neg (not_not.mpr hmask), memcmp_eq_ok hbl.le hcl.le]
    split_ifs with hone
    · have hzero : a.lastElementByteIdx = 0 := by
        rw [← effectiveByteSize_sub_one]
        omega
      simp [hzero]
    · rfl
  · rw [if_pos hmask, if_pos hmask]
    rfl

/-- **Comparing two nonempty arrays** of one length whose last bytes agree compares their effective
bytes. -/
theorem equal_eq (ha : a.Readable) (ho : o.Readable) (h0 : a.bitIdx ≠ 0)
    (hlen : a.bitIdx = o.bitIdx) (hlast : a.lastByte = o.lastByte) :
    a.equal o = .ok (decide (a.effectiveBytes = o.effectiveBytes)) := by
  have hidx := lastElementByteIdx_congr hlen
  obtain ⟨hb, hbytes⟩ := ha.lastByte_spec h0
  obtain ⟨hc, hbytes'⟩ := ho.lastByte_spec (hlen ▸ h0)
  rw [← hidx] at hc hbytes'
  rw [equal_eq_of_lastByte hlen hb hc, hlast, if_neg (not_not.mpr rfl), hbytes, hbytes', hlast]
  exact congrArg Except.ok (decide_eq_decide.mpr (List.append_left_inj _).symm)

/-- Comparing two arrays of different lengths. -/
theorem equal_of_ne (h : a.bitIdx ≠ o.bitIdx) : a.equal o = .ok false :=
  if_pos h

/-- An array has the effective bytes of an array that is padded with zeros exactly when it has its
bits and is padded with zeros itself. -/
theorem effectiveBytes_eq_iff (ha : a.Readable) (ho : o.Readable) (hz : o.ZeroPadded) :
    a.bitIdx = o.bitIdx ∧ a.effectiveBytes = o.effectiveBytes ↔
      a.bits = o.bits ∧ a.ZeroPadded := by
  constructor
  · rintro ⟨hlen, heff⟩
    have hbits : a.bits = o.bits := by
      rw [← ha.take_unpack_effectiveBytes, ← ho.take_unpack_effectiveBytes, hlen, heff]
    refine ⟨hbits, ?_⟩
    rw [ZeroPadded, heff, hbits, ha.effectiveByteSize_eq, hlen, ← ho.effectiveByteSize_eq]
    exact hz
  · rintro ⟨hbits, hza⟩
    have hlen : a.bitIdx = o.bitIdx := by
      rw [← ha.length_bits, ← ho.length_bits, hbits]
    refine ⟨hlen, unpack_injective ?_⟩
    rw [hza, hz, hbits, ha.effectiveByteSize_eq, hlen, ← ho.effectiveByteSize_eq]

end BitArray

end HafeCodec
