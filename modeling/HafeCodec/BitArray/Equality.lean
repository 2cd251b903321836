import HafeCodec.BitArray.Comparison
import HafeCodec.BitArray.Observation

/-!
# When equality is equality of the bits

`operator==` compares the lengths, then the last bytes without their padding, then the bytes before
them. When the last bytes differ it does not return `false` but whether the arrays are nonempty; of
two empty arrays it compares the first bytes of the vectors, which hold stale bits. The answer is
therefore right exactly when the lengths differ or the last bytes agree
(`BitArray.comparesBits_iff`), the last byte being found with 64-bit arithmetic that wraps for the
seven greatest lengths.

## Main definitions

* `BitArray.ComparesBits`: the comparison returns, and tells whether the bits are the same.
* `BitArray.LastByteAgrees`.

## Main results

* `BitArray.comparesBits_iff`.
-/

open BitString

namespace HafeCodec

namespace BitArray

variable {a o : BitArray} {b c : UInt8}

/-! ### Without a last byte -/

theorem backByteWithoutPadding_eq_undefined (hb : a.vct[a.lastElementByteIdx]? = none) :
    a.backByteWithoutPadding = .error .undefined := by
  rw [backByteWithoutPadding, backByte, load, hb]
  rfl

/-- Without a last byte in both vectors the comparison is undefined. -/
theorem equal_eq_undefined (hlen : a.bitIdx = o.bitIdx)
    (h : a.vct[a.lastElementByteIdx]? = none ∨ o.vct[a.lastElementByteIdx]? = none) :
    a.equal o = .error .undefined := by
  rw [equal, bitLength, bitLength, if_neg (not_not.mpr hlen)]
  cases hb : a.vct[a.lastElementByteIdx]? with
  | none =>
    rw [backByteWithoutPadding_eq_undefined hb]
    rfl
  | some b =>
    have hc : o.vct[o.lastElementByteIdx]? = none := by
      rw [← lastElementByteIdx_congr hlen]
      exact h.resolve_left (by simp [hb])
    rw [backByteWithoutPadding_eq_ok hb, ExceptFold.ok_bind,
      backByteWithoutPadding_eq_undefined hc]
    rfl

/-- A comparison that returns has found the last bytes. -/
theorem exists_lastBytes {r : Bool} (hlen : a.bitIdx = o.bitIdx) (hr : a.equal o = .ok r) :
    ∃ b c, a.vct[a.lastElementByteIdx]? = some b ∧ o.vct[a.lastElementByteIdx]? = some c := by
  by_contra! hmiss
  have hnone : a.vct[a.lastElementByteIdx]? = none ∨ o.vct[a.lastElementByteIdx]? = none := by
    cases hb : a.vct[a.lastElementByteIdx]? with
    | none => exact Or.inl rfl
    | some b => exact Or.inr (Option.eq_none_iff_forall_ne_some.mpr fun c hc => hmiss b c hb hc)
  rw [equal_eq_undefined hlen hnone] at hr
  cases hr

/-! ### The bits of the last byte -/

theorem get_eq_ok_of_byte {i : ℕ} (hb : a.vct[i / 8]? = some b) :
    a.get i = .ok (b.toBitVec.getMsbD (i % 8)) := by
  rw [get, load_eq_ok hb, ExceptFold.ok_bind, BitArray8.get_eq _ (Nat.mod_lt i (by omega))]
  rfl

theorem exists_byte_of_get_eq_ok {i : ℕ} {x : Bool} (h : a.get i = .ok x) :
    ∃ b, a.vct[i / 8]? = some b := by
  cases hb : a.vct[i / 8]? with
  | some b => exact ⟨b, rfl⟩
  | none =>
    rw [get, load, hb] at h
    cases h

/-- The masked last bytes are equal when their bits are. -/
theorem masked_eq_iff {n k : ℕ} (h0 : n ≠ 0) (hk : k = (n - 1) / 8) :
    masked n b = masked n c ↔ (byteBits b).take (n - 8 * k) = (byteBits c).take (n - 8 * k) := by
  rw [masked, masked]
  by_cases hmod : n % 8 = 0
  · rw [if_pos hmod, if_pos hmod, show n - 8 * k = 8 by omega,
      List.take_of_length_le (length_byteBits b).le, List.take_of_length_le (length_byteBits c).le]
    exact byteBits_injective.eq_iff.symm
  · rw [if_neg hmod, if_neg hmod, show n - 8 * k = n % 8 by omega]
    exact BitArray8.takeFew_eq_iff b c (Nat.mod_lt n (by decide)).le

/-- The bits of the last byte, read one by one. -/
theorem forall_get_iff {n k : ℕ} (hk : k = (n - 1) / 8) (hb : a.vct[k]? = some b)
    (hc : o.vct[k]? = some c) :
    (∀ i, 8 * k ≤ i → i < n → ∃ x, a.get i = .ok x ∧ o.get i = .ok x) ↔
      (byteBits b).take (n - 8 * k) = (byteBits c).take (n - 8 * k) := by
  rw [BitArray8.take_byteBits_eq_iff (by omega)]
  constructor
  · intro h j hj
    obtain ⟨x, hx, hx'⟩ := h (8 * k + j) (by omega) (by omega)
    have hdiv : (8 * k + j) / 8 = k := by omega
    have hmod : (8 * k + j) % 8 = j := by omega
    rw [get_eq_ok_of_byte (hdiv.symm ▸ hb), hmod] at hx
    rw [get_eq_ok_of_byte (hdiv.symm ▸ hc), hmod] at hx'
    exact (Except.ok.inj hx).trans (Except.ok.inj hx').symm
  · intro h i hi hin
    have hdiv : i / 8 = k := by omega
    have hbit := h (i - 8 * k) (by omega)
    rw [show i - 8 * k = i % 8 by omega] at hbit
    refine ⟨_, get_eq_ok_of_byte (hdiv.symm ▸ hb), ?_⟩
    rw [hbit]
    exact get_eq_ok_of_byte (hdiv.symm ▸ hc)

/-- The bits of an array are those of the bytes before the last one and those of the last byte. -/
theorem bits_eq_append {k : ℕ} (hk : k = (a.bitIdx - 1) / 8) (hb : a.vct[k]? = some b)
    (h0 : a.bitIdx ≠ 0) :
    a.bits = unpack (a.vct.take k) ++ (byteBits b).take (a.bitIdx - 8 * k) := by
  obtain ⟨hlt, hbk⟩ := List.getElem?_eq_some_iff.mp hb
  have hsplit : unpack a.vct =
      unpack (a.vct.take k) ++ (byteBits b ++ unpack (a.vct.drop (k + 1))) := by
    rw [← unpack_cons, ← unpack_append, ← hbk, List.getElem_cons_drop, List.take_append_drop]
  have hlen : (unpack (a.vct.take k)).length = 8 * k := by
    rw [length_unpack, List.length_take_of_le hlt.le]
  rw [bits, hsplit, List.take_append, hlen, List.take_of_length_le (by omega),
    List.take_append_of_le_length (by rw [length_byteBits]; omega)]

/-- Two arrays of one length have the same bits when the bytes before the last one are equal and the
bits of the last one agree. -/
theorem sameBits_iff_bytes {k : ℕ} (hlen : a.bitIdx = o.bitIdx) (h0 : a.bitIdx ≠ 0)
    (hlt : a.bitIdx + 7 < 2 ^ 64) (hk : k = (a.bitIdx - 1) / 8) (hb : a.vct[k]? = some b)
    (hc : o.vct[k]? = some c) :
    SameBits a o ↔ a.vct.take k = o.vct.take k ∧
      (byteBits b).take (a.bitIdx - 8 * k) = (byteBits c).take (a.bitIdx - 8 * k) := by
  have hbl := (List.getElem?_eq_some_iff.mp hb).1
  have hcl := (List.getElem?_eq_some_iff.mp hc).1
  have ha : a.Readable := ⟨by omega, hlt⟩
  have ho : o.Readable := ⟨by omega, hlen ▸ hlt⟩
  rw [ha.inBounds.sameBits_iff ho.inBounds, bits_eq_append hk hb h0,
    bits_eq_append (hlen ▸ hk) hc (hlen ▸ h0), ← hlen]
  constructor
  · intro h
    obtain ⟨htake, hlast⟩ := List.append_inj h (by
      rw [length_unpack, length_unpack, List.length_take_of_le hbl.le,
        List.length_take_of_le hcl.le])
    exact ⟨unpack_injective htake, hlast⟩
  · rintro ⟨htake, hlast⟩
    rw [htake, hlast]

/-! ### When the comparison is right -/

/-- The comparison returns, and tells whether the arrays have the same bits. -/
def ComparesBits (a o : BitArray) : Prop :=
  ∃ r, a.equal o = .ok r ∧ (r = true ↔ SameBits a o)

/-- What the comparison relies on for two arrays of one length: empty arrays have the same first
byte in their vectors, nonempty ones the same bits from the first bit of the last byte on. For the
seven greatest lengths the number of bytes wraps to zero, and all bits have to be the same. -/
def LastByteAgrees (a o : BitArray) : Prop :=
  if a.bitLength = 0 then ∃ b, a.vct[0]? = some b ∧ o.vct[0]? = some b
  else if a.bitLength + 7 < 2 ^ 64 then
    ∀ i, 8 * ((a.bitLength - 1) / 8) ≤ i → i < a.bitLength →
      ∃ b, a.get i = .ok b ∧ o.get i = .ok b
  else SameBits a o

/-- Two empty arrays are compared by the first bytes of their vectors. -/
theorem comparesBits_iff_of_empty (h0 : a.bitIdx = 0) (hlen : a.bitIdx = o.bitIdx) :
    ComparesBits a o ↔ ∃ b, a.vct[0]? = some b ∧ o.vct[0]? = some b := by
  have hidx : a.lastElementByteIdx = 0 := by
    rw [lastElementByteIdx_eq (by omega), h0]
  have hsame : SameBits a o := ⟨hlen, fun i hi => by rw [bitLength, h0] at hi; omega⟩
  constructor
  · rintro ⟨r, hr, hrs⟩
    obtain rfl := hrs.mpr hsame
    obtain ⟨b, c, hb, hc⟩ := exists_lastBytes hlen hr
    rw [equal_eq_of_lastByte hlen hb hc, masked, masked, h0] at hr
    by_cases hbc : b = c
    · rw [hidx] at hb hc
      exact ⟨b, hb, hbc ▸ hc⟩
    · rw [if_pos (by simpa using hbc)] at hr
      cases hr
  · rintro ⟨b, hb, hc⟩
    refine ⟨true, ?_, iff_of_true rfl hsame⟩
    rw [equal_eq_of_lastByte hlen (hidx.symm ▸ hb) (hidx.symm ▸ hc), hidx]
    simp

/-- Two nonempty arrays whose number of bytes does not wrap. -/
theorem comparesBits_iff_of_lt (h0 : a.bitIdx ≠ 0) (hlt : a.bitIdx + 7 < 2 ^ 64)
    (hlen : a.bitIdx = o.bitIdx) :
    ComparesBits a o ↔ ∀ i, 8 * ((a.bitIdx - 1) / 8) ≤ i → i < a.bitIdx →
      ∃ b, a.get i = .ok b ∧ o.get i = .ok b := by
  have hidx := lastElementByteIdx_eq hlt
  obtain ⟨k, hk⟩ : ∃ k, k = (a.bitIdx - 1) / 8 := ⟨_, rfl⟩
  rw [← hk] at hidx ⊢
  constructor
  · rintro ⟨r, hr, hrs⟩
    obtain ⟨b, c, hb, hc⟩ := exists_lastBytes hlen hr
    rw [hidx] at hb hc
    have hsame := sameBits_iff_bytes hlen h0 hlt hk hb hc
    rw [forall_get_iff hk hb hc]
    by_contra hne
    -- The mismatch branch answers `true` for arrays that differ.
    have hmask : masked a.bitIdx b ≠ masked a.bitIdx c := (masked_eq_iff h0 hk).not.mpr hne
    rw [equal_eq_of_lastByte hlen (hidx.symm ▸ hb) (hidx.symm ▸ hc), if_pos hmask,
      bne_iff_ne.mpr h0] at hr
    exact hne (hsame.mp (hrs.mp (Except.ok.inj hr).symm)).2
  · intro h
    obtain ⟨x, hx, hx'⟩ := h (8 * k) le_rfl (by omega)
    obtain ⟨b, hb⟩ := exists_byte_of_get_eq_ok hx
    obtain ⟨c, hc⟩ := exists_byte_of_get_eq_ok hx'
    rw [Nat.mul_div_cancel_left k (by omega)] at hb hc
    have hlast := (forall_get_iff hk hb hc).mp h
    have hmask : masked a.bitIdx b = masked a.bitIdx c := (masked_eq_iff h0 hk).mpr hlast
    refine ⟨_, equal_eq_of_lastByte hlen (hidx.symm ▸ hb) (hidx.symm ▸ hc), ?_⟩
    rw [if_neg (not_not.mpr hmask), hidx, decide_eq_true_iff,
      sameBits_iff_bytes hlen h0 hlt hk hb hc]
    exact (and_iff_left hlast).symm

/-- Arrays of one of the seven greatest lengths are always found to be equal. -/
theorem comparesBits_iff_of_wrap (hlt : a.bitIdx < 2 ^ 64) (hwrap : 2 ^ 64 ≤ a.bitIdx + 7)
    (hlen : a.bitIdx = o.bitIdx) : ComparesBits a o ↔ SameBits a o := by
  have hidx := lastElementByteIdx_eq_zero hlt hwrap
  have h0 : a.bitIdx ≠ 0 := by omega
  have heq {b c : UInt8} (hb : a.vct[a.lastElementByteIdx]? = some b)
      (hc : o.vct[a.lastElementByteIdx]? = some c) : a.equal o = .ok true := by
    rw [equal_eq_of_lastByte hlen hb hc, hidx]
    simp [h0]
  constructor
  · rintro ⟨r, hr, hrs⟩
    obtain ⟨b, c, hb, hc⟩ := exists_lastBytes hlen hr
    exact hrs.mp (Except.ok.inj ((heq hb hc).symm.trans hr)).symm
  · intro hsame
    obtain ⟨x, hx, hx'⟩ := hsame.2 0 (Nat.pos_of_ne_zero h0)
    obtain ⟨b, hb⟩ := exists_byte_of_get_eq_ok hx
    obtain ⟨c, hc⟩ := exists_byte_of_get_eq_ok hx'
    rw [Nat.zero_div, ← hidx] at hb hc
    exact ⟨true, heq hb hc, iff_of_true rfl hsame⟩

/-- **When equality is equality of the bits.** The comparison of two arrays, whatever lies in their
unused bits and bytes, tells whether they have the same bits if and only if their lengths differ or
their last bytes agree. -/
theorem comparesBits_iff (hlt : a.bitIdx < 2 ^ 64) :
    ComparesBits a o ↔ (a.bitLength = o.bitLength → LastByteAgrees a o) := by
  by_cases hlen : a.bitIdx = o.bitIdx
  · have himp : (a.bitLength = o.bitLength → LastByteAgrees a o) ↔ LastByteAgrees a o :=
      imp_iff_right hlen
    rw [himp, LastByteAgrees, bitLength]
    split_ifs with h0 hwrap
    · exact comparesBits_iff_of_empty h0 hlen
    · exact comparesBits_iff_of_lt h0 hwrap hlen
    · exact comparesBits_iff_of_wrap hlt (Nat.le_of_not_lt hwrap) hlen
  · refine iff_of_true ⟨false, equal_of_ne hlen, ?_⟩ fun h => absurd h hlen
    exact iff_of_false Bool.false_ne_true fun h => hlen h.1

theorem comparesBits_iff_bit :
    ComparesBits ⟨[128], 1, 8⟩ ⟨[255], 1, 8⟩ ↔
      (bitLength ⟨[128], 1, 8⟩ = bitLength ⟨[255], 1, 8⟩ →
        LastByteAgrees ⟨[128], 1, 8⟩ ⟨[255], 1, 8⟩) :=
  comparesBits_iff (by decide)

/-- **Arrays with different bits are found to be equal**, and empty arrays to be different. The
first two arrays are built by pushing one bit, the second pair by popping it again. -/
theorem not_comparesBits_bit :
    ∃ e a o, ofLength 1 = .ok e ∧ e.pushBack false = .ok a ∧ e.pushBack true = .ok o ∧
      (a.equal o = .ok true ∧ a.get 0 = .ok false ∧ o.get 0 = .ok true ∧ ¬ ComparesBits a o) ∧
      a.popBack.equal o.popBack = .ok false ∧ a.popBack.bitLength = 0 ∧
        o.popBack.bitLength = 0 ∧ ¬ ComparesBits a.popBack o.popBack := by
  refine ⟨⟨[0], 0, 8⟩, ⟨[0], 1, 8⟩, ⟨[128], 1, 8⟩, rfl, rfl, rfl, ⟨rfl, rfl, rfl, ?_⟩, rfl, rfl,
    rfl, ?_⟩
  · rintro ⟨r, hr, hrs⟩
    obtain rfl : true = r := Except.ok.inj hr
    obtain ⟨b, hb, hb'⟩ := (hrs.mp rfl).2 0 (by decide)
    obtain rfl : false = b := Except.ok.inj hb
    cases hb'
  · rintro ⟨r, hr, hrs⟩
    obtain rfl : false = r := Except.ok.inj hr
    exact Bool.false_ne_true (hrs.mpr ⟨rfl, fun i hi => absurd hi (Nat.not_lt_zero i)⟩)

end BitArray

end HafeCodec
