import HafeCodec.BitArray.Append
import HafeCodec.BitArray.Observation

/-!
# When appending is concatenation

`operator+=` is meant to put the bits of its operand behind those of the target. On a target with
padding bits it does so up to the greatest lengths. On a target without padding bits it attaches
bytes only if the capacity, which counts bits, is less than the number of bytes needed; in between,
when the bytes do not fit into the vector but their number does not exceed the capacity, the block
is copied past the end of the vector (`BitArray.concatenates_iff`).

## Main definitions

* `BitArray.Concatenates`.
* `BitArray.Fits`.

## Main results

* `BitArray.concatenates_iff`.
-/

namespace HafeCodec

namespace BitArray

variable {a o : BitArray}

/-- `a += o` stays inside of the vector and returns a well-formed array that shows the bits of `a`
followed by those of `o`. -/
def Concatenates (a o : BitArray) : Prop :=
  ∃ a', a.append o = .ok a' ∧ a'.WellFormed ∧
    ∀ l m, a.Shows l → o.Shows m → a'.Shows (l ++ m)

/-- What `operator+=` relies on: the operand is empty, or it is pushed bit by bit and the capacity
does not wrap, or the block fits into the vector, or the number of its bytes exceeds the capacity in
bits and the new capacity does not wrap. -/
def Fits (a o : BitArray) : Prop :=
  o.bitLength = 0 ∨
  (a.bitLength % 8 ≠ 0 ∧ a.bitLength + o.bitLength + 8 < 2 ^ 64) ∨
  (a.bitLength % 8 = 0 ∧ blockSize a o ≤ a.vct.length) ∨
  (a.bitLength % 8 = 0 ∧ a.bitCapacity < blockSize a o ∧ 8 * blockSize a o < 2 ^ 64)

/-- A well-formed result with the bits of both arrays. -/
theorem concatenates_of_bits (ha : a.WellFormed) (ho : o.WellFormed) {a' : BitArray}
    (happ : a.append o = .ok a') (hwf : a'.WellFormed) (hbits : a'.bits = a.bits ++ o.bits) :
    Concatenates a o := by
  refine ⟨a', happ, hwf, fun l m hl hm => ?_⟩
  rw [ha.readable.shows_iff] at hl
  rw [ho.readable.shows_iff] at hm
  rw [hwf.readable.shows_iff, hbits, hl, hm]

/-! ### The operand is pushed bit by bit -/

/-- The bits are appended as long as the capacity does not wrap. -/
theorem concatenates_of_pushed (ha : a.WellFormed) (ho : o.WellFormed) (h0 : o.bitIdx ≠ 0)
    (hmod : a.bitIdx % 8 ≠ 0) (hlt : a.bitIdx + o.bitIdx + 8 < 2 ^ 64) : Concatenates a o := by
  have hle := ha.length_le
  have hlen := ho.readable.length_bits
  obtain ⟨a', ha', hpush⟩ := ha.exists_foldlM_pushBack ho.readable (by omega) le_rfl (by omega)
  rw [List.take_of_length_le hlen.le] at hpush
  exact concatenates_of_bits ha ho ((append_eq_foldlM h0 hmod).trans ha')
    (hpush.wellFormed ha (by omega)) hpush.bits_eq

/-- When the capacity wraps, the vector has become too large for it. -/
theorem not_concatenates_of_wrap (ha : a.WellFormed) (ho : o.WellFormed) (h0 : o.bitIdx ≠ 0)
    (hmod : a.bitIdx % 8 ≠ 0) (hwrap : 2 ^ 64 ≤ a.bitIdx + o.bitIdx + 8) :
    ¬ Concatenates a o := by
  rintro ⟨a', ha', hwf, -⟩
  have hle := ha.length_le
  have hlt := ha.capacity_lt
  have hlen := ho.readable.length_bits
  -- The push that fills all but eight bits of the range attaches byte number `2^61`.
  obtain ⟨n, hn⟩ : ∃ n, a.bitIdx + n + 8 = 2 ^ 64 := ⟨2 ^ 64 - 8 - a.bitIdx, by omega⟩
  obtain ⟨t, ht, hpush⟩ := ha.exists_foldlM_pushBack ho.readable (n := n) (by omega) (by omega)
    (by omega)
  have htake : (o.bits.take n).length = n := List.length_take_of_le (by omega)
  have hroom := hpush.length_lt (List.ne_nil_of_length_pos (by omega))
  rw [hpush.bitIdx_eq, htake] at hroom
  obtain ⟨k, hk⟩ := Nat.exists_eq_add_of_le (show n ≤ o.bitIdx by omega)
  rw [append_eq_foldlM h0 hmod, hk, List.range_add, List.foldlM_append, ht,
    ExceptFold.ok_bind] at ha'
  have hsize : t.vct.length ≤ a'.vct.length := by
    refine ExceptFold.foldlM_invariant (fun s => t.vct.length ≤ s.vct.length) ha' le_rfl ?_
    intro s i s' hs hts
    obtain ⟨b, -, hpushb⟩ := ExceptFold.bind_eq_ok_iff.mp hs
    exact hts.trans (length_le_of_pushBack hpushb)
  have := hwf.capacity_lt
  omega

/-! ### The operand is copied as a block -/

theorem concatenates_of_block (ha : a.WellFormed) (ho : o.WellFormed) (h0 : o.bitIdx ≠ 0)
    (hmod : a.bitIdx % 8 = 0) (hcap : a.bitCapacity < blockSize a o)
    (hlt : 8 * blockSize a o < 2 ^ 64) : Concatenates a o := by
  have hroom : blockRoom a o = blockSize a o := by
    rw [blockRoom, if_pos hcap]
  have hsum : a.bitIdx + o.bitIdx ≤ 8 * blockSize a o := by
    rw [blockSize, bitLength, bitLength]
    omega
  obtain ⟨v, happ, hlen, hbits⟩ := ha.exists_append_block ho.readable h0 hmod hroom.ge
  rw [hroom] at hlen
  rw [hroom, u64_of_lt (by omega), u64_of_lt hlt] at happ
  refine concatenates_of_bits ha ho happ ⟨?_, ?_, ?_⟩ hbits
  · exact congrArg (8 * ·) hlen.symm
  · change 8 * v.length < 2 ^ 64
    rwa [hlen]
  · change a.bitIdx + o.bitIdx ≤ 8 * v.length
    rwa [hlen]

/-- The block is copied past the end of the vector, or the capacity wraps. -/
theorem not_concatenates_of_block (ha : a.WellFormed) (ho : o.WellFormed) (h0 : o.bitIdx ≠ 0)
    (hmod : a.bitIdx % 8 = 0) (hsize : a.vct.length < blockSize a o)
    (hgrow : a.bitCapacity < blockSize a o → 2 ^ 64 ≤ 8 * blockSize a o) :
    ¬ Concatenates a o := by
  rintro ⟨a', ha', hwf, -⟩
  by_cases hcap : a.bitCapacity < blockSize a o
  · have hroom : blockRoom a o = blockSize a o := by
      rw [blockRoom, if_pos hcap]
    obtain ⟨v, happ, hlen, -⟩ := ha.exists_append_block ho.readable h0 hmod hroom.ge
    obtain rfl := Except.ok.inj (happ.symm.trans ha')
    have hlt : 8 * v.length < 2 ^ 64 := hwf.capacity_lt
    have hwrap := hgrow hcap
    rw [hlen, hroom] at hlt
    omega
  · have hroom : blockRoom a o < blockSize a o := by
      rwa [blockRoom, if_neg hcap]
    rw [ha.append_block_eq_undefined ho.readable h0 hmod hroom] at ha'
    cases ha'

/-- **When appending is concatenation.** For two well-formed arrays `a += o` stays inside of the
vector of `a` and leaves a well-formed array with the bits of `a` followed by those of `o` if and
only if the operand fits. -/
theorem concatenates_iff (ha : a.WellFormed) (ho : o.WellFormed) :
    Concatenates a o ↔ Fits a o := by
  rw [Fits, bitLength, bitLength]
  by_cases h0 : o.bitIdx = 0
  · have hnil : o.bits = [] :=
      List.eq_nil_of_length_eq_zero (ho.readable.length_bits.trans h0)
    exact iff_of_true (concatenates_of_bits ha ho (if_pos h0) ha (by rw [hnil, List.append_nil]))
      (Or.inl h0)
  by_cases hmod : a.bitIdx % 8 = 0
  · by_cases hsize : blockSize a o ≤ a.vct.length
    · obtain ⟨a', happ, h⟩ := ha.append_block ho.readable h0 hmod (by
        rw [blockSize, bitLength, bitLength] at hsize
        omega)
      exact iff_of_true (concatenates_of_bits ha ho happ h.toWellFormed h.bits_eq)
        (Or.inr (Or.inr (Or.inl ⟨hmod, hsize⟩)))
    · by_cases hgrow : a.bitCapacity < blockSize a o ∧ 8 * blockSize a o < 2 ^ 64
      · exact iff_of_true (concatenates_of_block ha ho h0 hmod hgrow.1 hgrow.2)
          (Or.inr (Or.inr (Or.inr ⟨hmod, hgrow⟩)))
      · refine iff_of_false (not_concatenates_of_block ha ho h0 hmod (Nat.lt_of_not_le hsize)
          fun hcap => Nat.le_of_not_lt fun hlt => hgrow ⟨hcap, hlt⟩) ?_
        rintro (h | ⟨h, -⟩ | ⟨-, h⟩ | ⟨-, h⟩)
        · exact h0 h
        · exact h hmod
        · exact hsize h
        · exact hgrow h
  · by_cases hlt : a.bitIdx + o.bitIdx + 8 < 2 ^ 64
    · exact iff_of_true (concatenates_of_pushed ha ho h0 hmod hlt) (Or.inr (Or.inl ⟨hmod, hlt⟩))
    · refine iff_of_false (not_concatenates_of_wrap ha ho h0 hmod (Nat.le_of_not_lt hlt)) ?_
      rintro (h | ⟨-, h⟩ | ⟨h, -⟩ | ⟨h, -⟩)
      · exact h0 h
      · exact hlt h
      · exact hmod h
      · exact hmod h

theorem concatenates_iff_byte :
    Concatenates ⟨[128, 0], 8, 16⟩ ⟨[255], 3, 8⟩ ↔ Fits ⟨[128, 0], 8, 16⟩ ⟨[255], 3, 8⟩ :=
  concatenates_iff ⟨by decide, by decide, by decide⟩ ⟨by decide, by decide, by decide⟩

/-- **A block copied past the end of the vector.** Two bytes are appended to an empty array with one
byte: the capacity of eight bits is not less than two, and no byte is attached. -/
theorem not_concatenates_bytes :
    ∃ a o, ofLength 1 = .ok a ∧ ofPointer [255, 255] 2 16 = .ok o ∧ a.WellFormed ∧ o.WellFormed ∧
      a.append o = .error .undefined ∧ ¬ Concatenates a o := by
  have happ : append ⟨[0], 0, 8⟩ ⟨[255, 255], 16, 16⟩ = .error .undefined := rfl
  refine ⟨⟨[0], 0, 8⟩, ⟨[255, 255], 16, 16⟩, rfl, rfl, ⟨by decide, by decide, by decide⟩,
    ⟨by decide, by decide, by decide⟩, happ, ?_⟩
  rintro ⟨a', ha', -⟩
  rw [happ] at ha'
  cases ha'

end BitArray

end HafeCodec
