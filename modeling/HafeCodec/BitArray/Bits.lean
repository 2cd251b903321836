import HafeCodec.BitArray.Basic
import Mathlib.Order.Lattice.Nat

/-!
# The bits held by a bit array

A well-formed bit array holds the first `bit_length()` bits of its bytes; what lies in the later
bits is stale. The arrays that the encoder and the decoder build themselves are of a special kind:
all their later bits are zero. `BitArray.Holds a l` says that `a` is such an array with the bits
`l`, and `BitArray.HoldsWithin K a l` bounds its size as well, so that its capacity does not wrap.

Every operation has one lemma that says what it does to the bits and that it succeeds, that is,
makes no access outside of the vector.

## Main definitions

* `BitArray.bits`, `BitArray.effectiveBytes`.
* `BitArray.Readable`, `BitArray.InBounds`, `BitArray.WellFormed`, `BitArray.ZeroPadded`.
* `BitArray.Holds`, `BitArray.HoldsWithin`.

## Main results

* `BitArray.get_eq_ok`, `BitArray.exists_put`, `BitArray.put_eq_undefined`.
* `BitArray.exists_pushBack`: pushing a bit, whatever is found behind it.
* `BitArray.ofVector_eq_ok`, `BitArray.ofPointer_eq_ok`, `BitArray.Readable.copyAssign_eq`.
* `BitArray.Holds.pushBack`, `BitArray.HoldsWithin.pushBack`.
* `BitArray.Holds.copyAssign`, `BitArray.HoldsWithin.copy`.
-/

open BitString

namespace HafeCodec

theorem unpack_resize (v : List BitArray8) (n : ℕ) :
    unpack (resize v n 0) =
      (unpack v).take (8 * n) ++ List.replicate (8 * (n - v.length)) false := by
  rw [resize, unpack_append, unpack_take, unpack_replicate_zero]

namespace BitArray

variable {a o : BitArray} {l : List Bool}

/-- The bits of the array. -/
def bits (a : BitArray) : List Bool :=
  (unpack a.vct).take a.bitIdx

/-- The bytes up to the one that stores the last bit. -/
def effectiveBytes (a : BitArray) : List UInt8 :=
  a.vct.take a.effectiveByteSize

/-- All bits of the array lie in its vector, and their number does not wrap when it is rounded up
to bytes. -/
structure Readable (a : BitArray) : Prop where
  length_le : a.bitIdx ≤ 8 * a.vct.length
  length_lt : a.bitIdx + 7 < 2 ^ 64

/-- All bits of the array lie in its vector. -/
structure InBounds (a : BitArray) : Prop where
  length_le : a.bitIdx ≤ 8 * a.vct.length
  length_lt : a.bitIdx < 2 ^ 64

/-- The capacity is that of the vector, and the length does not exceed it. -/
structure WellFormed (a : BitArray) : Prop where
  capacity_eq : a.bitCapacity = 8 * a.vct.length
  capacity_lt : 8 * a.vct.length < 2 ^ 64
  length_le : a.bitIdx ≤ 8 * a.vct.length

/-- The bits behind the last one, up to the end of its byte, are zero. -/
def ZeroPadded (a : BitArray) : Prop :=
  unpack a.effectiveBytes = a.bits ++ List.replicate (8 * a.effectiveByteSize - a.bitIdx) false

/-- The array has the bits `l`, and all bits of its vector behind them are zero. -/
structure Holds (a : BitArray) (l : List Bool) : Prop where
  bitIdx_eq : a.bitIdx = l.length
  capacity_eq : a.bitCapacity = u64 (8 * a.vct.length)
  unpack_eq : unpack a.vct = l ++ List.replicate (8 * a.vct.length - l.length) false

/-- As `Holds`, the array being nonempty and no larger than `K` bytes or than needed. -/
structure HoldsWithin (K : ℕ) (a : BitArray) (l : List Bool) : Prop extends Holds a l where
  size_pos : 0 < a.vct.length
  size_le : a.vct.length ≤ max K (l.length / 8 + 1)

/-! ### Sizes -/

theorem bytesRequired_eq {n : ℕ} (h : n + 7 < 2 ^ 64) : bytesRequired n = (n + 7) / 8 := by
  rw [bytesRequired, u64_of_lt h, Nat.shiftRight_eq_div_pow]

/-- A byte is required unless there is no bit or the sum wraps. -/
theorem bytesRequired_ne_zero_iff {n : ℕ} (hn : n < 2 ^ 64) :
    bytesRequired n ≠ 0 ↔ 0 < n ∧ n + 7 < 2 ^ 64 := by
  rw [bytesRequired, u64, Nat.shiftRight_eq_div_pow]
  omega

/-- The sum wraps for the seven largest lengths. -/
theorem bytesRequired_eq_zero {n : ℕ} (hn : n < 2 ^ 64) (hwrap : 2 ^ 64 ≤ n + 7) :
    bytesRequired n = 0 := by
  by_contra hne
  have hlt := ((bytesRequired_ne_zero_iff hn).mp hne).2
  omega

theorem effectiveByteSize_eq (h : a.bitIdx + 7 < 2 ^ 64) :
    a.effectiveByteSize = (a.bitIdx + 7) / 8 := by
  rw [effectiveByteSize, bitLength]
  split_ifs with h0
  · rw [h0]
  · exact bytesRequired_eq h

theorem Readable.effectiveByteSize_eq (h : a.Readable) :
    a.effectiveByteSize = (a.bitIdx + 7) / 8 :=
  BitArray.effectiveByteSize_eq h.length_lt

theorem Readable.effectiveByteSize_le (h : a.Readable) :
    a.effectiveByteSize ≤ a.vct.length := by
  have := h.length_le
  rw [h.effectiveByteSize_eq]
  omega

theorem Readable.inBounds (h : a.Readable) : a.InBounds where
  length_le := h.length_le
  length_lt := (Nat.le_add_right _ _).trans_lt h.length_lt

theorem InBounds.readable (h : a.InBounds) (hlt : a.bitIdx + 7 < 2 ^ 64) : a.Readable where
  length_le := h.length_le
  length_lt := hlt

theorem InBounds.length_bits (h : a.InBounds) : a.bits.length = a.bitIdx := by
  rw [bits, List.length_take, length_unpack]
  exact Nat.min_eq_left h.length_le

theorem Readable.length_bits (h : a.Readable) : a.bits.length = a.bitIdx :=
  h.inBounds.length_bits

theorem Readable.length_effectiveBytes (h : a.Readable) :
    a.effectiveBytes.length = (a.bitIdx + 7) / 8 := by
  rw [effectiveBytes, List.length_take, Nat.min_eq_left h.effectiveByteSize_le,
    h.effectiveByteSize_eq]

/-- The bits are the first bits of the effective bytes. -/
theorem Readable.take_unpack_effectiveBytes (h : a.Readable) :
    (unpack a.effectiveBytes).take a.bitIdx = a.bits := by
  have := h.effectiveByteSize_eq
  rw [effectiveBytes, unpack_take, List.take_take, bits, Nat.min_eq_left (by omega)]

/-- Whole bytes have no padding. -/
theorem Readable.zeroPadded (h : a.Readable) (hdvd : 8 ∣ a.bitIdx) : a.ZeroPadded := by
  have hsize := h.effectiveByteSize_eq
  have hlen : (unpack a.effectiveBytes).length = a.bitIdx := by
    rw [length_unpack, h.length_effectiveBytes]
    omega
  rw [ZeroPadded, ← h.take_unpack_effectiveBytes, List.take_of_length_le hlen.le,
    Nat.sub_eq_zero_of_le (by omega), List.replicate_zero, List.append_nil]

theorem WellFormed.readable (h : a.WellFormed) : a.Readable where
  length_le := h.length_le
  length_lt := by
    have := h.length_le
    have := h.capacity_lt
    omega

/-- Another vector of the same size, and a length that does not exceed it. -/
theorem WellFormed.of_length_eq (h : a.WellFormed) {v : List BitArray8} {n : ℕ}
    (hv : v.length = a.vct.length) (hn : n ≤ 8 * a.vct.length) :
    WellFormed ⟨v, n, a.bitCapacity⟩ where
  capacity_eq := h.capacity_eq.trans (congrArg (8 * ·) hv.symm)
  capacity_lt := (congrArg (8 * ·) hv).trans_lt h.capacity_lt
  length_le := hn.trans (congrArg (8 * ·) hv).ge

/-- The vector constructor takes over a vector that has the bits announced. -/
theorem ofVector_eq_ok {v : List BitArray8} {n : ℕ} (hpos : 0 < v.length) (hn : n + 7 < 2 ^ 64)
    (hle : n ≤ 8 * v.length) (hlt : 8 * v.length < 2 ^ 64) :
    ofVector v n = .ok ⟨v, n, 8 * v.length⟩ := by
  rw [ofVector, if_neg hpos.ne', bytesRequired_eq hn, if_neg (by omega), Nat.shiftLeft_eq,
    Nat.mul_comm, u64_of_lt hlt]

/-- The pointer constructor copies the bytes that the bits announced need. -/
theorem ofPointer_eq_ok {v : List BitArray8} {byteLength n : ℕ} (h0 : 0 < n) (hn : n + 7 < 2 ^ 64)
    (hle : bytesRequired n ≤ byteLength) (hv : byteLength ≤ v.length) :
    ofPointer v byteLength n =
      .ok ⟨v.take (bytesRequired n), n, 8 * (v.take (bytesRequired n)).length⟩ := by
  have hreq := bytesRequired_eq hn
  have hcopy : memcpy (List.replicate (bytesRequired n) 0) 0 v (bytesRequired n) =
      .ok (v.take (bytesRequired n)) := by
    rw [memcpy_eq_ok (by rw [List.length_replicate, Nat.zero_add]) (hle.trans hv), List.take_zero,
      List.nil_append, Nat.zero_add, List.drop_of_length_le (List.length_replicate).le,
      List.append_nil]
  rw [ofPointer, if_neg hle.not_gt, if_neg (by omega), hcopy, ExceptFold.ok_bind,
    List.length_take_of_le (hle.trans hv), Nat.shiftLeft_eq, Nat.mul_comm, u64_of_lt (by omega)]
  rfl

/-- What is left in the target by copying. -/
theorem Readable.copyAssign_eq (h : o.Readable) (a : BitArray) :
    a.copyAssign o = .ok
      { vct := o.effectiveBytes ++ (resize a.vct o.vct.length 0).drop o.effectiveByteSize
        bitIdx := o.bitIdx
        bitCapacity := o.bitCapacity } := by
  have hle := h.effectiveByteSize_le
  rw [copyAssign, memcpy_eq_ok (by rwa [length_resize, Nat.zero_add]) hle, ExceptFold.ok_bind,
    List.take_zero, List.nil_append, Nat.zero_add]
  rfl

/-- The vector left by copying has the size of that of the array copied. -/
theorem Readable.length_copyAssign (h : o.Readable) (a : BitArray) :
    (o.effectiveBytes ++ (resize a.vct o.vct.length 0).drop o.effectiveByteSize).length =
      o.vct.length := by
  have hle := h.effectiveByteSize_le
  have hsize := h.effectiveByteSize_eq
  rw [List.length_append, h.length_effectiveBytes, List.length_drop, length_resize]
  omega

/-! ### Reading and writing one bit -/

/-- Reading a bit of the array succeeds. -/
theorem get_eq_ok {i : ℕ} {b : Bool} (h : a.bits[i]? = some b) : a.get i = .ok b := by
  rw [bits, List.getElem?_take] at h
  split_ifs at h with hi
  rw [getElem?_unpack, Option.map_eq_some_iff] at h
  obtain ⟨byte, hbyte, rfl⟩ := h
  rw [get, load_eq_ok hbyte, ExceptFold.ok_bind, BitArray8.get_eq _ (Nat.mod_lt i (by omega))]
  rfl

/-- Writing a bit of the vector succeeds and changes this bit only. -/
theorem exists_put {i : ℕ} (h : i < 8 * a.vct.length) (value : Bool) :
    ∃ v, a.put i value = .ok { a with vct := v } ∧ unpack v = (unpack a.vct).set i value := by
  have hlt : i / 8 < a.vct.length := by omega
  have hbyte : a.vct[i / 8]? = some a.vct[i / 8] := List.getElem?_eq_getElem hlt
  refine ⟨a.vct.set (i / 8) (BitArray8.assign a.vct[i / 8] (i % 8) value), ?_, ?_⟩
  · rw [put, load_eq_ok hbyte, ExceptFold.ok_bind, store_eq_ok hlt, ExceptFold.ok_bind]
    rfl
  · exact unpack_set hbyte fun j hj =>
      BitArray8.getMsbD_assign _ (Nat.mod_lt i (by omega)) hj value

/-- Writing a bit outside of the vector is undefined behaviour. -/
theorem put_eq_undefined {i : ℕ} (h : 8 * a.vct.length ≤ i) (value : Bool) :
    a.put i value = .error .undefined := by
  have hlt : a.vct[i / 8]? = none := List.getElem?_eq_none (by omega)
  rw [put, load, hlt]
  rfl

theorem length_of_unpack_eq_set {v w : List UInt8} {i : ℕ} {x : Bool}
    (h : unpack v = (unpack w).set i x) : v.length = w.length := by
  have hlen := congrArg List.length h
  rw [List.length_set, length_unpack, length_unpack] at hlen
  omega

/-! ### Pushing a bit -/

/-- Attaching a byte when the array is almost full. The capacity may have wrapped to zero. -/
private theorem exists_grow (hcap : a.bitCapacity = u64 (8 * a.vct.length))
    (hpos : 0 < a.vct.length) (hlt : 8 * a.vct.length ≤ 2 ^ 64)
    (hle : a.bitIdx ≤ 8 * a.vct.length) :
    ∃ v, a.grow = ⟨v, a.bitIdx, u64 (8 * v.length)⟩ ∧ a.bitIdx + 1 < 8 * v.length ∧
      unpack v = unpack a.vct ++ List.replicate (8 * (v.length - a.vct.length)) false ∧
      v.length = if 8 * a.vct.length - 1 ≤ a.bitIdx then a.vct.length + 1 else a.vct.length := by
  have hpred : u64Pred a.bitCapacity = 8 * a.vct.length - 1 := by
    rw [hcap]
    rcases hlt.lt_or_eq with hlt | heq
    · rw [u64_of_lt hlt, u64Pred, if_neg (by omega)]
    · rw [heq]
      rfl
  rw [grow, hpred]
  split_ifs with hfull
  · have hlen : (a.vct ++ [0]).length = a.vct.length + 1 := by
      rw [List.length_append, List.length_singleton]
    refine ⟨a.vct ++ [0], ?_, by omega, ?_, hlen⟩
    · rw [hlen, Nat.shiftLeft_eq, Nat.mul_comm]
    · rw [hlen, Nat.add_sub_cancel_left, unpack_append, unpack_cons, unpack_nil, List.append_nil,
        byteBits_zero]
  · refine ⟨a.vct, by rw [← hcap], by omega, ?_, rfl⟩
    rw [Nat.sub_self, Nat.mul_zero, List.replicate_zero, List.append_nil]

/-- **Pushing a bit** writes the first bit behind the array, which lies inside of the vector. -/
theorem exists_pushBack (hcap : a.bitCapacity = u64 (8 * a.vct.length)) (hpos : 0 < a.vct.length)
    (hlt : 8 * a.vct.length ≤ 2 ^ 64) (hle : a.bitIdx ≤ 8 * a.vct.length)
    (hidx : a.bitIdx + 1 < 2 ^ 64) (value : Bool) :
    ∃ v, a.pushBack value = .ok ⟨v, a.bitIdx + 1, u64 (8 * v.length)⟩ ∧
      a.bitIdx + 1 < 8 * v.length ∧
      unpack v = (unpack a.vct ++
        List.replicate (8 * (v.length - a.vct.length)) false).set a.bitIdx value ∧
      v.length = if 8 * a.vct.length - 1 ≤ a.bitIdx then a.vct.length + 1 else a.vct.length := by
  obtain ⟨w, hgrow, hroom, hw, hsize⟩ := exists_grow hcap hpos hlt hle
  obtain ⟨v, hput, hv⟩ := exists_put (a := ⟨w, a.bitIdx, u64 (8 * w.length)⟩)
    ((Nat.lt_succ_self _).trans hroom) value
  have hlen : v.length = w.length := length_of_unpack_eq_set hv
  refine ⟨v, ?_, by rwa [hlen], ?_, by rw [hlen, hsize]⟩
  · rw [pushBack, hgrow, hput, ExceptFold.ok_bind, u64_of_lt hidx, hlen]
    rfl
  · rw [hv, hw, hlen]

/-! ### Arrays whose later bits are zero -/

namespace Holds

theorem length_le (h : a.Holds l) : l.length ≤ 8 * a.vct.length := by
  have hlen := congrArg List.length h.unpack_eq
  rw [length_unpack, List.length_append] at hlen
  omega

theorem bits_eq (h : a.Holds l) : a.bits = l := by
  rw [bits, h.bitIdx_eq, h.unpack_eq, List.take_left]

theorem wellFormed (h : a.Holds l) (hlt : 8 * a.vct.length < 2 ^ 64) : a.WellFormed where
  capacity_eq := by rw [h.capacity_eq, u64_of_lt hlt]
  capacity_lt := hlt
  length_le := by rw [h.bitIdx_eq]; exact h.length_le

theorem readable (h : a.Holds l) (hl : l.length + 7 < 2 ^ 64) : a.Readable where
  length_le := by rw [h.bitIdx_eq]; exact h.length_le
  length_lt := by rwa [h.bitIdx_eq]

theorem effectiveByteSize_eq (h : a.Holds l) (hl : l.length + 7 < 2 ^ 64) :
    a.effectiveByteSize = (l.length + 7) / 8 := by
  rw [BitArray.effectiveByteSize_eq (by rwa [h.bitIdx_eq]), h.bitIdx_eq]

/-- The effective bytes are the bits padded with zeros. -/
theorem unpack_effectiveBytes (h : a.Holds l) (hl : l.length + 7 < 2 ^ 64) :
    unpack a.effectiveBytes =
      l ++ List.replicate (8 * a.effectiveByteSize - l.length) false := by
  have heff := h.effectiveByteSize_eq hl
  have hle := h.length_le
  rw [effectiveBytes, unpack_take, h.unpack_eq, List.take_append, List.take_of_length_le (by omega),
    List.take_replicate, Nat.min_eq_left (by omega)]

theorem zeroPadded (h : a.Holds l) (hl : l.length + 7 < 2 ^ 64) : a.ZeroPadded := by
  rw [ZeroPadded, h.unpack_effectiveBytes hl, h.bits_eq, h.bitIdx_eq]

theorem ofLength {n : ℕ} (h0 : 0 < n) (hn : n + 7 < 2 ^ 64) :
    ∃ a, ofLength n = .ok a ∧ a.Holds [] ∧ a.vct.length = (n + 7) / 8 := by
  refine ⟨_, if_neg h0.ne', ⟨rfl, ?_, ?_⟩, ?_⟩
  · rw [List.length_replicate, Nat.mul_comm]
  · rw [unpack_replicate_zero, List.length_replicate]
    rfl
  · rw [List.length_replicate, bytesRequired_eq hn]

/-- Setting one bit behind the last one. -/
theorem set_append_replicate (l : List Bool) (x : Bool) {n : ℕ} (hn : l.length < n) :
    (l ++ List.replicate (n - l.length) false).set l.length x =
      (l ++ [x]) ++ List.replicate (n - (l.length + 1)) false := by
  obtain ⟨k, rfl⟩ := Nat.exists_eq_add_of_lt hn
  rw [show l.length + k + 1 - l.length = k + 1 by omega,
    show l.length + k + 1 - (l.length + 1) = k by omega, List.replicate_succ,
    List.set_append_right _ _ le_rfl, Nat.sub_self, List.set_cons_zero, List.append_assoc,
    List.singleton_append]

/-- Pushing a bit appends it, whether or not a byte is attached. -/
theorem pushBack (h : a.Holds l) (hlt : 8 * a.vct.length ≤ 2 ^ 64) (hl : l.length + 1 < 2 ^ 64)
    (hpos : 0 < a.vct.length) (value : Bool) :
    ∃ a', a.pushBack value = .ok a' ∧ a'.Holds (l ++ [value]) ∧
      a'.vct.length =
        if 8 * a.vct.length - 1 ≤ l.length then a.vct.length + 1 else a.vct.length := by
  have hle := h.length_le
  have hidx := h.bitIdx_eq
  obtain ⟨v, hpush, hroom, hv, hsize⟩ :=
    exists_pushBack h.capacity_eq hpos hlt (by omega) (by omega) value
  rw [hidx] at hpush hroom hv hsize
  have hge : a.vct.length ≤ v.length := by
    rw [hsize]
    split_ifs <;> omega
  have hlen : (l ++ [value]).length = l.length + 1 := by
    rw [List.length_append, List.length_singleton]
  refine ⟨_, hpush, ⟨hlen.symm, rfl, ?_⟩, hsize⟩
  change unpack v = (l ++ [value]) ++ List.replicate (8 * v.length - (l ++ [value]).length) false
  rw [hv, h.unpack_eq, List.append_assoc, ← List.replicate_add, hlen,
    show 8 * a.vct.length - l.length + 8 * (v.length - a.vct.length) =
      8 * v.length - l.length by omega,
    set_append_replicate l value (by omega)]

theorem clear : a.clear.Holds [] where
  bitIdx_eq := rfl
  capacity_eq := rfl
  unpack_eq := unpack_replicate_zero 1

/-- The bytes of an array of zeros behind the first `n`. -/
private theorem unpack_drop_of_zeros {v : List UInt8}
    (hv : unpack v = List.replicate (8 * v.length) false) (n : ℕ) :
    unpack (v.drop n) = List.replicate (8 * (v.length - n)) false := by
  refine List.eq_replicate_iff.mpr ⟨by rw [length_unpack, List.length_drop], fun b hb => ?_⟩
  have happ := congrArg unpack (List.take_append_drop n v)
  rw [unpack_append, hv] at happ
  exact List.eq_of_mem_replicate (happ ▸ List.mem_append_right _ hb)

/-- **Copying** keeps the bits; what is behind them in a target of zeros stays zero. -/
theorem copyAssign (h : o.Holds l) (ha : a.Holds []) (hl : l.length + 7 < 2 ^ 64) :
    ∃ a', a.copyAssign o = .ok a' ∧ a'.Holds l ∧ a'.vct.length = o.vct.length := by
  have hread := h.readable hl
  have heff := h.effectiveByteSize_eq hl
  have hle := h.length_le
  have hvlen := hread.length_copyAssign a
  refine ⟨_, hread.copyAssign_eq a, ⟨h.bitIdx_eq, ?_, ?_⟩, hvlen⟩
  · exact h.capacity_eq.trans (congrArg (fun n => u64 (8 * n)) hvlen.symm)
  · set w := resize a.vct o.vct.length 0 with hw
    have hwlen : w.length = o.vct.length := length_resize _ _ _
    have hwzero : unpack w = List.replicate (8 * w.length) false := by
      have ha0 := ha.unpack_eq
      rw [List.nil_append, List.length_nil, Nat.sub_zero] at ha0
      rw [hwlen, hw, unpack_resize, ha0, List.take_replicate, ← List.replicate_add]
      congr 1
      omega
    rw [unpack_append, h.unpack_effectiveBytes hl, unpack_drop_of_zeros hwzero, List.append_assoc,
      ← List.replicate_add, hvlen, hwlen]
    exact congrArg (fun n => l ++ List.replicate n false) (by omega)

end Holds

namespace HoldsWithin

variable {K : ℕ}

theorem inBounds (h : a.HoldsWithin K l) (hl : l.length < 2 ^ 64) : a.InBounds where
  length_le := by rw [h.bitIdx_eq]; exact h.length_le
  length_lt := by rwa [h.bitIdx_eq]

theorem pushBack (h : a.HoldsWithin K l) (hK : K ≤ 2 ^ 60) (hl : l.length + 1 < 2 ^ 64)
    (value : Bool) : ∃ a', a.pushBack value = .ok a' ∧ a'.HoldsWithin K (l ++ [value]) := by
  have hpos := h.size_pos
  have hle := h.size_le
  obtain ⟨a', hpush, hholds, hsize⟩ := h.toHolds.pushBack (by omega) hl hpos value
  refine ⟨a', hpush, hholds, ?_, ?_⟩
  · rw [hsize]
    split_ifs <;> omega
  · rw [hsize, List.length_append, List.length_singleton]
    split_ifs <;> omega

theorem clear (hK : 1 ≤ K) : a.clear.HoldsWithin K [] where
  toHolds := Holds.clear
  size_pos := Nat.one_pos
  size_le := le_max_of_le_left hK

theorem copyAssign (h : o.HoldsWithin K l) (ha : a.Holds []) (hl : l.length + 7 < 2 ^ 64) :
    ∃ a', a.copyAssign o = .ok a' ∧ a'.HoldsWithin K l := by
  obtain ⟨a', hcopy, hholds, hsize⟩ := h.toHolds.copyAssign ha hl
  exact ⟨a', hcopy, hholds, hsize ▸ h.size_pos, hsize ▸ h.size_le⟩

theorem copy (h : o.HoldsWithin K l) (hl : l.length + 7 < 2 ^ 64) :
    ∃ a', o.copy = .ok a' ∧ a'.HoldsWithin K l :=
  h.copyAssign ⟨rfl, rfl, rfl⟩ hl

end HoldsWithin

/-- A new codeword has no bits and 32 bytes. -/
theorem exists_new : ∃ a, HuffmanCode.new = .ok a ∧ a.HoldsWithin 32 [] := by
  obtain ⟨a, ha, hholds, hsize⟩ := Holds.ofLength (n := HuffmanCode.maxLength) (by decide)
    (by decide)
  exact ⟨a, ha, hholds, by rw [hsize]; decide, by rw [hsize]; decide⟩

end BitArray

end HafeCodec
