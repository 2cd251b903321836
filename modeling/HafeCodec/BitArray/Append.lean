import HafeCodec.BitArray.Bits

/-!
# Appending to a bit array

`operator+=` copies whole bytes when the target has no padding bits, and pushes the bits one by one
otherwise. Pushing attaches a byte as soon as one free bit is left, so that a free bit is left after
every push; it never fails on a well-formed array that has a byte. The block copy attaches bytes
only if the capacity in bits is less than the size in bytes that is needed, and fails if they are
needed but not attached. Where neither happens the bits of the operand are appended to those of the
target, whatever is found in the unused bits of the two arrays.

## Main definitions

* `BitArray.Extended`, `BitArray.Pushed`: what appending and pushing bits leaves behind.
* `BitArray.Appended`: as `BitArray.Extended`, the result being well-formed.
* `BitArray.blockSize`, `BitArray.blockRoom`: the bytes needed by the block copy, and those there.

## Main results

* `BitArray.WellFormed.exists_pushBack`, `BitArray.WellFormed.pushBack`: pushing a bit.
* `BitArray.WellFormed.exists_foldlM_pushBack`: pushing the bits of an array.
* `BitArray.WellFormed.exists_append_block`, `BitArray.WellFormed.append_block_eq_undefined`.
* `BitArray.WellFormed.exists_append`: appending an array that fits.
-/

open BitString

namespace HafeCodec

namespace BitArray

variable {a o : BitArray}

/-! ### Pushing bits -/

/-- Writing at the end of the part that is read. -/
private theorem take_set_succ {l : List Bool} {n : ℕ} (hn : n < l.length) (x : Bool) :
    (l.set n x).take (n + 1) = l.take n ++ [x] := by
  rw [List.take_add_one, List.take_set_of_le le_rfl, List.getElem?_set_self hn]
  rfl

/-- **Pushing a bit** on a well-formed array appends it, and leaves at least one free bit. -/
theorem WellFormed.exists_pushBack (h : a.WellFormed) (hpos : 0 < a.vct.length) (value : Bool) :
    ∃ a', a.pushBack value = .ok a' ∧ a'.bitCapacity = u64 (8 * a'.vct.length) ∧
      a'.bits = a.bits ++ [value] ∧ a'.bitIdx = a.bitIdx + 1 ∧
      a'.bitIdx < 8 * a'.vct.length ∧ a'.vct.length =
        if 8 * a.vct.length - 1 ≤ a.bitIdx then a.vct.length + 1 else a.vct.length := by
  have hle := h.length_le
  have hlt := h.capacity_lt
  have hcap : a.bitCapacity = u64 (8 * a.vct.length) := by
    rw [h.capacity_eq, u64_of_lt hlt]
  obtain ⟨v, hpush, hroom, hv, hsize⟩ :=
    BitArray.exists_pushBack hcap hpos hlt.le hle (by omega) value
  refine ⟨_, hpush, rfl, ?_, rfl, hroom, hsize⟩
  change (unpack v).take (a.bitIdx + 1) = a.bits ++ [value]
  rw [hv, take_set_succ (by
    rw [List.length_append, length_unpack, List.length_replicate]
    omega) value, List.take_append_of_le_length (by rwa [length_unpack])]
  rfl

/-- Pushing a bit keeps an array well-formed as long as its capacity does not wrap. -/
theorem WellFormed.pushBack (h : a.WellFormed) (hpos : 0 < a.vct.length)
    (hlt : a.bitIdx + 9 < 2 ^ 64) (value : Bool) :
    ∃ a', a.pushBack value = .ok a' ∧ a'.WellFormed ∧ a'.bits = a.bits ++ [value] ∧
      a'.bitIdx = a.bitIdx + 1 ∧ a'.vct.length =
        if 8 * a.vct.length - 1 ≤ a.bitIdx then a.vct.length + 1 else a.vct.length := by
  obtain ⟨a', ha', hcap, hbits, hidx, hroom, hsize⟩ := h.exists_pushBack hpos value
  have hcaplt := h.capacity_lt
  have hlt' : 8 * a'.vct.length < 2 ^ 64 := by
    rw [hsize]
    split_ifs <;> omega
  exact ⟨a', ha', ⟨by rw [hcap, u64_of_lt hlt'], hlt', hroom.le⟩, hbits, hidx, hsize⟩

/-- A byte that was attached stays. -/
theorem length_le_of_pushBack {a' : BitArray} {value : Bool} (h : a.pushBack value = .ok a') :
    a.vct.length ≤ a'.vct.length := by
  have hgrow : a.vct.length ≤ a.grow.vct.length := by
    rw [BitArray.grow]
    split_ifs
    · rw [List.length_append]
      exact Nat.le_add_right _ _
    · exact le_rfl
  rcases lt_or_ge a.bitIdx (8 * a.grow.vct.length) with hroom | hover
  · obtain ⟨v, hput, hv⟩ := exists_put hroom value
    rw [BitArray.pushBack, hput] at h
    obtain rfl := Except.ok.inj h
    exact hgrow.trans (length_of_unpack_eq_set hv).ge
  · rw [BitArray.pushBack, put_eq_undefined hover] at h
    cases h

/-- What appending the bits `l` leaves behind, whether or not the capacity wraps: the bits `l`
behind those of the array, in a vector that may have grown up to the byte behind the last bit. -/
structure Extended (a : BitArray) (l : List Bool) (a' : BitArray) : Prop where
  capacity_eq : a'.bitCapacity = u64 (8 * a'.vct.length)
  bits_eq : a'.bits = a.bits ++ l
  bitIdx_eq : a'.bitIdx = a.bitIdx + l.length
  size_ge : a.vct.length ≤ a'.vct.length
  size_le : a'.vct.length ≤ max a.vct.length ((a.bitIdx + l.length) / 8 + 1)

theorem WellFormed.extended_nil (h : a.WellFormed) : Extended a [] a where
  capacity_eq := by rw [h.capacity_eq, u64_of_lt h.capacity_lt]
  bits_eq := (List.append_nil _).symm
  bitIdx_eq := rfl
  size_ge := le_rfl
  size_le := le_max_left _ _

theorem Extended.trans {b c : BitArray} {l m : List Bool} (h : Extended a l b)
    (h' : Extended b m c) : Extended a (l ++ m) c := by
  have hidx := h.bitIdx_eq
  have hle := h.size_le
  have hle' := h'.size_le
  refine ⟨h'.capacity_eq, ?_, ?_, h.size_ge.trans h'.size_ge, ?_⟩
  · rw [h'.bits_eq, h.bits_eq, List.append_assoc]
  · rw [h'.bitIdx_eq, hidx, List.length_append, Nat.add_assoc]
  · rw [List.length_append]
    omega

/-- What pushing the bits `l` leaves behind: a free bit, if there was a bit to push. -/
structure Pushed (a : BitArray) (l : List Bool) (a' : BitArray) : Prop extends
    Extended a l a' where
  length_lt : l ≠ [] → a'.bitIdx < 8 * a'.vct.length

theorem WellFormed.pushed_nil (h : a.WellFormed) : Pushed a [] a where
  toExtended := h.extended_nil
  length_lt h := absurd rfl h

namespace Pushed

variable {a' : BitArray} {l : List Bool}

/-- The array stays well-formed as long as its capacity does not wrap. -/
theorem wellFormed (h : Pushed a l a') (ha : a.WellFormed)
    (hlt : a.bitIdx + l.length + 8 < 2 ^ 64) : a'.WellFormed := by
  have hsize := h.size_le
  have hge := h.size_ge
  have hcap := ha.capacity_lt
  have hle := ha.length_le
  have hidx := h.bitIdx_eq
  have hlt' : 8 * a'.vct.length < 2 ^ 64 := by omega
  refine ⟨by rw [h.capacity_eq, u64_of_lt hlt'], hlt', ?_⟩
  cases l with
  | nil => rw [hidx, List.length_nil]; omega
  | cons b l => exact (h.length_lt (List.cons_ne_nil b l)).le

/-- Pushing one more bit. -/
theorem pushBack (h : Pushed a l a') (ha : a.WellFormed) (hpos : 0 < a.vct.length)
    (hlt : a.bitIdx + l.length + 8 < 2 ^ 64) (value : Bool) :
    ∃ b, a'.pushBack value = .ok b ∧ Pushed a (l ++ [value]) b := by
  have hge := h.size_ge
  have hle := h.size_le
  have hidx := h.bitIdx_eq
  obtain ⟨b, hb, hcap, hbits, hbidx, hroom, hsize⟩ :=
    (h.wellFormed ha hlt).exists_pushBack (by omega) value
  refine ⟨b, hb, ⟨hcap, ?_, ?_, ?_, ?_⟩, fun _ => hroom⟩
  · rw [hbits, h.bits_eq, List.append_assoc]
  · rw [hbidx, hidx, List.length_append, List.length_singleton, Nat.add_assoc]
  · rw [hsize]
    split_ifs <;> omega
  · rw [hsize, List.length_append, List.length_singleton]
    split_ifs <;> omega

end Pushed

/-- **Pushing the first bits of an array** one by one. -/
theorem WellFormed.exists_foldlM_pushBack (ha : a.WellFormed) (ho : o.Readable)
    (hpos : 0 < a.vct.length) {n : ℕ} (hn : n ≤ o.bitIdx) (hlt : a.bitIdx + n + 7 < 2 ^ 64) :
    ∃ a', (List.range n).foldlM (fun a i => do a.pushBack (← o.get i)) a = .ok a' ∧
      Pushed a (o.bits.take n) a' := by
  have hlen := ho.length_bits
  refine ExceptFold.foldlM_range_ok (fun i t => Pushed a (o.bits.take i) t) ha.pushed_nil ?_
  intro i t hi ht
  have hio : i < o.bits.length := by omega
  have hget := get_eq_ok (List.getElem?_eq_getElem hio)
  have htake : (o.bits.take i).length = i := List.length_take_of_le hio.le
  obtain ⟨b, hb, hpush⟩ := ht.pushBack ha hpos (by omega) o.bits[i]
  refine ⟨b, by rw [hget, ExceptFold.ok_bind, hb], ?_⟩
  rwa [List.take_concat_get' _ _ hio] at hpush

/-! ### Copying bytes -/

/-- The bytes of the operand are copied behind those of the target. -/
private theorem bits_of_memcpy {v w : List UInt8} {n k m : ℕ} (hn : n ≤ v.length)
    (hm : m ≤ w.length) (hk : k ≤ 8 * m) :
    (unpack (v.take n ++ w.take m ++ v.drop (n + m))).take (8 * n + k) =
      (unpack v).take (8 * n) ++ (unpack w).take k := by
  rw [unpack_append, unpack_append, unpack_take, unpack_take, List.append_assoc]
  have hlenv : ((unpack v).take (8 * n)).length = 8 * n := by
    rw [List.length_take, length_unpack]
    omega
  rw [List.take_append, hlenv, List.take_of_length_le (by omega), Nat.add_sub_cancel_left,
    List.take_append_of_le_length (by rw [List.length_take, length_unpack]; omega), List.take_take,
    Nat.min_eq_left hk]

/-- The number of bytes that the two arrays take up one behind the other. -/
def blockSize (a o : BitArray) : ℕ :=
  (a.bitLength + 7) / 8 + (o.bitLength + 7) / 8

/-- The number of bytes in the vector when the block is copied. -/
def blockRoom (a o : BitArray) : ℕ :=
  if a.bitCapacity < blockSize a o then blockSize a o else a.vct.length

/-- The vector into which the block is copied. -/
private theorem block_spec (ha : a.WellFormed) (n : ℕ) (hn : a.bitIdx ≤ 8 * n) (p : Prop)
    [Decidable p] :
    (if p then resize a.vct n 0 else a.vct).length = (if p then n else a.vct.length) ∧
      (unpack (if p then resize a.vct n 0 else a.vct)).take a.bitIdx = a.bits := by
  have hle := ha.length_le
  by_cases hp : p
  · rw [if_pos hp, if_pos hp, length_resize, unpack_resize,
      List.take_append_of_le_length (by rw [List.length_take, length_unpack]; omega),
      List.take_take, Nat.min_eq_left hn]
    exact ⟨rfl, rfl⟩
  · rw [if_neg hp, if_neg hp]
    exact ⟨rfl, rfl⟩

/-- **Copying a block** that fits into the vector. -/
theorem WellFormed.exists_append_block (ha : a.WellFormed) (ho : o.Readable) (h0 : o.bitIdx ≠ 0)
    (hmod : a.bitIdx % 8 = 0) (hroom : blockSize a o ≤ blockRoom a o) :
    ∃ v, a.append o = .ok ⟨v, u64 (a.bitIdx + o.bitIdx), u64 (8 * blockRoom a o)⟩ ∧
      v.length = blockRoom a o ∧ (unpack v).take (a.bitIdx + o.bitIdx) = a.bits ++ o.bits := by
  have hsz := ha.readable.effectiveByteSize_eq
  have hosz := ho.effectiveByteSize_eq
  have hole := ho.effectiveByteSize_le
  have hsize : blockSize a o = a.effectiveByteSize + o.effectiveByteSize := by
    rw [blockSize, hsz, hosz, bitLength, bitLength]
  obtain ⟨hlen, hbits⟩ := block_spec ha (blockSize a o) (by omega)
    (a.bitCapacity < blockSize a o)
  rw [hsize] at hlen hbits
  set block := if a.bitCapacity < a.effectiveByteSize + o.effectiveByteSize then
    resize a.vct (a.effectiveByteSize + o.effectiveByteSize) 0 else a.vct with hblock
  have hlen' : block.length = blockRoom a o := by
    rw [hlen, blockRoom, hsize]
  have hfits : a.effectiveByteSize + o.effectiveByteSize ≤ block.length := by
    rw [hlen', ← hsize]
    exact hroom
  have hpad : a.hasPaddingBits = false := by
    rw [hasPaddingBits, hmod]
    rfl
  refine ⟨block.take a.effectiveByteSize ++ o.vct.take o.effectiveByteSize ++
    block.drop (a.effectiveByteSize + o.effectiveByteSize), ?_, ?_, ?_⟩
  · rw [BitArray.append, bitLength, if_neg h0, if_pos hpad]
    dsimp only
    rw [← hblock, memcpy_eq_ok hfits hole, ExceptFold.ok_bind, ← hlen']
    congr 3
    rw [List.length_append, List.length_append, List.length_take, List.length_take,
      List.length_drop]
    omega
  · rw [← hlen', List.length_append, List.length_append, List.length_take, List.length_take,
      List.length_drop]
    omega
  · have hidx : a.bitIdx = 8 * a.effectiveByteSize := by omega
    rw [hidx] at hbits ⊢
    rw [bits_of_memcpy (by omega) hole (by omega), hbits]
    rfl

/-- **Copying a block** that does not fit into the vector is undefined behaviour. -/
theorem WellFormed.append_block_eq_undefined (ha : a.WellFormed) (ho : o.Readable)
    (h0 : o.bitIdx ≠ 0) (hmod : a.bitIdx % 8 = 0) (hroom : blockRoom a o < blockSize a o) :
    a.append o = .error .undefined := by
  have hsize : blockSize a o = a.effectiveByteSize + o.effectiveByteSize := by
    rw [blockSize, ha.readable.effectiveByteSize_eq, ho.effectiveByteSize_eq, bitLength, bitLength]
  have hpad : a.hasPaddingBits = false := by
    rw [hasPaddingBits, hmod]
    rfl
  rw [blockRoom] at hroom
  split_ifs at hroom with hcap
  · exact absurd hroom (lt_irrefl _)
  · rw [BitArray.append, bitLength, if_neg h0, if_pos hpad]
    dsimp only
    rw [← hsize, if_neg hcap, memcpy, if_neg (by omega)]
    rfl

/-! ### Appending an array that fits -/

/-- What `operator+=` leaves behind: the bits of both arrays, in a vector that may have grown up to
the byte behind the last bit. -/
structure Appended (a : BitArray) (l : List Bool) (a' : BitArray) : Prop extends a'.WellFormed where
  bits_eq : a'.bits = a.bits ++ l
  bitIdx_eq : a'.bitIdx = a.bitIdx + l.length
  size_ge : a.vct.length ≤ a'.vct.length
  size_le : a'.vct.length ≤ max a.vct.length ((a.bitIdx + l.length) / 8 + 1)

theorem Appended.extended {a' : BitArray} {l : List Bool} (h : Appended a l a') :
    Extended a l a' where
  capacity_eq := by rw [h.capacity_eq, u64_of_lt h.capacity_lt]
  bits_eq := h.bits_eq
  bitIdx_eq := h.bitIdx_eq
  size_ge := h.size_ge
  size_le := h.size_le

/-- Copying a block that fits into the capacity. -/
theorem WellFormed.append_block (ha : a.WellFormed) (ho : o.Readable) (h0 : o.bitIdx ≠ 0)
    (hmod : a.bitIdx % 8 = 0) (hroom : a.bitIdx + o.bitIdx ≤ 8 * a.vct.length) :
    ∃ a', a.append o = .ok a' ∧ Appended a o.bits a' := by
  have hcap := ha.capacity_eq
  have hlt := ha.capacity_lt
  have hsize : blockSize a o ≤ a.vct.length := by
    rw [blockSize, bitLength, bitLength]
    omega
  have hblock : blockRoom a o = a.vct.length := by
    rw [blockRoom, if_neg (by omega)]
  obtain ⟨v, happ, hlen, hbits⟩ := ha.exists_append_block ho h0 hmod (by rwa [hblock])
  rw [hblock, u64_of_lt (by omega), u64_of_lt hlt, ← hcap] at happ
  rw [hblock] at hlen
  refine ⟨_, happ, ha.of_length_eq hlen hroom, hbits, ?_, hlen.ge,
    hlen.le.trans (le_max_left _ _)⟩
  rw [ho.length_bits]

/-- Pushing the bits of an array one by one. -/
theorem append_eq_foldlM (h0 : o.bitIdx ≠ 0) (hmod : a.bitIdx % 8 ≠ 0) :
    a.append o = (List.range o.bitIdx).foldlM (fun a i => do a.pushBack (← o.get i)) a := by
  have hpad : a.hasPaddingBits = true := by
    rw [hasPaddingBits, bne_iff_ne]
    exact hmod
  rw [BitArray.append, bitLength, if_neg h0, if_neg (by rw [hpad]; decide)]

/-- **Appending an array that fits** appends its bits and makes no access outside of the vector. -/
theorem WellFormed.exists_append (ha : a.WellFormed) (ho : o.Readable) (hpos : 0 < a.vct.length)
    (hroom : a.bitIdx + o.bitIdx ≤ 8 * a.vct.length) :
    ∃ a', a.append o = .ok a' ∧ Extended a o.bits a' := by
  have hlen := ho.length_bits
  have hlt := ha.capacity_lt
  by_cases h0 : o.bitIdx = 0
  · have hnil : o.bits = [] := List.eq_nil_of_length_eq_zero (hlen.trans h0)
    exact ⟨a, if_pos h0, hnil ▸ ha.extended_nil⟩
  by_cases hmod : a.bitIdx % 8 = 0
  · obtain ⟨a', ha', happ⟩ := ha.append_block ho h0 hmod hroom
    exact ⟨a', ha', happ.extended⟩
  · obtain ⟨a', ha', hpush⟩ := ha.exists_foldlM_pushBack ho hpos le_rfl (by omega)
    rw [List.take_of_length_le hlen.le] at hpush
    exact ⟨a', (append_eq_foldlM h0 hmod).trans ha', hpush.toExtended⟩

end BitArray

end HafeCodec
