import Mathlib.Data.List.Basic
import Mathlib.Data.UInt
import Mathlib.Tactic.Linarith
import Mathlib.Tactic.Ring

/-!
# Strings of bytes as strings of bits and as numbers

A string of bytes is read as the string of its bits, the most significant bit of every byte first
(`BitString.unpack`), and as a number, the least significant byte first (`BitString.fromLE`).
Bit `i` of the string of bits is bit `i % 8` of byte `i / 8` (`BitString.getElem?_unpack`), so that
changing one bit of one byte changes one bit of the string (`BitString.unpack_set`).

## Main definitions

* `BitString.byteBits`, `BitString.unpack`.
* `BitString.toLE`, `BitString.fromLE`.

## Main results

* `BitString.getElem?_unpack`, `BitString.unpack_set`, `BitString.unpack_take`.
* `BitString.unpack_injective`, `BitString.exists_unpack`.
* `BitString.fromLE_toLE`, `BitString.toLE_fromLE`.
-/

namespace BitString

/-! ### Bits -/

/-- The bits of a byte, the most significant one first. -/
def byteBits (b : UInt8) : List Bool :=
  (List.range 8).map b.toBitVec.getMsbD

/-- The bits of a string of bytes. -/
def unpack (v : List UInt8) : List Bool :=
  v.flatMap byteBits

@[simp] theorem length_byteBits (b : UInt8) : (byteBits b).length = 8 := by
  rw [byteBits, List.length_map, List.length_range]

theorem getElem?_byteBits (b : UInt8) {i : ℕ} (hi : i < 8) :
    (byteBits b)[i]? = some (b.toBitVec.getMsbD i) := by
  rw [byteBits, List.getElem?_map, List.getElem?_range hi]
  rfl

theorem byteBits_injective : Function.Injective byteBits := by
  intro a b h
  refine UInt8.toBitVec_inj.mp (BitVec.eq_of_getMsbD_eq fun i hi => ?_)
  have hi' := congrArg (fun l => l[i]?) h
  rw [getElem?_byteBits a hi, getElem?_byteBits b hi] at hi'
  exact Option.some.inj hi'

theorem byteBits_zero : byteBits 0 = List.replicate 8 false := by
  decide

@[simp] theorem unpack_nil : unpack [] = [] :=
  rfl

@[simp] theorem unpack_cons (b : UInt8) (v : List UInt8) :
    unpack (b :: v) = byteBits b ++ unpack v :=
  List.flatMap_cons

@[simp] theorem unpack_append (v w : List UInt8) : unpack (v ++ w) = unpack v ++ unpack w :=
  List.flatMap_append

@[simp] theorem length_unpack (v : List UInt8) : (unpack v).length = 8 * v.length := by
  induction v with
  | nil => rfl
  | cons b v ih =>
    rw [unpack_cons, List.length_append, ih, length_byteBits, List.length_cons]
    ring

theorem unpack_replicate_zero (n : ℕ) :
    unpack (List.replicate n 0) = List.replicate (8 * n) false := by
  induction n with
  | zero => rfl
  | succ n ih =>
    rw [List.replicate_succ, unpack_cons, ih, byteBits_zero, ← List.replicate_add]
    congr 1
    ring

/-- **Bit `i` is bit `i % 8` of byte `i / 8`.** -/
theorem getElem?_unpack (v : List UInt8) (i : ℕ) :
    (unpack v)[i]? = v[i / 8]?.map fun b => b.toBitVec.getMsbD (i % 8) := by
  induction v generalizing i with
  | nil => rfl
  | cons b v ih =>
    rw [unpack_cons]
    rcases lt_or_ge i 8 with hi | hi
    · rw [List.getElem?_append_left (by rwa [length_byteBits]), getElem?_byteBits b hi,
        Nat.div_eq_of_lt hi, Nat.mod_eq_of_lt hi]
      rfl
    · rw [List.getElem?_append_right (by rwa [length_byteBits]), length_byteBits, ih]
      obtain ⟨j, rfl⟩ := Nat.exists_eq_add_of_le hi
      rw [Nat.add_sub_cancel_left, Nat.add_mod_left, show (8 + j) / 8 = j / 8 + 1 by omega,
        List.getElem?_cons_succ]

/-- Changing bit `i % 8` of byte `i / 8` changes bit `i`. -/
theorem unpack_set {v : List UInt8} {i : ℕ} {b c : UInt8} {x : Bool} (hb : v[i / 8]? = some b)
    (hc : ∀ j < 8, c.toBitVec.getMsbD j = if j = i % 8 then x else b.toBitVec.getMsbD j) :
    unpack (v.set (i / 8) c) = (unpack v).set i x := by
  refine List.ext_getElem? fun k => ?_
  have hlt : i / 8 < v.length := (List.getElem?_eq_some_iff.mp hb).1
  rw [getElem?_unpack, List.getElem?_set, List.getElem?_set, getElem?_unpack]
  by_cases hk : i / 8 = k / 8
  · rw [if_pos hk, if_pos (by omega), Option.map_some, hc _ (Nat.mod_lt k (by omega)), ← hk, hb,
      Option.map_some]
    by_cases hik : i = k
    · subst hik
      rw [if_pos rfl, if_pos rfl, if_pos (by rw [length_unpack]; omega)]
    · rw [if_neg (by omega), if_neg hik]
  · rw [if_neg hk, if_neg fun hik => hk (by rw [hik])]

theorem unpack_take (v : List UInt8) (n : ℕ) : unpack (v.take n) = (unpack v).take (8 * n) := by
  refine List.ext_getElem? fun i => ?_
  rw [getElem?_unpack, List.getElem?_take, List.getElem?_take, getElem?_unpack]
  by_cases h : i / 8 < n
  · rw [if_pos h, if_pos (by omega)]
  · rw [if_neg h, if_neg (by omega)]
    rfl

theorem unpack_injective : Function.Injective unpack := by
  intro v
  induction v with
  | nil =>
    intro w h
    have hlen := congrArg List.length h
    rw [length_unpack, length_unpack, List.length_nil] at hlen
    exact (List.eq_nil_of_length_eq_zero (by omega)).symm
  | cons b v ih =>
    intro w h
    cases w with
    | nil =>
      have hlen := congrArg List.length h
      rw [length_unpack, length_unpack, List.length_cons, List.length_nil] at hlen
      omega
    | cons c w =>
      obtain ⟨hbc, hvw⟩ := List.append_inj h (by rw [length_byteBits, length_byteBits])
      rw [byteBits_injective hbc, ih hvw]

/-- Eight bits are the bits of a byte. -/
theorem exists_byteBits {l : List Bool} (hl : l.length = 8) : ∃ b, byteBits b = l := by
  refine ⟨UInt8.ofBitVec ((BitVec.ofBoolListBE l).cast hl), List.ext_getElem? fun i => ?_⟩
  rcases lt_or_ge i 8 with hi | hi
  · rw [getElem?_byteBits _ hi, UInt8.toBitVec_ofBitVec, BitVec.getMsbD_cast,
      BitVec.getMsbD_ofBoolListBE, List.getD_eq_getElem?_getD,
      List.getElem?_eq_getElem (by omega), Option.getD_some]
  · rw [List.getElem?_eq_none (by rw [length_byteBits]; exact hi),
      List.getElem?_eq_none (by omega)]

/-- **Every string of whole bytes is unpacked** from one. -/
theorem exists_unpack {n : ℕ} {l : List Bool} (hl : l.length = 8 * n) :
    ∃ v, v.length = n ∧ unpack v = l := by
  induction n generalizing l with
  | zero => exact ⟨[], rfl, (List.eq_nil_of_length_eq_zero hl).symm⟩
  | succ n ih =>
    obtain ⟨b, hb⟩ := exists_byteBits (l := l.take 8) (by rw [List.length_take]; omega)
    obtain ⟨v, hv, hunpack⟩ := ih (l := l.drop 8) (by rw [List.length_drop]; omega)
    exact ⟨b :: v, by rw [List.length_cons, hv],
      by rw [unpack_cons, hb, hunpack, List.take_append_drop]⟩

/-! ### Little-endian numbers -/

/-- The `k` low bytes of a number, the least significant one first. -/
def toLE : ℕ → ℕ → List UInt8
  | 0, _ => []
  | k + 1, n => UInt8.ofNat n :: toLE k (n / 256)

/-- The number whose bytes are given, the least significant one first. -/
def fromLE : List UInt8 → ℕ
  | [] => 0
  | b :: v => b.toNat + 256 * fromLE v

@[simp] theorem length_toLE (k n : ℕ) : (toLE k n).length = k := by
  induction k generalizing n with
  | zero => rfl
  | succ k ih => rw [toLE, List.length_cons, ih]

theorem fromLE_lt (v : List UInt8) : fromLE v < 256 ^ v.length := by
  induction v with
  | nil => exact Nat.one_pos
  | cons b v ih =>
    have hb : b.toNat < 256 := b.toNat_lt
    rw [fromLE, List.length_cons, pow_succ]
    omega

/-- **A number that fits is read back.** -/
theorem fromLE_toLE {k n : ℕ} (h : n < 256 ^ k) : fromLE (toLE k n) = n := by
  induction k generalizing n with
  | zero =>
    rw [pow_zero] at h
    rw [toLE, fromLE]
    omega
  | succ k ih =>
    rw [pow_succ] at h
    rw [toLE, fromLE, ih (by omega), UInt8.toNat_ofNat']
    omega

/-- **The bytes of the number read are the bytes given.** -/
theorem toLE_fromLE (v : List UInt8) : toLE v.length (fromLE v) = v := by
  induction v with
  | nil => rfl
  | cons b v ih =>
    have hb : b.toNat < 256 := b.toNat_lt
    have hdiv : (b.toNat + 256 * fromLE v) / 256 = fromLE v := by omega
    have hhead : UInt8.ofNat (b.toNat + 256 * fromLE v) = b := by
      refine UInt8.toNat_inj.mp ?_
      rw [UInt8.toNat_ofNat']
      omega
    rw [List.length_cons, toLE, fromLE, hdiv, ih, hhead]

end BitString
