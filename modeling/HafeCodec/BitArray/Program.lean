import HafeCodec.BitArray.Append
import HafeCodec.BitArray.Observation

/-!
# Programs on bit arrays

A program is a sequence of constructor calls and of operations on several arrays. What it computes
is stated by a program on lists of bits: an array is the list of its bits, and nothing of the unused
bits and bytes, the capacity or the size of the vector shows (`BitArray.program_refines`). Stale
bits are left behind by `pop_back`, by a copy into a longer vector and by the constructors that take
over bytes; that they never come back is the invariant `BitArray.Represents`, since a push writes
the bit that it makes part of the array.

The capacity counts bits in 64 bits. It wraps to zero for a vector of `2^61` bytes, which can be
handed to a constructor or be reached by pushing; the refinement holds up to that size.

## Main definitions

* `BitArray.Represents`: the array is well-formed and shows a list of bits.
* `BitArray.Op`, `BitArray.Op.exec`, `BitArray.Op.apply`: programs on arrays and on lists.
* `BitArray.Op.Legal`, `BitArray.Op.InRange`: what the caller ensures, and the bounds.
* `BitArray.Refines`, `BitArray.Refined`.

## Main results

* `BitArray.Refines.exists_exec`: one operation.
* `BitArray.program_refines`.
-/

open BitString ExceptFold

namespace HafeCodec

namespace BitArray

variable {a o : BitArray} {l : List Bool}

/-- The array is well-formed with a capacity of at least eight bits, and its length, its bits, its
last bit and its string are those of the list. -/
structure Represents (a : BitArray) (l : List Bool) : Prop extends a.WellFormed where
  capacity_ge : 8 ≤ a.bitCapacity
  shows : a.Shows l
  back_eq : ∀ hne : l ≠ [], a.back = .ok (l.getLast hne)
  str_eq : a.str = .ok (l.map fun b => UInt8.ofNat (b.toNat + 48))

theorem WellFormed.represents (h : a.WellFormed) (hpos : 0 < a.vct.length) (hbits : a.bits = l) :
    a.Represents l := by
  have hshows := h.readable.shows_iff.mpr hbits
  exact ⟨h, by rw [h.capacity_eq]; omega, hshows, hshows.back_eq, hshows.str_eq⟩

namespace Represents

variable (h : a.Represents l)

include h

theorem bits_eq : a.bits = l :=
  h.readable.shows_iff.mp h.shows

theorem bitIdx_eq : a.bitIdx = l.length :=
  h.shows.bitLength_eq

theorem size_pos : 0 < a.vct.length := by
  have hcap := h.capacity_ge
  rw [h.capacity_eq] at hcap
  omega

/-! ### The operations -/

theorem pushBack (hlt : l.length + 9 < 2 ^ 64) (value : Bool) :
    ∃ a', a.pushBack value = .ok a' ∧ a'.Represents (l ++ [value]) := by
  obtain ⟨a', ha', hwf, hbits, -, hsize⟩ :=
    h.toWellFormed.pushBack h.size_pos (by rwa [h.bitIdx_eq]) value
  refine ⟨a', ha', hwf.represents ?_ (by rw [hbits, h.bits_eq])⟩
  have hpos := h.size_pos
  rw [hsize]
  split_ifs <;> omega

theorem popBack (hne : l ≠ []) : a.popBack.Represents l.dropLast := by
  have hlen := List.length_pos_iff.mpr hne
  have hle := h.length_le
  have hidx := h.bitIdx_eq
  have hpred : a.popBack.bitIdx = a.bitIdx - 1 := by
    rw [BitArray.popBack, u64Pred, if_neg (by omega)]
  have hwf : a.popBack.WellFormed :=
    h.of_length_eq rfl (hpred.trans_le ((Nat.sub_le _ _).trans hle))
  refine hwf.represents h.size_pos ?_
  rw [← h.bits_eq, bits, hpred, List.dropLast_eq_take, h.readable.length_bits, bits,
    List.take_take, Nat.min_eq_left (Nat.sub_le _ _)]
  rfl

omit h in
theorem clear (a : BitArray) : a.clear.Represents [] :=
  (Holds.clear.wellFormed (by decide : 8 * 1 < 2 ^ 64)).represents Nat.one_pos Holds.clear.bits_eq

/-- Writing a bit within the capacity; one behind the end of the array does not show. -/
theorem put {i : ℕ} (hi : i < a.bitCapacity) (value : Bool) :
    ∃ a', a.put i value = .ok a' ∧ a'.Represents (l.set i value) := by
  have hle := h.length_le
  rw [h.capacity_eq] at hi
  obtain ⟨v, hput, hv⟩ := exists_put hi value
  have hlen := length_of_unpack_eq_set hv
  refine ⟨_, hput, (h.of_length_eq hlen hle).represents (h.size_pos.trans_le hlen.ge) ?_⟩
  change (unpack v).take a.bitIdx = l.set i value
  rw [hv, List.take_set, ← h.bits_eq, bits]

end Represents

/-- A copy has the bits of the array copied, whatever was in the target. -/
theorem Represents.copyAssign (h : o.Represents l) (a : BitArray) :
    ∃ a', a.copyAssign o = .ok a' ∧ a'.Represents l := by
  have hsize := h.readable.length_effectiveBytes
  have hbytes : o.bitIdx ≤ (unpack o.effectiveBytes).length := by
    rw [length_unpack, hsize]
    omega
  have hlen := h.readable.length_copyAssign a
  refine ⟨_, h.readable.copyAssign_eq a,
    (h.of_length_eq hlen h.length_le).represents (h.size_pos.trans_le hlen.ge) ?_⟩
  change (unpack (o.effectiveBytes ++ _)).take o.bitIdx = l
  rw [unpack_append, List.take_append_of_le_length hbytes, h.readable.take_unpack_effectiveBytes,
    h.bits_eq]

/-! ### The constructors -/

theorem exists_ofLength {n : ℕ} (h0 : 0 < n) (hn : n ≤ 2 ^ 63) :
    ∃ a, ofLength n = .ok a ∧ a.Represents [] := by
  obtain ⟨a, ha, hholds, hsize⟩ := Holds.ofLength h0 (show n + 7 < 2 ^ 64 by omega)
  exact ⟨a, ha, (hholds.wellFormed (by omega)).represents (by omega) hholds.bits_eq⟩

theorem exists_ofPointer {v : List BitArray8} {byteLength n : ℕ} (h0 : 0 < n) (hn : n ≤ 2 ^ 63)
    (hv : byteLength ≤ v.length)
    (hthrow : ∀ what, ofPointer v byteLength n ≠ .error (.runtimeError what)) :
    ∃ a, ofPointer v byteLength n = .ok a ∧ a.Represents ((unpack v).take n) := by
  have hreq : bytesRequired n = (n + 7) / 8 := bytesRequired_eq (by omega)
  have hfits : bytesRequired n ≤ byteLength :=
    le_of_not_gt fun hlt => hthrow _ (if_pos hlt)
  have hlen : (v.take (bytesRequired n)).length = bytesRequired n :=
    List.length_take_of_le (hfits.trans hv)
  refine ⟨_, ofPointer_eq_ok h0 (by omega) hfits hv, WellFormed.represents ⟨rfl, ?_, ?_⟩ ?_ ?_⟩
  · change 8 * (v.take (bytesRequired n)).length < 2 ^ 64
    omega
  · change n ≤ 8 * (v.take (bytesRequired n)).length
    omega
  · change 0 < (v.take (bytesRequired n)).length
    omega
  · change (unpack (v.take (bytesRequired n))).take n = (unpack v).take n
    rw [unpack_take, List.take_take, Nat.min_eq_left (by omega)]

theorem exists_ofVector {v : List BitArray8} {n : ℕ} (hn : n ≤ 2 ^ 63) (hv : v.length < 2 ^ 61)
    (hthrow : ∀ what, ofVector v n ≠ .error (.runtimeError what)) :
    ∃ a, ofVector v n = .ok a ∧ a.Represents ((unpack v).take n) := by
  have hreq : bytesRequired n = (n + 7) / 8 := bytesRequired_eq (by omega)
  have hpos : v.length ≠ 0 := fun h0 => hthrow _ (if_pos h0)
  have hfits : ¬ v.length < bytesRequired n := fun hlt =>
    hthrow _ (by rw [ofVector, if_neg hpos, if_pos hlt])
  have hlt : 8 * v.length < 2 ^ 64 := by omega
  have hle : n ≤ 8 * v.length := by omega
  exact ⟨_, ofVector_eq_ok (Nat.pos_of_ne_zero hpos) (by omega) hle hlt,
    WellFormed.represents ⟨rfl, hlt, hle⟩ (Nat.pos_of_ne_zero hpos) rfl⟩

/-! ### Programs -/

/-- The operations of a program on arrays named by `ι`. A constructor call makes a new array. -/
inductive Op (ι : Type)
  | ofLength (x : ι) (bitLength : ℕ)
  | ofPointer (x : ι) (vct : List BitArray8) (byteLength bitLength : ℕ)
  | ofVector (x : ι) (moveableVector : List BitArray8) (bitLength : ℕ)
  | copy (x y : ι)
  | copyAssign (x y : ι)
  | pushBack (x : ι) (value : Bool)
  | popBack (x : ι)
  | clear (x : ι)
  | put (x : ι) (i : ℕ) (value : Bool)

variable {ι : Type}

/-- The array named `x`, which has to be constructed. -/
def fetch (σ : ι → Option BitArray) (x : ι) : Outcome BitArray :=
  match σ x with
  | some a => .ok a
  | none => .error .undefined

namespace Op

/-- The operation as the source performs it. -/
def exec [DecidableEq ι] (σ : ι → Option BitArray) : Op ι → Outcome (ι → Option BitArray)
  | ofLength x bitLength => do
    let a ← BitArray.ofLength bitLength
    return Function.update σ x (some a)
  | ofPointer x vct byteLength bitLength => do
    let a ← BitArray.ofPointer vct byteLength bitLength
    return Function.update σ x (some a)
  | ofVector x moveableVector bitLength => do
    let a ← BitArray.ofVector moveableVector bitLength
    return Function.update σ x (some a)
  | copy x y => do
    let o ← fetch σ y
    let a ← o.copy
    return Function.update σ x (some a)
  | copyAssign x y => do
    let a ← fetch σ x
    let o ← fetch σ y
    let a' ← a.copyAssign o
    return Function.update σ x (some a')
  | pushBack x value => do
    let a ← fetch σ x
    let a' ← a.pushBack value
    return Function.update σ x (some a')
  | popBack x => do
    let a ← fetch σ x
    return Function.update σ x (some a.popBack)
  | clear x => do
    let a ← fetch σ x
    return Function.update σ x (some a.clear)
  | put x i value => do
    let a ← fetch σ x
    let a' ← a.put i value
    return Function.update σ x (some a')

/-- The operation on lists of bits. A bit written behind the end of a list is dropped. -/
def apply [DecidableEq ι] (τ : ι → Option (List Bool)) : Op ι → ι → Option (List Bool)
  | ofLength x _ => Function.update τ x (some [])
  | ofPointer x vct _ bitLength => Function.update τ x (some ((unpack vct).take bitLength))
  | ofVector x moveableVector bitLength =>
    Function.update τ x (some ((unpack moveableVector).take bitLength))
  | copy x y => Function.update τ x (τ y)
  | copyAssign x y => Function.update τ x (τ y)
  | pushBack x value => Function.update τ x ((τ x).map fun l => l ++ [value])
  | popBack x => Function.update τ x ((τ x).map fun l => l.dropLast)
  | clear x => Function.update τ x ((τ x).map fun _ => [])
  | put x i value => Function.update τ x ((τ x).map fun l => l.set i value)

/-- What a caller has to ensure: the operands are constructed and distinct, a constructor gets a bit
length between `1` and `2^63` and does not throw, the buffer has the bytes announced, `pop_back`
finds a bit, and a bit is written within the capacity. -/
def Legal (σ : ι → Option BitArray) : Op ι → Prop
  | ofLength _ bitLength => 1 ≤ bitLength ∧ bitLength ≤ 2 ^ 63
  | ofPointer _ vct byteLength bitLength =>
    (1 ≤ bitLength ∧ bitLength ≤ 2 ^ 63) ∧ byteLength ≤ vct.length ∧
      ∀ what, BitArray.ofPointer vct byteLength bitLength ≠ .error (.runtimeError what)
  | ofVector _ moveableVector bitLength =>
    (1 ≤ bitLength ∧ bitLength ≤ 2 ^ 63) ∧
      ∀ what, BitArray.ofVector moveableVector bitLength ≠ .error (.runtimeError what)
  | copy x y => x ≠ y ∧ ∃ o, σ y = some o
  | copyAssign x y => x ≠ y ∧ (∃ a, σ x = some a) ∧ ∃ o, σ y = some o
  | pushBack x _ => ∃ a, σ x = some a
  | popBack x => ∃ a, σ x = some a ∧ a.empty = false
  | clear x => ∃ a, σ x = some a
  | put x i _ => ∃ a, σ x = some a ∧ i < a.bitCapacity

/-- The operation keeps the size of the vector below `2^61` bytes, where its capacity in bits still
fits into 64 bits. -/
def InRange (σ : ι → Option BitArray) : Op ι → Prop
  | ofVector _ moveableVector _ => moveableVector.length < 2 ^ 61
  | pushBack x _ => ∀ a, σ x = some a → a.bitLength + 9 < 2 ^ 64
  | _ => True

end Op

/-- Every array that was constructed represents its list. -/
def Refines (σ : ι → Option BitArray) (τ : ι → Option (List Bool)) : Prop :=
  ∀ x, Option.Rel Represents (σ x) (τ x)

section Refinement

variable {σ : ι → Option BitArray} {τ : ι → Option (List Bool)} {x y : ι}

theorem refines_empty : Refines (fun _ : ι => none) (fun _ => none) :=
  fun _ => .none

theorem fetch_eq_ok (hx : σ x = some a) : fetch σ x = .ok a := by
  rw [fetch, hx]

theorem Refines.exists_of_eq_some (h : Refines σ τ) (hx : σ x = some a) :
    ∃ l, τ x = some l ∧ a.Represents l := by
  have hrel := h x
  rw [hx] at hrel
  cases hτ : τ x with
  | none => rw [hτ] at hrel; cases hrel
  | some l => rw [hτ] at hrel; cases hrel with | some ha => exact ⟨l, rfl, ha⟩

variable [DecidableEq ι]

theorem Refines.update (h : Refines σ τ) (x : ι) (ha : a.Represents l) :
    Refines (Function.update σ x (some a)) (Function.update τ x (some l)) := by
  intro y
  by_cases hy : y = x
  · rw [hy, Function.update_self, Function.update_self]
    exact .some ha
  · rw [Function.update_of_ne hy, Function.update_of_ne hy]
    exact h y

/-- An operation that changes one array. -/
theorem Refines.exists_modify (h : Refines σ τ) (hx : σ x = some a)
    {f : BitArray → Outcome BitArray} {g : List Bool → List Bool}
    (hf : ∀ l, a.Represents l → ∃ a', f a = .ok a' ∧ a'.Represents (g l)) :
    ∃ σ', (do
        let a ← fetch σ x
        let a' ← f a
        return Function.update σ x (some a') : Outcome (ι → Option BitArray)) = .ok σ' ∧
      Refines σ' (Function.update τ x ((τ x).map g)) := by
  obtain ⟨l, hl, hrep⟩ := h.exists_of_eq_some hx
  obtain ⟨a', ha', hrep'⟩ := hf l hrep
  refine ⟨_, by rw [fetch_eq_ok hx, ExceptFold.ok_bind, ha']; rfl, ?_⟩
  rw [hl]
  exact h.update x hrep'

/-- **One operation.** -/
theorem Refines.exists_exec (h : Refines σ τ) (op : Op ι) (hlegal : op.Legal σ)
    (hrange : op.InRange σ) : ∃ σ', op.exec σ = .ok σ' ∧ Refines σ' (op.apply τ) := by
  cases op with
  | ofLength x n =>
    obtain ⟨a, ha, hrep⟩ := exists_ofLength hlegal.1 hlegal.2
    exact ⟨_, by rw [Op.exec, ha]; rfl, h.update x hrep⟩
  | ofPointer x v byteLength n =>
    obtain ⟨⟨h0, hn⟩, hv, hthrow⟩ := hlegal
    obtain ⟨a, ha, hrep⟩ := exists_ofPointer h0 hn hv hthrow
    exact ⟨_, by rw [Op.exec, ha]; rfl, h.update x hrep⟩
  | ofVector x v n =>
    obtain ⟨⟨-, hn⟩, hthrow⟩ := hlegal
    obtain ⟨a, ha, hrep⟩ := exists_ofVector hn hrange hthrow
    exact ⟨_, by rw [Op.exec, ha]; rfl, h.update x hrep⟩
  | copy x y =>
    obtain ⟨-, o, ho⟩ := hlegal
    obtain ⟨l, hl, hrep⟩ := h.exists_of_eq_some ho
    obtain ⟨a, ha, hrep'⟩ := hrep.copyAssign ⟨[], 0, 0⟩
    refine ⟨_, by rw [Op.exec, fetch_eq_ok ho, ExceptFold.ok_bind, BitArray.copy, ha]; rfl, ?_⟩
    rw [Op.apply, hl]
    exact h.update x hrep'
  | copyAssign x y =>
    obtain ⟨-, ⟨a, ha⟩, o, ho⟩ := hlegal
    obtain ⟨l, hl, hrep⟩ := h.exists_of_eq_some ho
    obtain ⟨a', ha', hrep'⟩ := hrep.copyAssign a
    refine ⟨_, by
      rw [Op.exec, fetch_eq_ok ha, ExceptFold.ok_bind, fetch_eq_ok ho, ExceptFold.ok_bind, ha']
      rfl, ?_⟩
    rw [Op.apply, hl]
    exact h.update x hrep'
  | pushBack x value =>
    obtain ⟨a, ha⟩ := hlegal
    refine h.exists_modify ha fun l hrep => hrep.pushBack ?_ value
    rw [← hrep.bitIdx_eq]
    exact hrange a ha
  | popBack x =>
    obtain ⟨a, ha, hne⟩ := hlegal
    refine h.exists_modify (f := fun a => .ok a.popBack) ha fun l hrep =>
      ⟨_, rfl, hrep.popBack ?_⟩
    rintro rfl
    rw [BitArray.empty, hrep.bitIdx_eq] at hne
    cases hne
  | clear x =>
    obtain ⟨a, ha⟩ := hlegal
    exact h.exists_modify (f := fun a => .ok a.clear) ha fun _ _ =>
      ⟨_, rfl, Represents.clear a⟩
  | put x i value =>
    obtain ⟨a, ha, hi⟩ := hlegal
    exact h.exists_modify ha fun l hrep => hrep.put hi value

variable {ops done : List (Op ι)}

/-- The program makes no access outside of a vector, and leaves arrays that represent the lists
which the list program computes. -/
def Refined (ops : List (Op ι)) : Prop :=
  ∃ σ, ops.foldlM Op.exec (fun _ => none) = .ok σ ∧ Refines σ (ops.foldl Op.apply fun _ => none)

/-- **Refinement of programs.** In a program whose operations are legal and keep the vectors below
`2^61` bytes, the arrays represent the lists of the list program after every operation. -/
theorem program_refines
    (h : LegalRun (fun σ op => op.Legal σ ∧ op.InRange σ) Op.exec (fun _ => none) ops)
    (hdone : done <+: ops) : Refined done := by
  obtain ⟨rest, rfl⟩ := hdone
  exact foldlM_simulates (g := Op.apply) (fun _ _ op hR hop => hR.exists_exec op hop.1 hop.2)
    refines_empty h.of_append

end Refinement

/-- A program in which a bit that was removed could come back. -/
def staleProgram : List (Op (Fin 2)) :=
  [.ofVector 0 [255] 8, .popBack 0, .copy 1 0, .pushBack 1 false]

theorem program_refines_stale : Refined staleProgram := by
  refine program_refines ?_ List.prefix_rfl
  rw [staleProgram]
  refine .cons ⟨⟨by decide, fun what hwhat => ?_⟩, ?_⟩ rfl ?_
  · cases hwhat
  · exact (by decide : 1 < 2 ^ 61)
  refine .cons ⟨⟨_, rfl, rfl⟩, trivial⟩ rfl ?_
  refine .cons ⟨⟨by decide, _, rfl⟩, trivial⟩ rfl ?_
  refine .cons ⟨⟨_, rfl⟩, fun a ha => ?_⟩ rfl trivial
  obtain rfl := Option.some.inj ha
  decide

/-! ### Where the capacity wraps -/

section Wrap

variable [DecidableEq ι] {σ : ι → Option BitArray} {x : ι}

/-- Pushing is legal whatever the length. -/
theorem legalRun_pushBack (hx : ∃ a, σ x = some a) (n : ℕ) (value : Bool) :
    LegalRun Op.Legal Op.exec σ (List.replicate n (.pushBack x value)) := by
  induction n generalizing σ with
  | zero => trivial
  | succ n ih =>
    refine ⟨hx, fun σ' hσ' => ih ?_⟩
    rw [Op.exec, bind_eq_ok_iff] at hσ'
    obtain ⟨a, -, hpush⟩ := hσ'
    rw [bind_eq_ok_iff] at hpush
    obtain ⟨a', -, hσ'⟩ := hpush
    obtain rfl := Except.ok.inj hσ'
    exact ⟨a', Function.update_self x (some a') σ⟩

/-- Pushing below the bound. -/
theorem Represents.foldlM_pushBack (h : a.Represents l) (hx : σ x = some a) {n : ℕ}
    (hlt : l.length + n + 8 < 2 ^ 64) (value : Bool) :
    ∃ σ' a', (List.replicate n (.pushBack x value)).foldlM Op.exec σ = .ok σ' ∧
      σ' x = some a' ∧ a'.Represents (l ++ List.replicate n value) := by
  induction n generalizing σ a l with
  | zero => exact ⟨σ, a, rfl, hx, by rwa [List.replicate_zero, List.append_nil]⟩
  | succ n ih =>
    obtain ⟨b, hb, hrep⟩ := h.pushBack (by omega) value
    have hexec : Op.exec σ (.pushBack x value) = .ok (Function.update σ x (some b)) := by
      rw [Op.exec, fetch_eq_ok hx, ExceptFold.ok_bind, hb]
      rfl
    have hlen : (l ++ [value]).length = l.length + 1 := by
      rw [List.length_append, List.length_singleton]
    obtain ⟨σ', a', hrun, hx', hrep'⟩ := ih hrep (Function.update_self x (some b) σ) (by omega)
    refine ⟨σ', a', ?_, hx', ?_⟩
    · rw [List.replicate_succ, List.foldlM_cons, hexec, ExceptFold.ok_bind, hrun]
    · rwa [List.append_assoc] at hrep'

end Wrap

/-- A vector of `2^61` bytes is handed to a constructor. -/
def vectorProgram : List (Op Unit) :=
  [.ofVector () (List.replicate (2 ^ 61) 0) 1]

/-- Bits are pushed until a byte is attached to `2^61 - 1` bytes. -/
def pushProgram : List (Op Unit) :=
  .ofLength () 1 :: List.replicate (2 ^ 64 - 8) (.pushBack () true)

/-- The capacity of `2^61` bytes is zero. -/
theorem ofVector_eq_wrap {v : List BitArray8} (hv : v.length = 2 ^ 61) :
    ofVector v 1 = .ok ⟨v, 1, 0⟩ := by
  rw [ofVector, hv, if_neg (by decide), if_neg (by decide)]
  rfl

private theorem vectorProgram_wraps {v : List BitArray8} (hv : v.length = 2 ^ 61) :
    LegalRun Op.Legal Op.exec (fun _ : Unit => none) [.ofVector () v 1] ∧
      ¬ Refined [.ofVector () v 1] := by
  have hof := ofVector_eq_wrap hv
  refine ⟨⟨⟨by decide, fun what h => ?_⟩, fun _ _ => trivial⟩, ?_⟩
  · rw [hof] at h
    cases h
  · rintro ⟨σ, hrun, hrefines⟩
    rw [List.foldlM_cons, Op.exec, hof] at hrun
    obtain rfl := Except.ok.inj hrun
    obtain ⟨l, -, hrep⟩ := hrefines.exists_of_eq_some (Function.update_self () _ _)
    exact Nat.not_succ_le_zero 7 hrep.capacity_ge

private theorem pushProgram_wraps :
    LegalRun Op.Legal Op.exec (fun _ : Unit => none) pushProgram ∧ ¬ Refined pushProgram := by
  obtain ⟨a, ha, hrep⟩ := exists_ofLength Nat.one_pos (by decide : 1 ≤ 2 ^ 63)
  have hexec : Op.exec (fun _ : Unit => none) (.ofLength () 1) =
      .ok (Function.update (fun _ => none) () (some a)) := by
    rw [Op.exec, ha]
    rfl
  have hself := Function.update_self () (some a) (fun _ : Unit => none)
  refine ⟨.cons ⟨le_rfl, by decide⟩ hexec (legalRun_pushBack ⟨a, hself⟩ _ _), ?_⟩
  rintro ⟨σ, hrun, hrefines⟩
  obtain ⟨σ', b, hpushes, hb, hrepb⟩ := hrep.foldlM_pushBack hself
    (show ([] : List Bool).length + (2 ^ 64 - 9) + 8 < 2 ^ 64 by decide) true
  obtain ⟨c, hc, -, -, hidx, hroom, -⟩ := hrepb.toWellFormed.exists_pushBack hrepb.size_pos true
  rw [pushProgram, List.foldlM_cons, hexec, ExceptFold.ok_bind,
    show 2 ^ 64 - 8 = (2 ^ 64 - 9) + 1 from rfl, List.replicate_succ', List.foldlM_append, hpushes,
    ExceptFold.ok_bind, List.foldlM_cons, Op.exec, fetch_eq_ok hb, ExceptFold.ok_bind, hc] at hrun
  obtain rfl := Except.ok.inj hrun
  obtain ⟨l, -, hrepc⟩ := hrefines.exists_of_eq_some (Function.update_self () (some c) σ')
  have hlt := hrepc.capacity_lt
  rw [hidx, hrepb.bitIdx_eq, List.nil_append, List.length_replicate] at hroom
  omega

/-- Both programs are legal, and neither is refined by the list program. -/
theorem not_refined_wrap :
    (LegalRun Op.Legal Op.exec (fun _ => none) vectorProgram ∧ ¬ Refined vectorProgram) ∧
      LegalRun Op.Legal Op.exec (fun _ => none) pushProgram ∧ ¬ Refined pushProgram :=
  ⟨vectorProgram_wraps List.length_replicate, pushProgram_wraps⟩

end BitArray

end HafeCodec
