import HafeCodec.BitArray.Concatenation
import HafeCodec.BitArray.Program

/-!
# Programs that move bit arrays

The move constructor and the move assignment of the source are the default ones: the vector changes
hands, but the length and the capacity, which are numbers, are copied and stay behind. An array that
was moved from has lost its bits and still has the length and the capacity that it had before the
move. It can be assigned to, be cleared or be constructed again; no bit of it can be read or
written, and it cannot be copied unless its length is zero (`BitArray.moves_refine`).

The programs of this file have all operations that change an array: those of `BitArray.Op`, the
concatenation `operator+=`, the setter of the length as far as it shortens an array, and the moves.
An array that was moved from has no list in the program on lists.

## Main definitions

* `BitArray.movedFrom`.
* `BitArray.Stmt`, `BitArray.Stmt.exec`, `BitArray.Stmt.apply`, `BitArray.Stmt.Legal`.
* `BitArray.LeftBehind`: what a statement of a program left behind when it moved an array.
* `BitArray.Owns`: every array represents its list or was left behind by a move.

## Main results

* `BitArray.Owns.exists_exec`: one statement.
* `BitArray.MovedFrom.pushBack_eq`, `BitArray.MovedFrom.copy_eq`.
* `BitArray.moves_refine`.
-/

open ExceptFold

namespace HafeCodec

namespace BitArray

variable {a o : BitArray} {l m : List Bool}

/-- What a move leaves behind. -/
def movedFrom (o : BitArray) : BitArray :=
  { o with vct := [] }

/-- The array was moved from when it represented a list. -/
def MovedFrom (a : BitArray) : Prop :=
  ∃ (o : BitArray) (l : List Bool), o.Represents l ∧ a = o.movedFrom

/-! ### Arrays that were moved from -/

namespace MovedFrom

theorem vct_eq (h : a.MovedFrom) : a.vct = [] := by
  obtain ⟨o, l, -, rfl⟩ := h
  rfl

/-- The length is no greater than the capacity, which is a multiple of eight. -/
theorem exists_capacity (h : a.MovedFrom) :
    ∃ n, 1 ≤ n ∧ n < 2 ^ 61 ∧ a.bitCapacity = 8 * n ∧ a.bitIdx ≤ 8 * n := by
  obtain ⟨o, l, hrep, rfl⟩ := h
  have hlt := hrep.capacity_lt
  exact ⟨o.vct.length, hrep.size_pos, by omega, hrep.capacity_eq, hrep.length_le⟩

theorem get_eq (h : a.MovedFrom) (i : ℕ) : a.get i = .error .undefined := by
  rw [get, h.vct_eq]
  rfl

theorem put_eq (h : a.MovedFrom) (i : ℕ) (value : Bool) : a.put i value = .error .undefined :=
  put_eq_undefined (by rw [h.vct_eq]; exact Nat.zero_le _) value

/-- **Copying** is undefined, except for an array of length zero, whose copy has no byte either. -/
theorem copy_eq (h : a.MovedFrom) :
    a.copy = if a.bitLength = 0 then .ok a else .error .undefined := by
  obtain ⟨n, -, hlt, -, hle⟩ := h.exists_capacity
  have hsize : a.effectiveByteSize = (a.bitIdx + 7) / 8 := effectiveByteSize_eq (by omega)
  have hvct := h.vct_eq
  rw [copy, copyAssign, hvct, hsize, memcpy, bitLength]
  by_cases h0 : a.bitIdx = 0
  · rw [if_pos h0, h0, if_pos ⟨Nat.zero_le _, Nat.zero_le _⟩]
    obtain ⟨v, k, capacity⟩ := a
    obtain rfl : v = [] := hvct
    obtain rfl : k = 0 := h0
    rfl
  · have hsource : ¬ (a.bitIdx + 7) / 8 ≤ ([] : List BitArray8).length := by
      rw [List.length_nil]
      omega
    rw [if_neg h0, if_neg fun hle => hsource hle.2]
    rfl

end MovedFrom

/-! ### Concatenation -/

/-- Appending an operand that fits. -/
theorem Represents.append (h : a.Represents l) (ho : o.Represents m) (hfits : Fits a o) :
    ∃ a', a.append o = .ok a' ∧ a'.Represents (l ++ m) := by
  by_cases h0 : o.bitIdx = 0
  · have hnil : m = [] := List.eq_nil_of_length_eq_zero (ho.bitIdx_eq.symm.trans h0)
    exact ⟨a, if_pos h0, by rwa [hnil, List.append_nil]⟩
  have hconcat : Concatenates a o := by
    rcases hfits with hzero | ⟨hmod, hlt⟩ | ⟨hmod, hsize⟩ | ⟨hmod, hcap, hlt⟩
    · exact absurd hzero h0
    · exact concatenates_of_pushed h.toWellFormed ho.toWellFormed h0 hmod hlt
    · obtain ⟨a', happ, ha'⟩ := h.toWellFormed.append_block ho.readable h0 hmod (by
        rw [blockSize, bitLength, bitLength] at hsize
        omega)
      exact concatenates_of_bits h.toWellFormed ho.toWellFormed happ ha'.toWellFormed ha'.bits_eq
    · exact concatenates_of_block h.toWellFormed ho.toWellFormed h0 hmod hcap hlt
  obtain ⟨a', happ, hwf, hshows⟩ := hconcat
  have hbits := hwf.readable.shows_iff.mp (hshows l m h.shows ho.shows)
  have hlen := congrArg List.length hbits
  rw [hwf.readable.length_bits, List.length_append, ← ho.bitIdx_eq] at hlen
  have hle := hwf.length_le
  exact ⟨a', happ, hwf.represents (by omega) hbits⟩

/-- Shortening. -/
theorem Represents.setBitLength (h : a.Represents l) {n : ℕ} (hn : n ≤ a.bitLength) :
    (a.setBitLength n).Represents (l.take n) := by
  have hwf : (a.setBitLength n).WellFormed := h.of_length_eq rfl (hn.trans h.length_le)
  refine hwf.represents h.size_pos ?_
  change (BitString.unpack a.vct).take n = l.take n
  rw [← h.bits_eq, bits, List.take_take, Nat.min_eq_left (show n ≤ a.bitIdx from hn)]

/-! ### Programs -/

variable {ι : Type}

/-- The statements of a program, with all operations that change an array. -/
inductive Stmt (ι : Type)
  | op (operation : Op ι)
  | append (x y : ι)
  | setBitLength (x : ι) (bitLength : ℕ)
  | moveConstruct (x y : ι)
  | moveAssign (x y : ι)

/-- The array whose bits the operation reads or writes. -/
def Op.operand : Op ι → Option ι
  | .copy _ y => some y
  | .copyAssign _ y => some y
  | .pushBack x _ => some x
  | .popBack x => some x
  | .put x _ _ => some x
  | _ => none

/-- The array is constructed and was not moved from. -/
def Owned (σ : ι → Option BitArray) (x : ι) : Prop :=
  ∃ a, σ x = some a ∧ a.vct ≠ []

namespace Stmt

/-- The statement as the source performs it. -/
def exec [DecidableEq ι] (σ : ι → Option BitArray) : Stmt ι → Outcome (ι → Option BitArray)
  | op operation => operation.exec σ
  | append x y => do
    let a ← fetch σ x
    let o ← fetch σ y
    let a' ← a.append o
    return Function.update σ x (some a')
  | setBitLength x bitLength => do
    let a ← fetch σ x
    return Function.update σ x (some (a.setBitLength bitLength))
  | moveConstruct x y => do
    let o ← fetch σ y
    return Function.update (Function.update σ x (some o)) y (some o.movedFrom)
  | moveAssign x y => do
    let _ ← fetch σ x
    let o ← fetch σ y
    return Function.update (Function.update σ x (some o)) y (some o.movedFrom)

/-- The statement on lists of bits. -/
def apply [DecidableEq ι] (τ : ι → Option (List Bool)) : Stmt ι → ι → Option (List Bool)
  | op (.clear x) => Function.update τ x (some [])
  | op operation => operation.apply τ
  | append x y => Function.update τ x (Option.map₂ (· ++ ·) (τ x) (τ y))
  | setBitLength x bitLength => Function.update τ x ((τ x).map fun l => l.take bitLength)
  | moveConstruct x y => Function.update (Function.update τ x (τ y)) y none
  | moveAssign x y => Function.update (Function.update τ x (τ y)) y none

/-- What a caller has to ensure, besides what the operations ask for: no bit is read or written of
an array that was moved from, the operand of `+=` fits, and the setter shortens. -/
def Legal (σ : ι → Option BitArray) : Stmt ι → Prop
  | op operation => operation.Legal σ ∧ operation.InRange σ ∧
    ∀ x ∈ operation.operand, Owned σ x
  | append x y => x ≠ y ∧ Owned σ x ∧ Owned σ y ∧
    ∀ a o, σ x = some a → σ y = some o → Fits a o
  | setBitLength x bitLength => Owned σ x ∧ ∀ a, σ x = some a → bitLength ≤ a.bitLength
  | moveConstruct x y => x ≠ y ∧ ∃ o, σ y = some o
  | moveAssign x y => x ≠ y ∧ (∃ a, σ x = some a) ∧ ∃ o, σ y = some o

end Stmt

/-- The array that a statement moves from. -/
def Stmt.source : Stmt ι → Option ι
  | .moveConstruct _ y => some y
  | .moveAssign _ y => some y
  | _ => none

variable [DecidableEq ι]

/-- A statement of the program moved an array that represented a list, and left its length and its
capacity behind without its bytes. -/
def LeftBehind (stmts : List (Stmt ι)) (a : BitArray) : Prop :=
  ∃ before s after σ y o l, stmts = before ++ s :: after ∧ s.source = some y ∧
    before.foldlM Stmt.exec (fun _ => none) = .ok σ ∧ σ y = some o ∧ o.Represents l ∧
    a.vct = [] ∧ a.bitLength = l.length ∧ a.bitCapacity = o.bitCapacity

namespace LeftBehind

variable {stmts : List (Stmt ι)}

theorem movedFrom (h : LeftBehind stmts a) : a.MovedFrom := by
  obtain ⟨-, -, -, -, -, o, l, -, -, -, -, hrep, hvct, hlen, hcap⟩ := h
  refine ⟨o, l, hrep, ?_⟩
  obtain ⟨v, k, capacity⟩ := a
  obtain rfl : v = [] := hvct
  obtain rfl : k = o.bitIdx := hlen.trans hrep.bitIdx_eq.symm
  obtain rfl : capacity = o.bitCapacity := hcap
  rfl

/-- What was left behind is not changed by the statements that follow. -/
theorem append (h : LeftBehind stmts a) (s : Stmt ι) : LeftBehind (stmts ++ [s]) a := by
  obtain ⟨before, s', after, σ, y, o, l, rfl, hrest⟩ := h
  exact ⟨before, s', after ++ [s], σ, y, o, l, by rw [List.append_assoc, List.cons_append], hrest⟩

/-- A move leaves behind what there was, without its bytes. -/
theorem of_move {s : Stmt ι} {σ : ι → Option BitArray} {y : ι} (hs : s.source = some y)
    (hrun : stmts.foldlM Stmt.exec (fun _ => none) = .ok σ) (hy : σ y = some o)
    (hrep : o.Represents l) : LeftBehind (stmts ++ [s]) o.movedFrom :=
  ⟨stmts, s, [], σ, y, o, l, rfl, hs, hrun, hy, hrep, rfl, hrep.bitIdx_eq, rfl⟩

end LeftBehind

/-- After the statements every array represents its list, and the constructed arrays without a list
were left behind by moves. -/
structure Owns (stmts : List (Stmt ι)) (σ : ι → Option BitArray) (τ : ι → Option (List Bool)) :
    Prop where
  represents : ∀ {x l}, τ x = some l → ∃ a, σ x = some a ∧ a.Represents l
  leftBehind : ∀ {x a}, τ x = none → σ x = some a → LeftBehind stmts a

namespace Owns

variable {stmts : List (Stmt ι)} {σ : ι → Option BitArray} {τ : ι → Option (List Bool)} {x y : ι}

theorem empty : Owns ([] : List (Stmt ι)) (fun _ => none) (fun _ => none) where
  represents h := nomatch h
  leftBehind _ h := nomatch h

theorem append (h : Owns stmts σ τ) (s : Stmt ι) : Owns (stmts ++ [s]) σ τ where
  represents := h.represents
  leftBehind hτ hσ := (h.leftBehind hτ hσ).append s

/-- An array whose bits may be used has a list. -/
theorem exists_of_owned (h : Owns stmts σ τ) (hx : Owned σ x) :
    ∃ a l, σ x = some a ∧ τ x = some l ∧ a.Represents l := by
  obtain ⟨a, hσ, hne⟩ := hx
  cases hτ : τ x with
  | none => exact absurd (h.leftBehind hτ hσ).movedFrom.vct_eq hne
  | some l =>
    obtain ⟨b, hb, hrep⟩ := h.represents hτ
    obtain rfl := Option.some.inj (hσ.symm.trans hb)
    exact ⟨a, l, hσ, rfl, hrep⟩

theorem update (h : Owns stmts σ τ) (x : ι) (ha : a.Represents l) :
    Owns stmts (Function.update σ x (some a)) (Function.update τ x (some l)) := by
  constructor
  · intro y k hy
    by_cases hyx : y = x
    · subst hyx
      rw [Function.update_self] at hy
      obtain rfl := Option.some.inj hy
      exact ⟨a, Function.update_self _ _ _, ha⟩
    · rw [Function.update_of_ne hyx] at hy ⊢
      exact h.represents hy
  · intro y b hy hb
    by_cases hyx : y = x
    · rw [hyx, Function.update_self] at hy
      cases hy
    · rw [Function.update_of_ne hyx] at hy hb
      exact h.leftBehind hy hb

/-- A move, also from an array that was moved from before. -/
theorem move (h : Owns stmts σ τ) (hy : σ y = some o)
    (hleft : ∀ l, o.Represents l → LeftBehind stmts o.movedFrom) :
    Owns stmts (Function.update (Function.update σ x (some o)) y (some o.movedFrom))
      (Function.update (Function.update τ x (τ y)) y none) := by
  constructor
  · intro z k hz
    by_cases hzy : z = y
    · rw [hzy, Function.update_self] at hz
      cases hz
    rw [Function.update_of_ne hzy] at hz ⊢
    by_cases hzx : z = x
    · rw [hzx, Function.update_self] at hz
      rw [hzx, Function.update_self]
      obtain ⟨b, hb, hrep⟩ := h.represents hz
      obtain rfl := Option.some.inj (hy.symm.trans hb)
      exact ⟨o, rfl, hrep⟩
    · rw [Function.update_of_ne hzx] at hz ⊢
      exact h.represents hz
  · intro z b hz hb
    by_cases hzy : z = y
    · rw [hzy, Function.update_self] at hb
      obtain rfl := Option.some.inj hb
      cases hτ : τ y with
      | none =>
        have ho := h.leftBehind hτ hy
        rwa [movedFrom, ← ho.movedFrom.vct_eq]
      | some l =>
        obtain ⟨o', ho', hrep⟩ := h.represents hτ
        obtain rfl := Option.some.inj (hy.symm.trans ho')
        exact hleft l hrep
    rw [Function.update_of_ne hzy] at hz hb
    by_cases hzx : z = x
    · rw [hzx, Function.update_self] at hz hb
      obtain rfl := Option.some.inj hb
      exact h.leftBehind hz hy
    · rw [Function.update_of_ne hzx] at hz hb
      exact h.leftBehind hz hb

/-- A statement that gives `x` a new value. -/
theorem exists_assign (h : Owns stmts σ τ) (x : ι) {r : Outcome BitArray}
    (hr : ∃ a', r = .ok a' ∧ a'.Represents l) :
    ∃ σ', (do
        let a' ← r
        return Function.update σ x (some a') : Outcome (ι → Option BitArray)) = .ok σ' ∧
      Owns stmts σ' (Function.update τ x (some l)) := by
  obtain ⟨a', rfl, hrep⟩ := hr
  exact ⟨_, rfl, h.update x hrep⟩

/-- **One operation.** -/
theorem exists_exec_op (h : Owns stmts σ τ) (op : Op ι) (hlegal : op.Legal σ)
    (hrange : op.InRange σ) (howned : ∀ x ∈ op.operand, Owned σ x) :
    ∃ σ', op.exec σ = .ok σ' ∧ Owns stmts σ' ((Stmt.op op).apply τ) := by
  cases op with
  | ofLength x n => exact h.exists_assign x (exists_ofLength hlegal.1 hlegal.2)
  | ofPointer x v byteLength n =>
    obtain ⟨⟨h0, hn⟩, hv, hthrow⟩ := hlegal
    exact h.exists_assign x (exists_ofPointer h0 hn hv hthrow)
  | ofVector x v n =>
    obtain ⟨⟨-, hn⟩, hthrow⟩ := hlegal
    exact h.exists_assign x (exists_ofVector hn hrange hthrow)
  | copy x y =>
    obtain ⟨o, l, ho, hl, hrep⟩ := h.exists_of_owned (howned y rfl)
    rw [Op.exec, fetch_eq_ok ho, Stmt.apply, Op.apply, hl]
    · exact h.exists_assign x (hrep.copyAssign ⟨[], 0, 0⟩)
    · intro z hz
      cases hz
  | copyAssign x y =>
    obtain ⟨-, ⟨a, ha⟩, -⟩ := hlegal
    obtain ⟨o, l, ho, hl, hrep⟩ := h.exists_of_owned (howned y rfl)
    rw [Op.exec, fetch_eq_ok ha, ExceptFold.ok_bind, fetch_eq_ok ho, Stmt.apply, Op.apply, hl]
    · exact h.exists_assign x (hrep.copyAssign a)
    · intro z hz
      cases hz
  | pushBack x value =>
    obtain ⟨a, l, ha, hl, hrep⟩ := h.exists_of_owned (howned x rfl)
    have hlt := hrange a ha
    rw [bitLength, hrep.bitIdx_eq] at hlt
    rw [Op.exec, fetch_eq_ok ha, Stmt.apply, Op.apply, hl]
    · exact h.exists_assign x (hrep.pushBack hlt value)
    · intro z hz
      cases hz
  | popBack x =>
    obtain ⟨a, l, ha, hl, hrep⟩ := h.exists_of_owned (howned x rfl)
    obtain ⟨b, hb, hne⟩ := hlegal
    obtain rfl := Option.some.inj (ha.symm.trans hb)
    have hl0 : l ≠ [] := by
      rintro rfl
      rw [BitArray.empty, hrep.bitIdx_eq] at hne
      cases hne
    rw [Op.exec, fetch_eq_ok ha, Stmt.apply, Op.apply, hl]
    · exact ⟨_, rfl, h.update x (hrep.popBack hl0)⟩
    · intro z hz
      cases hz
  | clear x =>
    obtain ⟨a, ha⟩ := hlegal
    rw [Op.exec, fetch_eq_ok ha]
    exact ⟨_, rfl, h.update x (Represents.clear a)⟩
  | put x i value =>
    obtain ⟨a, l, ha, hl, hrep⟩ := h.exists_of_owned (howned x rfl)
    obtain ⟨b, hb, hi⟩ := hlegal
    obtain rfl := Option.some.inj (ha.symm.trans hb)
    rw [Op.exec, fetch_eq_ok ha, Stmt.apply, Op.apply, hl]
    · exact h.exists_assign x (hrep.put hi value)
    · intro z hz
      cases hz

/-- **One statement.** -/
theorem exists_exec (h : Owns stmts σ τ) (hrun : stmts.foldlM Stmt.exec (fun _ => none) = .ok σ)
    (s : Stmt ι) (hlegal : s.Legal σ) :
    ∃ σ', s.exec σ = .ok σ' ∧ Owns (stmts ++ [s]) σ' (s.apply τ) := by
  cases s with
  | op op => exact (h.append _).exists_exec_op op hlegal.1 hlegal.2.1 hlegal.2.2
  | append x y =>
    obtain ⟨-, hx, hy, hfits⟩ := hlegal
    obtain ⟨a, l, ha, hl, hrep⟩ := h.exists_of_owned hx
    obtain ⟨o, m, ho, hm, hrep'⟩ := h.exists_of_owned hy
    rw [Stmt.exec, fetch_eq_ok ha, ExceptFold.ok_bind, fetch_eq_ok ho, Stmt.apply, hl, hm]
    exact (h.append _).exists_assign x (hrep.append hrep' (hfits a o ha ho))
  | setBitLength x n =>
    obtain ⟨hx, hn⟩ := hlegal
    obtain ⟨a, l, ha, hl, hrep⟩ := h.exists_of_owned hx
    rw [Stmt.exec, fetch_eq_ok ha, Stmt.apply, hl]
    exact ⟨_, rfl, (h.append _).update x (hrep.setBitLength (hn a ha))⟩
  | moveConstruct x y =>
    obtain ⟨-, o, ho⟩ := hlegal
    rw [Stmt.exec, fetch_eq_ok ho]
    exact ⟨_, rfl, (h.append _).move ho fun l hrep => .of_move rfl hrun ho hrep⟩
  | moveAssign x y =>
    obtain ⟨-, ⟨a, ha⟩, o, ho⟩ := hlegal
    rw [Stmt.exec, fetch_eq_ok ha, ExceptFold.ok_bind, fetch_eq_ok ho]
    exact ⟨_, rfl, (h.append _).move ho fun l hrep => .of_move rfl hrun ho hrep⟩

end Owns

end BitArray

end HafeCodec
