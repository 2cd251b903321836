import HafeCodec.BitArray.Program

/-!
# Iterators of bit arrays

An iterator is the address of an array and an index into it, which is tested against the length of
the array when the iterator is dereferenced. So an iterator stays usable while the array changes,
and a loop whose end is not met in time ends in an exception: no loop, forward or in reverse, reads
a bit that is not part of the array, and none runs forever (`BitArrayIterator.traversal`).

The arrays live in the store of a program on bit arrays, and the results hold for every store that a
program can reach.

## Main definitions

* `BitArrayIterator`, `BitArrayIterator.deref`, `BitArrayIterator.next`, `BitArrayIterator.prev`.
* `BitArrayIterator.walk`, `BitArrayIterator.walkBack`: the loops.

## Main results

* `BitArrayIterator.walk_eq`, `BitArrayIterator.walkBack_eq`.
* `BitArrayIterator.traversal`.
-/

namespace HafeCodec

open BitArray

/-- The members `m_instance`, which is the name of an array, and `m_index`. -/
structure BitArrayIterator (ι : Type) where
  array : Option ι
  index : ℕ
  deriving DecidableEq

namespace BitArrayIterator

variable {ι : Type}

/-- `operator*()`. -/
def deref (σ : ι → Option BitArray) (it : BitArrayIterator ι) : Outcome Bool :=
  match it.array with
  | none => .error (.runtimeError "invalid iterator access")
  | some x => do
    let a ← fetch σ x
    if a.bitLength ≤ it.index then .error (.runtimeError "invalid iterator access")
    else a.get it.index

/-- `operator++()`. -/
def next (it : BitArrayIterator ι) : BitArrayIterator ι :=
  { it with index := u64 (it.index + 1) }

/-- `operator--()`. -/
def prev (it : BitArrayIterator ι) : BitArrayIterator ι :=
  { it with index := u64Pred it.index }

/-- `begin()`. -/
def begin (x : ι) : BitArrayIterator ι :=
  ⟨some x, 0⟩

/-- `end()`. -/
def endOf (σ : ι → Option BitArray) (x : ι) : Outcome (BitArrayIterator ι) := do
  let a ← fetch σ x
  return ⟨some x, a.bitLength⟩

section Loops

variable [DecidableEq ι]

/-- The bits read by a loop from `first` to `last` in at most `fuel` rounds. -/
def walk (σ : ι → Option BitArray) (last : BitArrayIterator ι) :
    ℕ → BitArrayIterator ι → Outcome (List Bool)
  | 0, first => if first = last then .ok [] else .error .loopBound
  | fuel + 1, first =>
    if first = last then .ok []
    else do
      let bit ← first.deref σ
      let rest ← walk σ last fuel first.next
      return bit :: rest

/-- The bits read by a loop over `std::reverse_iterator`, which is dereferenced one bit in front of
the iterator that it is made of. -/
def walkBack (σ : ι → Option BitArray) (last : BitArrayIterator ι) :
    ℕ → BitArrayIterator ι → Outcome (List Bool)
  | 0, first => if first = last then .ok [] else .error .loopBound
  | fuel + 1, first =>
    if first = last then .ok []
    else do
      let bit ← first.prev.deref σ
      let rest ← walkBack σ last fuel first.prev
      return bit :: rest

/-- `for (bool bit : x)`, which calls `end()` once. -/
def forward (σ : ι → Option BitArray) (fuel : ℕ) (x : ι) : Outcome (List Bool) := do
  let last ← endOf σ x
  walk σ last fuel (begin x)

/-- The loop from `rbegin()` to `rend()`. -/
def backward (σ : ι → Option BitArray) (fuel : ℕ) (x : ι) : Outcome (List Bool) := do
  let first ← endOf σ x
  walkBack σ (begin x) fuel first

end Loops

/-! ### The loops -/

section Outcome

variable {σ : ι → Option BitArray} {x : ι} {a : BitArray} {l : List Bool}

/-- **Dereferencing** reads a bit of the array or throws. -/
theorem deref_eq (hx : σ x = some a) (h : a.Represents l) (i : ℕ) :
    deref σ ⟨some x, i⟩ = if hi : i < l.length then .ok l[i]
      else .error (.runtimeError "invalid iterator access") := by
  change (fetch σ x >>= fun a => if a.bitLength ≤ i then
    .error (.runtimeError "invalid iterator access") else a.get i) = _
  rw [fetch_eq_ok hx, ExceptFold.ok_bind, h.shows.bitLength_eq]
  split_ifs with hle hi hi
  · omega
  · rfl
  · exact h.shows.get_eq (List.getElem?_eq_getElem hi)
  · omega

theorem endOf_eq (hx : σ x = some a) (h : a.Represents l) :
    endOf σ x = .ok ⟨some x, l.length⟩ := by
  rw [endOf, fetch_eq_ok hx, ExceptFold.ok_bind, h.shows.bitLength_eq]
  rfl

theorem length_lt_of_represents (h : a.Represents l) : l.length + 8 ≤ 2 ^ 64 := by
  have hle := h.length_le
  have hlt := h.capacity_lt
  rw [h.bitIdx_eq] at hle
  omega

variable [DecidableEq ι]

omit [DecidableEq ι] in
theorem mk_eq_iff {i j : ℕ} : (⟨some x, i⟩ : BitArrayIterator ι) = ⟨some x, j⟩ ↔ i = j := by
  rw [mk.injEq]
  exact and_iff_right rfl

/-- **A loop forward** from index `i` to index `j`. -/
theorem walk_eq (hx : σ x = some a) (h : a.Represents l) {i j fuel : ℕ}
    (hfuel : l.length - i < fuel) : walk σ ⟨some x, j⟩ fuel ⟨some x, i⟩ =
      if i ≤ j ∧ (j ≤ l.length ∨ i = j) then .ok ((l.take j).drop i)
      else .error (.runtimeError "invalid iterator access") := by
  have hlen := length_lt_of_represents h
  induction fuel generalizing i with
  | zero => exact absurd hfuel (Nat.not_lt_zero _)
  | succ fuel ih =>
    rw [walk]
    by_cases hij : i = j
    · subst hij
      rw [if_pos rfl, if_pos ⟨le_rfl, Or.inr rfl⟩, List.drop_take, Nat.sub_self, List.take_zero]
    rw [if_neg (mt mk_eq_iff.mp hij), deref_eq hx h]
    by_cases hi : i < l.length
    · have hnext : next (⟨some x, i⟩ : BitArrayIterator ι) = ⟨some x, i + 1⟩ :=
        congrArg (mk (some x)) (u64_of_lt (lt_of_le_of_lt hi (by omega)))
      rw [dif_pos hi, ExceptFold.ok_bind, hnext, ih (by omega)]
      by_cases hj : i ≤ j ∧ (j ≤ l.length ∨ i = j)
      · have hij' : i < (l.take j).length := by
          rw [List.length_take]
          omega
        rw [if_pos hj, if_pos (by omega), List.drop_eq_getElem_cons hij', List.getElem_take]
        rfl
      · rw [if_neg hj, if_neg (by omega)]
        rfl
    · rw [dif_neg hi, if_neg (by omega)]
      rfl

/-- **A loop in reverse** from index `i` to index `j`. -/
theorem walkBack_eq (hx : σ x = some a) (h : a.Represents l) {i j fuel : ℕ}
    (hfuel : min i l.length < fuel) : walkBack σ ⟨some x, j⟩ fuel ⟨some x, i⟩ =
      if j ≤ i ∧ (i ≤ l.length ∨ i = j) then .ok ((l.take i).drop j).reverse
      else .error (.runtimeError "invalid iterator access") := by
  have hlen := length_lt_of_represents h
  induction fuel generalizing i with
  | zero => exact absurd hfuel (Nat.not_lt_zero _)
  | succ fuel ih =>
    rw [walkBack]
    by_cases hij : i = j
    · subst hij
      rw [if_pos rfl, if_pos ⟨le_rfl, Or.inr rfl⟩, List.drop_take, Nat.sub_self, List.take_zero]
      rfl
    rw [if_neg (mt mk_eq_iff.mp hij)]
    cases i with
    | zero =>
      -- The index wraps, and the bit is not part of the array.
      have hprev : prev (⟨some x, 0⟩ : BitArrayIterator ι) = ⟨some x, 2 ^ 64 - 1⟩ := rfl
      rw [hprev, deref_eq hx h, dif_neg (by omega), if_neg (by omega)]
      rfl
    | succ i =>
      have hprev : prev (⟨some x, i + 1⟩ : BitArrayIterator ι) = ⟨some x, i⟩ := rfl
      rw [hprev, deref_eq hx h]
      by_cases hi : i < l.length
      · rw [dif_pos hi, ExceptFold.ok_bind, ih (by omega)]
        by_cases hj : j ≤ i + 1 ∧ (i + 1 ≤ l.length ∨ i + 1 = j)
        · have hij' : j ≤ (l.take i).length := by
            rw [List.length_take]
            omega
          rw [if_pos hj, if_pos (by omega), ← List.take_concat_get' _ _ hi,
            List.drop_append_of_le_length hij', List.reverse_append]
          rfl
        · rw [if_neg hj, if_neg (by omega)]
          rfl
      · rw [dif_neg hi, if_neg (by omega)]
        rfl

end Outcome

/-- **Traversal.** In every state that a program on bit arrays can reach, a loop between any two
iterators of an array, in either direction, reads the bits between them if they are part of the
array and the end is met, and throws otherwise. In particular the loops from `begin()` to `end()`
and from `rbegin()` to `rend()` read all bits, forward and in reverse. -/
theorem traversal [DecidableEq ι] {ops : List (Op ι)}
    (hops : ExceptFold.LegalRun (fun σ op => op.Legal σ ∧ op.InRange σ) Op.exec (fun _ => none)
      ops) :
    ∃ σ, ops.foldlM Op.exec (fun _ => none) = .ok σ ∧
      ∀ x l, ops.foldl Op.apply (fun _ => none) x = some l →
        ∀ fuel, l.length < fuel →
          (∀ i j, walk σ ⟨some x, j⟩ fuel ⟨some x, i⟩ =
            if i ≤ j ∧ (j ≤ l.length ∨ i = j) then .ok ((l.take j).drop i)
            else .error (.runtimeError "invalid iterator access")) ∧
          (∀ i j, walkBack σ ⟨some x, j⟩ fuel ⟨some x, i⟩ =
            if j ≤ i ∧ (i ≤ l.length ∨ i = j) then .ok ((l.take i).drop j).reverse
            else .error (.runtimeError "invalid iterator access")) ∧
          forward σ fuel x = .ok l ∧ backward σ fuel x = .ok l.reverse := by
  obtain ⟨σ, hrun, hrefines⟩ := ExceptFold.foldlM_simulates (g := Op.apply)
    (fun _ _ op hR hop => hR.exists_exec op hop.1 hop.2) refines_empty hops
  refine ⟨σ, hrun, fun x l hl fuel hfuel => ?_⟩
  have hrel := hrefines x
  rw [hl] at hrel
  cases hx : σ x with
  | none =>
    rw [hx] at hrel
    cases hrel
  | some a =>
    rw [hx] at hrel
    obtain ⟨h⟩ := hrel
    refine ⟨fun i j => walk_eq hx h (by omega), fun i j => walkBack_eq hx h (by omega), ?_, ?_⟩
    · rw [forward, endOf_eq hx h, ExceptFold.ok_bind, begin, walk_eq hx h (by omega),
        if_pos ⟨Nat.zero_le _, Or.inl le_rfl⟩, List.take_length, List.drop_zero]
    · rw [backward, endOf_eq hx h, ExceptFold.ok_bind, begin, walkBack_eq hx h (by omega),
        if_pos ⟨Nat.zero_le _, Or.inl le_rfl⟩, List.take_length, List.drop_zero]

/-- The loops over three bits of which the last was pushed onto a copy. -/
theorem traversal_copy : ∃ σ,
    ([.ofVector 0 [128] 2, .copy 1 0, .pushBack 1 true] : List (Op (Fin 2))).foldlM Op.exec
      (fun _ => none) = .ok σ ∧
    forward σ 4 1 = .ok [true, false, true] ∧
    walkBack σ ⟨some 1, 1⟩ 4 ⟨some 1, 3⟩ = .ok [true, false] := by
  have hops : ExceptFold.LegalRun (fun σ op => op.Legal σ ∧ op.InRange σ) Op.exec
      (fun _ => none) ([.ofVector 0 [128] 2, .copy 1 0, .pushBack 1 true] : List (Op (Fin 2))) := by
    refine .cons ⟨⟨by decide, fun what hwhat => ?_⟩, ?_⟩ rfl ?_
    · cases hwhat
    · exact (by decide : 1 < 2 ^ 61)
    refine .cons ⟨⟨by decide, _, rfl⟩, trivial⟩ rfl ?_
    refine .cons ⟨⟨_, rfl⟩, fun a ha => ?_⟩ rfl trivial
    obtain rfl := Option.some.inj ha
    decide
  obtain ⟨σ, hσ, hloops⟩ := traversal hops
  obtain ⟨-, hback, hforward, -⟩ := hloops 1 [true, false, true] (by decide) 4 (by decide)
  exact ⟨σ, hσ, hforward, hback 3 1⟩

end BitArrayIterator

end HafeCodec
