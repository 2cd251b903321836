import HafeCodec.Tree.Histogram

/-!
# The reads of a walk over the histogram

The iterator of the histogram reads the counters in its constructor, in `operator*` and in
`operator++`. The increment adds one to the index before it reads and tests the index before it
adds one, so its last read can be one past the array. The functions of this file are those of the
iterator, with the indices that they read.

## Main definitions

* `Histogram.skipZerosTrace`, `Histogram.nextTrace`, `Histogram.walkTrace`.
* `Histogram.traverse`: the loop over a histogram, from `begin()` to `end()`.
* `Histogram.ReadsInBounds`: every read of this loop is inside the array.

## Main results

* `Histogram.traverse_complete`: the loop visits the counters that are not zero.
* `Histogram.traverse_of_ne_zero`: the last read of the loop, and only this one, is at index `256`.
* `Histogram.readsInBounds_iff`: the reads are inside the array only when all counters are zero.
-/

namespace HafeCodec

namespace Histogram

variable (h : Histogram) (past : UInt32)

/-- `HistogramIterator(const Histogram *histogram, uint16_t index)`: the index of the iterator and
the indices that its constructor reads. -/
def skipZerosTrace (i : ℕ) : ℕ × List ℕ :=
  if i < 256 then
    if h.read past i = 0 then (skipZerosTrace (i + 1)).map id (List.cons i) else (i, [i])
  else (i, [])
termination_by 256 - i

/-- `operator++`: the index after the increment and the indices that it reads. -/
def nextTrace (i : ℕ) : ℕ × List ℕ :=
  if i < 256 then
    if h.read past (i + 1) = 0 then (nextTrace (i + 1)).map id (List.cons (i + 1))
    else (i + 1, [i + 1])
  else (i, [])
termination_by 256 - i

theorem fst_skipZerosTrace (i : ℕ) : (h.skipZerosTrace past i).1 = h.skipZeros past i := by
  fun_induction skipZerosTrace h past i with
  | case1 i hi hz ih => rw [skipZeros, if_pos ⟨hi, hz⟩, Prod.map_fst, ih, id]
  | case2 i hi hz => rw [skipZeros, if_neg fun hc => hz hc.2]
  | case3 i hi => rw [skipZeros, if_neg fun hc => hi hc.1]

theorem fst_nextTrace (i : ℕ) : (h.nextTrace past i).1 = h.next past i := by
  fun_induction nextTrace h past i with
  | case1 i hi hz ih => rw [next, if_pos hi, if_pos hz, Prod.map_fst, ih, id]
  | case2 i hi hz => rw [next, if_pos hi, if_neg hz]
  | case3 i hi => rw [next, if_neg hi]

/-- The loop `for (; it != end; ++it)` with `*it` in its body: the pairs that it yields and the
indices that it reads, for an iterator at index `i` and an end at index `last`. -/
def walkTrace (last i : ℕ) : Outcome (List (UInt8 × UInt32) × List ℕ) :=
  if i = last then .ok ([], [])
  else if _hi : 256 ≤ i then .error (.runtimeError "invalid iterator access")
  else do
    let rest ← walkTrace last (h.nextTrace past i).1
    return ((UInt8.ofNat i, h.read past i) :: rest.1, i :: (h.nextTrace past i).2 ++ rest.2)
termination_by 256 - i
decreasing_by
  rw [fst_nextTrace]
  have := h.lt_next past (Nat.lt_of_not_le _hi)
  omega

/-- `for (auto [symbol, frequency] : histogram)`: the pairs that it yields and the indices that it
reads, those of the constructors of `begin()` and `end()` first. -/
def traverse : Outcome (List (UInt8 × UInt32) × List ℕ) := do
  let first := h.skipZerosTrace past 0
  let last := h.skipZerosTrace past 256
  let rest ← h.walkTrace past last.1 first.1
  return (rest.1, first.2 ++ last.2 ++ rest.2)

/-- Every read of the loop over the histogram is inside the array. -/
def ReadsInBounds : Prop :=
  ∃ pairs reads, h.traverse past = .ok (pairs, reads) ∧ ∀ i ∈ reads, i < 256

/-! ### The pairs -/

theorem skipZerosTrace_end : h.skipZerosTrace past 256 = (256, []) := by
  rw [skipZerosTrace, if_neg (lt_irrefl 256)]

theorem map_fst_walkTrace (i : ℕ) :
    (h.walkTrace past 256 i).map Prod.fst = h.walk past i := by
  fun_induction walk h past i with
  | case1 => rw [walkTrace, if_pos rfl]; rfl
  | case2 i hne hge => rw [walkTrace, if_neg hne, dif_pos hge]; rfl
  | case3 i hne hge ih =>
    rw [walkTrace, if_neg hne, dif_neg hge, fst_nextTrace, ← ih]
    cases h.walkTrace past 256 (h.next past i) <;> rfl

/-- The constructor of `end()` reads nothing. -/
theorem traverse_eq :
    h.traverse past = (do
      let rest ← h.walkTrace past 256 (h.begin past)
      return (rest.1, (h.skipZerosTrace past 0).2 ++ rest.2)) := by
  rw [traverse, skipZerosTrace_end, fst_skipZerosTrace, ← begin, List.append_nil]

/-- The loop over the histogram yields the entries. -/
theorem traverse_eq_ok : ∃ reads, h.traverse past = .ok (h.entries, reads) := by
  have hwalk := h.map_fst_walkTrace past (h.begin past)
  rw [walk_begin] at hwalk
  rw [traverse_eq]
  cases ht : h.walkTrace past 256 (h.begin past) with
  | error e =>
    rw [ht] at hwalk
    cases hwalk
  | ok t =>
    rw [ht] at hwalk
    exact ⟨_, by rw [← Except.ok.inj hwalk]; rfl⟩

/-- **The walk is complete.** Whatever is found at index `256`, the loop from `begin()` to `end()`
terminates and yields exactly the counters that are not zero, in strictly increasing order. -/
theorem traverse_complete :
    ∃ pairs reads, h.traverse past = .ok (pairs, reads) ∧
      pairs.Pairwise (fun e e' => e.1 < e'.1) ∧
      ∀ s f, (s, f) ∈ pairs ↔ f = h.frequency s ∧ f ≠ 0 := by
  obtain ⟨reads, hreads⟩ := h.traverse_eq_ok past
  exact ⟨h.entries, reads, hreads, h.pairwise_lt_entries, fun _ _ => h.mem_entries⟩

/-! ### The reads -/

theorem lt_of_mem_skipZerosTrace {i j : ℕ} (hj : j ∈ (h.skipZerosTrace past i).2) : j < 256 := by
  fun_induction skipZerosTrace h past i with
  | case1 i hi hz ih =>
    rw [Prod.map_snd, List.mem_cons] at hj
    rcases hj with rfl | hj
    · exact hi
    · exact ih hj
  | case2 i hi hz =>
    rw [List.mem_singleton.mp hj]
    exact hi
  | case3 i hi => cases hj

/-- The last read of an increment is at the index at which it stops. The reads before it are inside
the array, as their indices have passed the test of the loop. -/
theorem snd_nextTrace {i : ℕ} (hi : i < 256) :
    ∃ l, (h.nextTrace past i).2 = l ++ [h.next past i] ∧ ∀ j ∈ l, j < 256 := by
  fun_induction nextTrace h past i with
  | case1 i hi hz ih =>
    rw [next, if_pos hi, if_pos hz, Prod.map_snd]
    rcases (Nat.succ_le_of_lt hi).eq_or_lt with heq | hlt
    · refine ⟨[], ?_, List.forall_mem_nil _⟩
      rw [nextTrace, if_neg (by omega), next, if_neg (by omega)]
      rfl
    · obtain ⟨l, hl, hlt'⟩ := ih hlt
      refine ⟨(i + 1) :: l, by rw [hl, List.cons_append], ?_⟩
      exact List.forall_mem_cons.mpr ⟨hlt, hlt'⟩
  | case2 i hi hz =>
    rw [next, if_pos hi, if_neg hz]
    exact ⟨[], rfl, List.forall_mem_nil _⟩
  | case3 i hn => exact absurd hi hn

/-- A walk that has not yet reached the end reads at index `256` last, and only once. -/
theorem walkTrace_of_lt {i : ℕ} (hi : i < 256) :
    ∃ pairs l, h.walkTrace past 256 i = .ok (pairs, l ++ [256]) ∧ ∀ j ∈ l, j < 256 := by
  fun_induction walk h past i with
  | case1 => exact absurd hi (lt_irrefl 256)
  | case2 i hne hge => exact absurd hge hi.not_ge
  | case3 i hne hge ih =>
    obtain ⟨l, hl, hlt⟩ := h.snd_nextTrace past hi
    have hil : ∀ j ∈ i :: l, j < 256 := List.forall_mem_cons.mpr ⟨hi, hlt⟩
    rw [walkTrace, if_neg hne, dif_neg hge, fst_nextTrace, hl]
    -- The increment stops at `256` and has read there, or at an index that `operator*` reads.
    rcases (h.next_le past hi).eq_or_lt with heq | hlt'
    · rw [heq, walkTrace, if_pos rfl]
      exact ⟨[(UInt8.ofNat i, h.read past i)], i :: l, by simp, hil⟩
    · obtain ⟨pairs, l', hwalk, hl'⟩ := ih hlt'
      rw [hwalk]
      refine ⟨(UInt8.ofNat i, h.read past i) :: pairs, i :: l ++ h.next past i :: l', by simp, ?_⟩
      exact List.forall_mem_append.mpr ⟨hil, List.forall_mem_cons.mpr ⟨hlt', hl'⟩⟩

/-- `begin()` is `end()` exactly when all counters are zero. -/
theorem begin_eq_iff : h.begin past = 256 ↔ ∀ s, h.frequency s = 0 := by
  have hwalk := h.walk_begin past
  rw [← entries_eq_nil_iff]
  constructor
  · intro heq
    rw [heq, walk, if_pos rfl] at hwalk
    exact (Except.ok.inj hwalk).symm
  · intro hnil
    by_contra hne
    have hlt := (h.begin_le past).lt_of_ne hne
    rw [walk, if_neg hne, dif_neg hlt.not_ge, hnil] at hwalk
    obtain ⟨rest, -, hcons⟩ := ExceptFold.bind_eq_ok_iff.mp hwalk
    cases hcons

/-- **The read past the array.** If a counter is not zero, then the loop over the histogram reads at
index `256`, in its last increment; all its other reads are inside the array. -/
theorem traverse_of_ne_zero {s : UInt8} (hs : h.frequency s ≠ 0) :
    ∃ pairs l, h.traverse past = .ok (pairs, l ++ [256]) ∧ ∀ i ∈ l, i < 256 := by
  have hne : h.begin past ≠ 256 := fun heq => hs ((h.begin_eq_iff past).mp heq s)
  have hlt := (h.begin_le past).lt_of_ne hne
  obtain ⟨pairs, l, hwalk, hl⟩ := h.walkTrace_of_lt past hlt
  refine ⟨pairs, (h.skipZerosTrace past 0).2 ++ l, ?_, ?_⟩
  · rw [traverse_eq, hwalk, List.append_assoc]
    rfl
  · exact List.forall_mem_append.mpr ⟨fun i => h.lt_of_mem_skipZerosTrace past, hl⟩

theorem not_readsInBounds {s : UInt8} (hs : h.frequency s ≠ 0) : ¬ h.ReadsInBounds past := by
  rintro ⟨pairs, reads, hreads, hlt⟩
  obtain ⟨pairs', l, htrav, -⟩ := h.traverse_of_ne_zero past hs
  obtain ⟨rfl, rfl⟩ := Prod.mk.inj (Except.ok.inj (hreads.symm.trans htrav))
  exact lt_irrefl 256 (hlt 256 (List.mem_append_right l List.mem_cons_self))

/-- **The reads are inside the array** if and only if all counters are zero. The loop is then not
entered, as `begin()` is `end()`. -/
theorem readsInBounds_iff : h.ReadsInBounds past ↔ ∀ s, h.frequency s = 0 := by
  constructor
  · intro hin s
    by_contra hs
    exact h.not_readsInBounds past hs hin
  · intro hz
    have hbegin := (h.begin_eq_iff past).mpr hz
    refine ⟨[], (h.skipZerosTrace past 0).2, ?_, fun i => h.lt_of_mem_skipZerosTrace past⟩
    rw [traverse_eq, hbegin, walkTrace, if_pos rfl, ExceptFold.ok_bind, List.append_nil]
    rfl

/-- The loop over the histogram of the text `a` reads at index `256`. -/
theorem not_readsInBounds_a :
    ∃ h : Histogram, ofData [97] = .ok h ∧ h.frequency 97 = 1 ∧ ∀ past,
      (∃ pairs l, h.traverse past = .ok (pairs, l ++ [256])) ∧ ¬ h.ReadsInBounds past := by
  refine ⟨_, if_neg (by decide), rfl, fun past => ?_⟩
  have hone : ([97].foldl increment ⟨fun _ => 0⟩).frequency 97 ≠ 0 := by
    rw [List.foldl_cons, List.foldl_nil, frequency_increment, if_pos rfl]
    decide
  obtain ⟨pairs, l, htrav, -⟩ := traverse_of_ne_zero _ past hone
  exact ⟨⟨pairs, l, htrav⟩, not_readsInBounds _ past hone⟩

end Histogram

end HafeCodec
