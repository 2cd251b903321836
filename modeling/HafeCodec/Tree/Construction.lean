import HafeCodec.Tree.HuffmanTree

/-!
# Which histograms have a tree

The constructor of the tree tests the frequencies only where two nodes are joined. Since the sum of
the frequencies in the queue never changes, these local tests decide about the sum of all
frequencies, whatever the order of the joins (`HuffmanTree.overflow_detected`).

The number of nodes in the queue is not tested where the root is taken off it. The constructor is
defined exactly when some counter is not zero (`HuffmanTree.constructed_iff`), which fails for the
empty input.

## Main definitions

* `HuffmanTree.Reaches`: the queues at the head of the merge loop.
* `HuffmanTree.Constructed`: the constructor is defined, drops no node and returns or throws.

## Main results

* `HuffmanTree.overflow_detected`.
* `HuffmanTree.Reaches.mergeLoop_eq`, `HuffmanTree.constructed_iff`.
-/

namespace HafeCodec

namespace HuffmanTree

variable {Q : PriorityQueue} {past : UInt32} {h : Histogram}

/-! ### Overflow -/

/-- The sum of all frequencies, over all symbols. -/
theorem sum_frequency (h : Histogram) :
    (symbols.map fun s => (h.frequency s).toNat).sum = total h := by
  have hsum := sum_symbols h fun _ => 1
  simp only [Nat.mul_one] at hsum
  exact hsum

theorem length_weights (h : Histogram) :
    (weights h).length = (symbols.filter fun s => h.frequency s ≠ 0).length := by
  rw [weights_eq, List.length_map]

/-- **Overflow is detected exactly.** The constructor throws if and only if at least two symbols
occur and the frequencies add up to `2^32 - 1` or more; otherwise it returns a tree of exact
frequencies whose root has the sum of all frequencies. -/
theorem overflow_detected (Q : PriorityQueue) (past : UInt32) (hne : ∃ s, h.frequency s ≠ 0) :
    (build Q past h = .error (.runtimeError "overflow detected") ↔
      2 ≤ (symbols.filter fun s => h.frequency s ≠ 0).length ∧
        2 ^ 32 - 1 ≤ (symbols.map fun s => (h.frequency s).toNat).sum) ∧
      (¬ (2 ≤ (symbols.filter fun s => h.frequency s ≠ 0).length ∧
          2 ^ 32 - 1 ≤ (symbols.map fun s => (h.frequency s).toNat).sum) →
        ∃ tree, build Q past h = .ok tree ∧ tree.root.Exact ∧
          tree.root.freq = (symbols.map fun s => (h.frequency s).toNat).sum) := by
  have hne' := h.entries_ne_nil_iff.mpr hne
  have hspec := build_spec Q past hne'
  rw [sum_frequency, ← length_weights]
  cases hb : build Q past h with
  | error e =>
    rw [hb] at hspec
    obtain ⟨rfl, hsize, hover⟩ := hspec
    have hboth : 2 ≤ (weights h).length ∧ 2 ^ 32 - 1 ≤ total h := ⟨hsize, hover⟩
    exact ⟨iff_of_true rfl hboth, fun hnot => absurd hboth hnot⟩
  | ok tree =>
    rw [hb] at hspec
    obtain ⟨hexact, -, hlt⟩ := hspec
    refine ⟨iff_of_false nofun fun hboth => ?_, fun _ => ⟨tree, rfl, hexact, freq_root hne' hb⟩⟩
    exact absurd hboth.2 (Nat.not_le.mpr (hlt hboth.1))

theorem overflow_detected_aab :
    (build (MinQueue.sortedList _) 0 aab = .error (.runtimeError "overflow detected") ↔
      2 ≤ (symbols.filter fun s => aab.frequency s ≠ 0).length ∧
        2 ^ 32 - 1 ≤ (symbols.map fun s => (aab.frequency s).toNat).sum) ∧
      (¬ (2 ≤ (symbols.filter fun s => aab.frequency s ≠ 0).length ∧
          2 ^ 32 - 1 ≤ (symbols.map fun s => (aab.frequency s).toNat).sum) →
        ∃ tree, build (MinQueue.sortedList _) 0 aab = .ok tree ∧ tree.root.Exact ∧
          tree.root.freq = (symbols.map fun s => (aab.frequency s).toNat).sum) :=
  overflow_detected (MinQueue.sortedList _) 0 ⟨97, by decide⟩

/-! ### The queues of the merge loop -/

/-- The merge loop, started with the queue `pq`, comes back to its condition after `n` rounds with
the queue `pq'`. -/
inductive Reaches (Q : PriorityQueue) (pq : Q.State) : ℕ → Q.State → Prop
  | start : Reaches Q pq 0 pq
  | round {n : ℕ} {pq' : Q.State} {x y z : HuffmanNode} (h : Reaches Q pq n pq')
      (hsize : 1 < Q.size pq') (hx : top Q pq' = .ok x) (hpop : Q.size (Q.pop pq') ≠ 0)
      (hy : top Q (Q.pop pq') = .ok y) (hz : x.join y = .ok z) :
      Reaches Q pq (n + 1) (Q.push (Q.pop (Q.pop pq')) z)

/-- **The loop continues with every queue it reaches.** -/
theorem Reaches.mergeLoop_eq {pq pq' : Q.State} {n : ℕ} (hr : Reaches Q pq n pq') (fuel : ℕ) :
    mergeLoop Q (n + fuel) pq = mergeLoop Q fuel pq' := by
  induction hr generalizing fuel with
  | start => rw [Nat.zero_add]
  | round _ hsize hx hpop hy hz ih =>
    rw [Nat.add_assoc, Nat.add_comm 1 fuel, ih, mergeLoop, if_pos hsize, hx, ExceptFold.ok_bind,
      if_neg hpop, hy, ExceptFold.ok_bind, hz, ExceptFold.ok_bind]

/-- A queue that is not empty stays so. -/
theorem Reaches.size_ne_zero {pq pq' : Q.State} {n : ℕ} (hr : Reaches Q pq n pq')
    (h0 : Q.size pq ≠ 0) : Q.size pq' ≠ 0 := by
  cases hr with
  | start => exact h0
  | round _ _ _ _ _ _ =>
    rw [Q.size_eq, Q.contents_push, Multiset.card_cons]
    exact Nat.succ_ne_zero _

/-- A queue of at least two nodes is not empty after one is popped. -/
theorem size_pop_ne_zero {pq : Q.State} (hsize : 1 < Q.size pq) : Q.size (Q.pop pq) ≠ 0 := by
  rw [Q.size_eq] at hsize
  obtain ⟨x, y, -, hpop, -⟩ := Q.exists_top_pop_top hsize
  rwa [Q.size_eq, Ne, Multiset.card_eq_zero]

/-- The constructor is defined on a histogram. At the head of the merge loop, and hence where the
root is taken, the queue is not empty; nor is it when the second node of a round is taken, so that
`break` is never executed. The constructor throws, or returns a tree whose leaves are those created
from the histogram. -/
structure Constructed (Q : PriorityQueue) (past : UInt32) (h : Histogram) : Prop where
  size_ne_zero : ∀ n pq, Reaches Q (Q.ofList (leaves h.entries)) n pq → Q.size pq ≠ 0
  size_pop_ne_zero : ∀ n pq, Reaches Q (Q.ofList (leaves h.entries)) n pq → 1 < Q.size pq →
    Q.size (Q.pop pq) ≠ 0
  result : (∃ what, build Q past h = .error (.runtimeError what)) ∨
    ∃ tree, build Q past h = .ok tree ∧
      tree.root.toTree.leaves.Perm (h.entries.map fun e => (e.1, e.2.toNat))

/-- **The constructor is defined** on a histogram that is not empty. -/
theorem constructed_of_entries (Q : PriorityQueue) (past : UInt32) (hne : h.entries ≠ []) :
    Constructed Q past h where
  size_ne_zero n pq hr := by
    refine hr.size_ne_zero ?_
    rw [Q.size_eq, Q.contents_ofList, Multiset.coe_card, leaves, List.length_map]
    exact mt List.length_eq_zero_iff.mp hne
  size_pop_ne_zero n pq _ hsize := HuffmanTree.size_pop_ne_zero hsize
  result := by
    have hspec := build_spec Q past hne
    cases hb : build Q past h with
    | error e =>
      rw [hb] at hspec
      exact Or.inl ⟨"overflow detected", congrArg Except.error hspec.1⟩
    | ok tree => exact Or.inr ⟨tree, rfl, perm_leaves hne hb⟩

/-- The root of an empty histogram is taken off an empty queue. -/
theorem build_eq_undefined (Q : PriorityQueue) (past : UInt32) (hnil : h.entries = []) :
    build Q past h = .error .undefined := by
  have hcont : Q.contents (Q.ofList []) = 0 := Q.contents_ofList []
  have htop : Q.top (Q.ofList []) = none := by
    cases ht : Q.top (Q.ofList []) with
    | none => rfl
    | some x =>
      have hcons := Q.cons_contents_pop ht
      rw [hcont] at hcons
      exact absurd hcons (Multiset.cons_ne_zero)
  rw [build_eq, hnil, leaves, List.map_nil, List.length_nil, mergeLoop, Q.size_eq, hcont,
    Multiset.card_zero, if_neg (Nat.not_lt_zero 1), ExceptFold.ok_bind, top, htop]
  rfl

/-- A histogram with a tree is not empty. -/
theorem entries_ne_nil_of_build {tree : HuffmanTree} (hb : build Q past h = .ok tree) :
    h.entries ≠ [] := by
  intro hnil
  rw [build_eq_undefined Q past hnil] at hb
  cases hb

/-- **Which inputs have a tree.** The constructor is defined on the histogram of an input if and
only if the number of occurrences of some symbol is not a multiple of `2^32`. On all other inputs,
the empty one among them, the root is taken off an empty queue. -/
theorem constructed_iff (Q : PriorityQueue) (past : UInt32) {data : List UInt8}
    (hd : data.length < 2 ^ 64 - 1) :
    (∃ h, Histogram.ofData data = .ok h ∧ Constructed Q past h) ↔
      ∃ s, ¬ 2 ^ 32 ∣ data.count s := by
  obtain ⟨h, hh⟩ := Histogram.ofData_eq_ok hd.ne
  have hfreq (s : UInt8) : h.frequency s ≠ 0 ↔ ¬ 2 ^ 32 ∣ data.count s := by
    rw [Nat.dvd_iff_mod_eq_zero, ← Histogram.frequency_ofData hh s, Ne, ← UInt32.toNat_inj,
      UInt32.toNat_zero]
  constructor
  · rintro ⟨h', hh', hc⟩
    obtain rfl := Except.ok.inj (hh'.symm.trans hh)
    have hsize := hc.size_ne_zero 0 _ Reaches.start
    rw [Q.size_eq, Q.contents_ofList, Multiset.coe_card, leaves, List.length_map] at hsize
    obtain ⟨s, hs⟩ := h'.entries_ne_nil_iff.mp (mt List.length_eq_zero_iff.mpr hsize)
    exact ⟨s, (hfreq s).mp hs⟩
  · rintro ⟨s, hs⟩
    exact ⟨h, hh, constructed_of_entries Q past (h.entries_ne_nil_iff.mpr ⟨s, (hfreq s).mpr hs⟩)⟩

theorem constructed_aab :
    ∃ h, Histogram.ofData [97, 97, 98] = .ok h ∧ Constructed (MinQueue.sortedList _) 0 h :=
  (constructed_iff (MinQueue.sortedList _) 0 (by decide)).mpr ⟨97, by decide⟩

/-- **The empty input has no tree**: the root is taken off an empty queue. -/
theorem not_constructed_nil :
    (¬ ∃ h, Histogram.ofData [] = .ok h ∧ Constructed (MinQueue.sortedList _) 0 h) ∧
      ∃ h, Histogram.ofData [] = .ok h ∧
        build (MinQueue.sortedList _) 0 h = .error .undefined := by
  have hnil : Histogram.entries ⟨fun _ => 0⟩ = [] := by
    rw [Histogram.entries, List.filter_eq_nil_iff.mpr fun s _ => by simp, List.map_nil]
  refine ⟨?_, ⟨fun _ => 0⟩, rfl, build_eq_undefined _ 0 hnil⟩
  rintro ⟨h, hh, hc⟩
  obtain rfl := Except.ok.inj hh
  have hsize := hc.size_ne_zero 0 _ Reaches.start
  rw [List.foldl_nil, hnil] at hsize
  exact hsize rfl

end HuffmanTree

end HafeCodec
