import HafeCodec.Library.GreedyMerge
import HafeCodec.Library.MinQueue
import HafeCodec.Tree.Histogram
import HafeCodec.Tree.HuffmanNode
import Mathlib.Tactic.NormNum.NatFib

/-!
# Construction of the Huffman tree

The constructor pushes one leaf for every entry of the histogram into a priority queue and joins
two nodes of least frequency until one is left. `std::priority_queue` is any `MinQueue` on the
frequencies, so every result holds for every way of breaking ties. The ownership of the nodes by
the vector `gc` is left out.

The merge loop refines the greedy merging of the library: the code tree below the root is obtained
from the leaves by `GreedyMerge` (`HuffmanTree.greedyMerge_root`).

## Main definitions

* `PriorityQueue`, `HuffmanTree.mergeLoop`, `HuffmanTree.build`.

## Main results

* `HuffmanTree.mergeLoop_spec`: the loop either leaves one node obtained by greedy merging, or
  throws since the frequencies add up to the bound.
* `HuffmanTree.greedyMerge_root`, `HuffmanTree.exists_build`.
* `HuffmanTree.balanced_root`, `HuffmanTree.height_le`.
-/

namespace HafeCodec

/-- An implementation of `std::priority_queue<HuffmanNode*, ...>` ordered by `freq()`. -/
abbrev PriorityQueue : Type 1 :=
  MinQueue.{0, 0} HuffmanNode HuffmanNode.freq

/-- The tree with its root `m_root`. -/
structure HuffmanTree where
  root : HuffmanNode

namespace HuffmanTree

/-- `pq.top()`, which is undefined on the empty queue. -/
def top (Q : PriorityQueue) (pq : Q.State) : Outcome HuffmanNode :=
  match Q.top pq with
  | some x => .ok x
  | none => .error .undefined

/-- `while (pq.size() > 1) { ... }`. -/
def mergeLoop (Q : PriorityQueue) : ℕ → Q.State → Outcome Q.State
  | 0, pq => if 1 < Q.size pq then .error .loopBound else .ok pq
  | fuel + 1, pq =>
    if 1 < Q.size pq then do
      let x ← top Q pq
      if Q.size (Q.pop pq) = 0 then return Q.pop pq -- the `break` of the source, which drops `x`
      else do
        let y ← top Q (Q.pop pq)
        let z ← x.join y
        mergeLoop Q fuel (Q.push (Q.pop (Q.pop pq)) z)
    else .ok pq

/-- The leaves pushed by the constructor. -/
def leaves (entries : List (UInt8 × UInt32)) : List HuffmanNode :=
  entries.map fun e => HuffmanNode.ofSymbol e.1 e.2

/-- `HuffmanTree(const Histogram &histogram)`. -/
def build (Q : PriorityQueue) (past : UInt32) (histogram : Histogram) : Outcome HuffmanTree := do
  let entries ← histogram.walk past (histogram.begin past)
  let pq ← mergeLoop Q (leaves entries).length (Q.ofList (leaves entries))
  let root ← top Q pq
  return ⟨root⟩

/-- `HuffmanTree::height()`. -/
def height (tree : HuffmanTree) : ℕ :=
  tree.root.height

variable {Q : PriorityQueue}

theorem top_eq_ok {pq : Q.State} {x : HuffmanNode} (h : Q.top pq = some x) :
    top Q pq = .ok x := by
  rw [top, h]

/-- The sum of the frequencies in a queue. -/
def totalFreq (s : Multiset HuffmanNode) : ℕ :=
  (s.map HuffmanNode.freq).sum

/-- What the merge loop does to the nodes `s` of its queue: one node is left, obtained from them by
greedy merging, or the frequencies add up to the bound and an overflow is reported. -/
def LoopSpec (Q : PriorityQueue) (s : Multiset HuffmanNode) : Outcome Q.State → Prop
  | .ok pq => ∃ n, Q.contents pq = {n} ∧ n.Exact ∧
      GreedyMerge (s.map HuffmanNode.toTree) n.toTree ∧
      (1 < s.card → totalFreq s < HuffmanNode.maxFreq)
  | .error e => e = .runtimeError "overflow detected" ∧ 1 < s.card ∧
      HuffmanNode.maxFreq ≤ totalFreq s

/-- One node is left as it is. -/
theorem loopSpec_singleton {fuel : ℕ} {pq : Q.State} (hcard : (Q.contents pq).card = 1)
    (hexact : ∀ n ∈ Q.contents pq, n.Exact) :
    LoopSpec Q (Q.contents pq) (mergeLoop Q fuel pq) := by
  obtain ⟨n, hn⟩ := Multiset.card_eq_one.mp hcard
  have hstop : mergeLoop Q fuel pq = .ok pq := by
    cases fuel with
    | zero => rw [mergeLoop, Q.size_eq, hcard, if_neg (lt_irrefl 1)]
    | succ fuel => rw [mergeLoop, Q.size_eq, hcard, if_neg (lt_irrefl 1)]
  rw [hstop]
  refine ⟨n, hn, hexact n (hn ▸ Multiset.mem_singleton_self n), ?_, fun h => absurd hcard h.ne'⟩
  rw [hn, Multiset.map_singleton]
  exact GreedyMerge.done _

/-- One round of the loop on at least two nodes joins the two nodes on top. -/
theorem mergeLoop_succ {fuel : ℕ} {pq : Q.State} {x y : HuffmanNode}
    (hsize : 1 < (Q.contents pq).card) (hx : Q.top pq = some x)
    (hpop : Q.contents (Q.pop pq) ≠ 0) (hy : Q.top (Q.pop pq) = some y) :
    mergeLoop Q (fuel + 1) pq =
      if HuffmanNode.maxFreq ≤ x.freq + y.freq then .error (.runtimeError "overflow detected")
      else mergeLoop Q fuel (Q.push (Q.pop (Q.pop pq)) (x.subtree y (x.freq + y.freq))) := by
  have hpos : ¬ (Q.contents (Q.pop pq)).card = 0 := by rwa [Multiset.card_eq_zero]
  rw [mergeLoop, Q.size_eq, if_pos hsize, top_eq_ok hx, ExceptFold.ok_bind, Q.size_eq,
    if_neg hpos, top_eq_ok hy, ExceptFold.ok_bind, HuffmanNode.join_eq]
  split_ifs
  · rfl
  · rfl

/-- A step of the loop is a step of the greedy merging of the trees. -/
theorem greedyMerge_step {x y : HuffmanNode} {s : Multiset HuffmanNode} {t : CodeTree UInt8}
    {f : ℕ} (hexact : ∀ n ∈ x ::ₘ y ::ₘ s, n.Exact) (hx : ∀ z ∈ y ::ₘ s, x.freq ≤ z.freq)
    (hy : ∀ z ∈ s, y.freq ≤ z.freq)
    (h : GreedyMerge ((x.subtree y f ::ₘ s).map HuffmanNode.toTree) t) :
    GreedyMerge ((x ::ₘ y ::ₘ s).map HuffmanNode.toTree) t := by
  have hxe : x.Exact := hexact x (Multiset.mem_cons_self x _)
  have hse : ∀ z ∈ y ::ₘ s, z.Exact := fun z hz => hexact z (Multiset.mem_cons_of_mem hz)
  have hye : y.Exact := hse y (Multiset.mem_cons_self y s)
  rw [Multiset.map_cons] at h
  rw [Multiset.map_cons, Multiset.map_cons]
  refine GreedyMerge.merge ?_ ?_ h
  · rw [← Multiset.map_cons HuffmanNode.toTree]
    intro t ht
    obtain ⟨z, hz, rfl⟩ := Multiset.mem_map.mp ht
    rw [← hxe.freq_eq, ← (hse z hz).freq_eq]
    exact hx z hz
  · intro t ht
    obtain ⟨z, hz, rfl⟩ := Multiset.mem_map.mp ht
    rw [← hye.freq_eq, ← (hse z (Multiset.mem_cons_of_mem hz)).freq_eq]
    exact hy z hz

@[simp] theorem totalFreq_cons (x : HuffmanNode) (s : Multiset HuffmanNode) :
    totalFreq (x ::ₘ s) = x.freq + totalFreq s := by
  rw [totalFreq, Multiset.map_cons, Multiset.sum_cons, totalFreq]

/-- The specification of the rest of the loop gives that of the loop. -/
theorem LoopSpec.of_step {x y : HuffmanNode} {s : Multiset HuffmanNode} {r : Outcome Q.State}
    (hexact : ∀ n ∈ x ::ₘ y ::ₘ s, n.Exact) (hx : ∀ z ∈ y ::ₘ s, x.freq ≤ z.freq)
    (hy : ∀ z ∈ s, y.freq ≤ z.freq) (hlt : x.freq + y.freq < HuffmanNode.maxFreq)
    (h : LoopSpec Q (x.subtree y (x.freq + y.freq) ::ₘ s) r) :
    LoopSpec Q (x ::ₘ y ::ₘ s) r := by
  have htotal : totalFreq (x.subtree y (x.freq + y.freq) ::ₘ s) = totalFreq (x ::ₘ y ::ₘ s) := by
    rw [totalFreq_cons, totalFreq_cons, totalFreq_cons, ← Nat.add_assoc]
    rfl
  have hcard : 1 < (x ::ₘ y ::ₘ s).card := by
    rw [Multiset.card_cons, Multiset.card_cons]
    omega
  cases r with
  | error e =>
    obtain ⟨he, -, hmax⟩ := h
    exact ⟨he, hcard, htotal ▸ hmax⟩
  | ok pq =>
    obtain ⟨n, hn, hne, hgreedy, hmax⟩ := h
    refine ⟨n, hn, hne, greedyMerge_step hexact hx hy hgreedy, fun _ => ?_⟩
    rcases s.empty_or_exists_mem with rfl | ⟨z, hz⟩
    · rw [totalFreq_cons, totalFreq_cons]
      exact hlt
    · rw [← htotal]
      refine hmax ?_
      have := Multiset.card_pos_iff_exists_mem.mpr ⟨z, hz⟩
      rw [Multiset.card_cons]
      omega

/-- **The merge loop refines greedy merging**, and reports an overflow exactly when the exact sum
of the frequencies of at least two nodes reaches the bound. -/
theorem mergeLoop_spec (fuel : ℕ) (pq : Q.State) (hfuel : (Q.contents pq).card ≤ fuel + 1)
    (hne : Q.contents pq ≠ 0) (hexact : ∀ n ∈ Q.contents pq, n.Exact) :
    LoopSpec Q (Q.contents pq) (mergeLoop Q fuel pq) := by
  have hpos := Multiset.card_pos.mpr hne
  induction fuel generalizing pq with
  | zero => exact loopSpec_singleton (by omega) hexact
  | succ fuel ih =>
    rcases (Nat.succ_le_of_lt hpos).eq_or_lt with hone | hsize
    · exact loopSpec_singleton hone.symm hexact
    obtain ⟨x, y, hx, hpop, hy, hcont, hxle, hyle⟩ := Q.exists_top_pop_top hsize
    rw [mergeLoop_succ hsize hx hpop hy, hcont]
    rw [hcont, Multiset.card_cons, Multiset.card_cons] at hfuel
    rw [hcont] at hexact
    split_ifs with hover
    · refine ⟨rfl, by rw [Multiset.card_cons, Multiset.card_cons]; omega, ?_⟩
      rw [totalFreq_cons, totalFreq_cons]
      omega
    have hlt := Nat.lt_of_not_le hover
    have hpush := Q.contents_push (Q.pop (Q.pop pq)) (x.subtree y (x.freq + y.freq))
    refine LoopSpec.of_step hexact hxle hyle hlt (hpush ▸ ih _ ?_ ?_ ?_ ?_)
    · rw [hpush, Multiset.card_cons]
      omega
    · rw [hpush]
      exact Multiset.cons_ne_zero
    · rw [hpush]
      intro n hn
      rcases Multiset.mem_cons.mp hn with rfl | hn
      · exact ⟨hexact x (by simp), hexact y (by simp), rfl, hlt⟩
      · exact hexact n (by simp [hn])
    · rw [hpush, Multiset.card_cons]
      omega

/-! ### The tree of a histogram -/

/-- The symbols that occur, with their frequencies as numbers. -/
def weights (h : Histogram) : List (UInt8 × ℕ) :=
  h.entries.map fun e => (e.1, e.2.toNat)

/-- The sum of all frequencies. -/
def total (h : Histogram) : ℕ :=
  ((weights h).map Prod.snd).sum

theorem weights_eq (h : Histogram) :
    weights h = (symbols.filter fun s => h.frequency s ≠ 0).map
      fun s => (s, (h.frequency s).toNat) := by
  rw [weights, Histogram.entries, List.map_map]
  rfl

/-- A sum over all symbols weighted by their frequencies has no other terms than those of the
symbols that occur. -/
theorem sum_symbols (h : Histogram) (g : UInt8 → ℕ) :
    (symbols.map fun s => (h.frequency s).toNat * g s).sum =
      ((weights h).map fun p => p.2 * g p.1).sum := by
  rw [weights_eq, List.map_map]
  induction symbols with
  | nil => rfl
  | cons s l ih =>
    by_cases hs : h.frequency s = 0
    · rw [List.filter_cons_of_neg (by simpa using hs), ← ih, List.map_cons, List.sum_cons, hs,
        UInt32.toNat_zero, Nat.zero_mul, Nat.zero_add]
    · rw [List.filter_cons_of_pos (by simpa using hs), List.map_cons, List.sum_cons, ih,
        List.map_cons, List.sum_cons]
      rfl

theorem map_fst_weights (h : Histogram) : (weights h).map Prod.fst = h.entries.map Prod.fst := by
  rw [weights, List.map_map]
  rfl

theorem mem_weights {h : Histogram} {s : UInt8} {f : ℕ} :
    (s, f) ∈ weights h ↔ f = (h.frequency s).toNat ∧ f ≠ 0 := by
  rw [weights, List.mem_map]
  constructor
  · rintro ⟨⟨t, g⟩, ht, heq⟩
    obtain ⟨rfl, rfl⟩ := Prod.mk.inj heq
    obtain ⟨rfl, hne⟩ := h.mem_entries.mp ht
    exact ⟨rfl, fun h0 => hne (UInt32.toNat_inj.mp h0)⟩
  · rintro ⟨rfl, hne⟩
    refine ⟨(s, h.frequency s), h.mem_entries.mpr ⟨rfl, fun h0 => hne ?_⟩, rfl⟩
    rw [h0]
    rfl

theorem mem_map_fst_weights {h : Histogram} {s : UInt8} :
    s ∈ (weights h).map Prod.fst ↔ h.frequency s ≠ 0 := by
  rw [map_fst_weights, h.map_fst_entries, List.mem_filter]
  simp [mem_symbols]

/-- The trees below the leaves pushed. -/
theorem map_toTree_leaves (h : Histogram) :
    (leaves h.entries : Multiset HuffmanNode).map HuffmanNode.toTree =
      (weights h : Multiset (UInt8 × ℕ)).map fun p => CodeTree.leaf p.1 p.2 := by
  rw [leaves, weights, Multiset.map_coe, Multiset.map_coe, List.map_map, List.map_map]
  rfl

theorem totalFreq_leaves (h : Histogram) : totalFreq (leaves h.entries) = total h := by
  rw [totalFreq, leaves, total, weights, Multiset.map_coe, Multiset.sum_coe, List.map_map,
    List.map_map]
  rfl

theorem length_leaves (h : Histogram) : (leaves h.entries).length = (weights h).length := by
  rw [leaves, weights, List.length_map, List.length_map]

/-- The constructor works on the entries of the histogram. -/
theorem build_eq (Q : PriorityQueue) (past : UInt32) (h : Histogram) :
    build Q past h = do
      let pq ← mergeLoop Q (leaves h.entries).length (Q.ofList (leaves h.entries))
      let root ← top Q pq
      return ⟨root⟩ := by
  rw [build, h.walk_begin past, ExceptFold.ok_bind]

/-- What the constructor returns on a histogram that is not empty: a tree obtained by greedy
merging, or an overflow. -/
def BuildSpec (h : Histogram) : Outcome HuffmanTree → Prop
  | .ok tree => tree.root.Exact ∧
      GreedyMerge ((weights h : Multiset (UInt8 × ℕ)).map fun p => CodeTree.leaf p.1 p.2)
        tree.root.toTree ∧
      (1 < (weights h).length → total h < HuffmanNode.maxFreq)
  | .error e => e = .runtimeError "overflow detected" ∧ 1 < (weights h).length ∧
      HuffmanNode.maxFreq ≤ total h

/-- **The constructor refines greedy merging.** -/
theorem build_spec (Q : PriorityQueue) (past : UInt32) {h : Histogram} (hne : h.entries ≠ []) :
    BuildSpec h (build Q past h) := by
  have hcont : Q.contents (Q.ofList (leaves h.entries)) = (leaves h.entries : Multiset _) :=
    Q.contents_ofList _
  have hpos : (leaves h.entries).length ≠ 0 := by
    rwa [leaves, List.length_map, Ne, List.length_eq_zero_iff]
  have hspec : LoopSpec Q (leaves h.entries : Multiset HuffmanNode)
      (mergeLoop Q (leaves h.entries).length (Q.ofList (leaves h.entries))) := by
    rw [← hcont]
    refine mergeLoop_spec _ _ ?_ ?_ ?_
    · rw [hcont, Multiset.coe_card]
      exact Nat.le_succ _
    · rwa [hcont, Ne, ← Multiset.card_eq_zero, Multiset.coe_card]
    · rw [hcont]
      intro n hn
      obtain ⟨e, -, rfl⟩ := List.mem_map.mp (Multiset.mem_coe.mp hn)
      trivial
  rw [build_eq]
  cases hloop : mergeLoop Q (leaves h.entries).length (Q.ofList (leaves h.entries)) with
  | error e =>
    rw [hloop, LoopSpec, Multiset.coe_card, totalFreq_leaves, length_leaves] at hspec
    exact hspec
  | ok pq =>
    rw [hloop, LoopSpec, Multiset.coe_card, totalFreq_leaves, length_leaves,
      map_toTree_leaves] at hspec
    obtain ⟨n, hn, hexact, hgreedy, htotal⟩ := hspec
    obtain ⟨x, hx⟩ := Q.exists_top (q := pq) (hn ▸ Multiset.singleton_ne_zero n)
    have hxn : x = n := by
      have hmem := Q.cons_contents_pop hx ▸ Multiset.mem_cons_self x (Q.contents (Q.pop pq))
      rw [hn] at hmem
      exact Multiset.mem_singleton.mp hmem
    rw [ExceptFold.ok_bind, top_eq_ok hx, hxn]
    exact ⟨hexact, hgreedy, htotal⟩

section Built

variable {past : UInt32} {h : Histogram} {tree : HuffmanTree}

/-- The constructor returns when the frequencies add up to less than the bound. -/
theorem exists_build (Q : PriorityQueue) (past : UInt32) (hne : h.entries ≠ [])
    (hlt : total h < HuffmanNode.maxFreq) : ∃ tree, build Q past h = .ok tree := by
  have hspec := build_spec Q past hne
  cases hb : build Q past h with
  | ok tree => exact ⟨tree, rfl⟩
  | error e =>
    rw [hb] at hspec
    exact absurd hspec.2.2 (Nat.not_le.mpr hlt)

variable (hne : h.entries ≠ []) (hb : build Q past h = .ok tree)

include hne hb

theorem exact_root : tree.root.Exact :=
  (hb ▸ build_spec Q past hne : BuildSpec h (.ok tree)).1

theorem greedyMerge_root :
    GreedyMerge ((weights h : Multiset (UInt8 × ℕ)).map fun p => CodeTree.leaf p.1 p.2)
      tree.root.toTree :=
  (hb ▸ build_spec Q past hne : BuildSpec h (.ok tree)).2.1

/-- The leaves of the tree are the symbols that occur. -/
theorem perm_leaves : tree.root.toTree.leaves.Perm (weights h) :=
  Multiset.coe_eq_coe.mp (greedyMerge_root hne hb).leaves_eq_of_leaf

theorem nodup_map_fst_leaves : (tree.root.toTree.leaves.map Prod.fst).Nodup := by
  rw [((perm_leaves hne hb).map Prod.fst).nodup_iff, map_fst_weights]
  exact h.nodup_map_fst_entries

/-- The frequency of the root is the sum of all frequencies. -/
theorem freq_root : tree.root.freq = total h := by
  rw [(exact_root hne hb).freq_eq, ← CodeTree.sum_weight_codewords, total,
    ← ((perm_leaves hne hb).map Prod.snd).sum_eq, CodeTree.leaves, List.map_map]
  rfl

/-- **The tree is balanced.** -/
theorem balanced_root : tree.root.toTree.Balanced := by
  refine (greedyMerge_root hne hb).balanced (GreedyMerge.settled_leaf ?_)
  rintro ⟨s, f⟩ hp
  exact Nat.pos_of_ne_zero (mem_weights.mp (Multiset.mem_coe.mp hp)).2

/-- A bound on the frequency of the root. -/
theorem freq_root_lt : tree.root.freq < 2 ^ 32 := by
  have hexact := exact_root hne hb
  have hperm := perm_leaves hne hb
  cases hroot : tree.root with
  | subtree l r f =>
    rw [hroot] at hexact
    have hlt : f < HuffmanNode.maxFreq := hexact.2.2.2
    exact hlt.trans (by decide)
  | leaf s f =>
    rw [hroot] at hperm
    have hmem : (s, f) ∈ weights h := hperm.mem_iff.mp (List.mem_singleton_self _)
    rw [HuffmanNode.freq, (mem_weights.mp hmem).1]
    exact (h.frequency s).toNat_lt

/-- **The frequency of the root is at least a Fibonacci number of the height.** -/
theorem fib_le_freq_root : Nat.fib (tree.height + 2) ≤ tree.root.freq := by
  rw [height, HuffmanNode.height_eq, (exact_root hne hb).freq_eq]
  exact CodeTree.fib_le_weight (balanced_root hne hb)

/-- The height is at most 45. -/
theorem height_le : tree.root.toTree.height ≤ 45 := by
  by_contra hlt
  have hfib := fib_le_freq_root hne hb
  rw [height, HuffmanNode.height_eq] at hfib
  have hmono := Nat.fib_mono (show 48 ≤ tree.root.toTree.height + 2 by omega)
  have hval : Nat.fib 48 = 4807526976 := by norm_num
  have hroot := freq_root_lt hne hb
  omega

end Built

/-! ### An instance -/

/-- The histogram of the string `aab`. -/
def aab : Histogram :=
  [97, 97, 98].foldl Histogram.increment ⟨fun _ => 0⟩

/-- Its tree. -/
def treeAab : HuffmanTree :=
  ⟨.subtree (.leaf 98 1) (.leaf 97 2) 3⟩

theorem build_aab : build (MinQueue.sortedList _) 0 aab = .ok treeAab := by
  have hentries : aab.entries = [(97, 2), (98, 1)] := by decide +kernel
  rw [build_eq, hentries]
  rfl

end HuffmanTree

end HafeCodec
