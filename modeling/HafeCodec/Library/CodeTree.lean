import HafeCodec.Library.LengthAssignment
import Mathlib.Algebra.BigOperators.Ring.List
import Mathlib.Data.Nat.Fib.Basic

/-!
# Binary code trees

A code tree is a full binary tree whose leaves carry a symbol and a weight. The codeword of a
leaf is the sequence of turns on the way to it, left being `false` and right being `true`.

A tree is *balanced* when all its weights are positive and no child of a node outweighs the
sibling of that node. The weight of a balanced tree is at least a Fibonacci number of its height
(`CodeTree.fib_le_weight`).

## Main definitions

* `CodeTree`, `CodeTree.weight`, `CodeTree.cost`, `CodeTree.height`, `CodeTree.size`.
* `CodeTree.codewords`, `CodeTree.leaves`: the leaves with and without their codewords.
* `CodeTree.Balanced`, `CodeTree.ChildrenLe`.

## Main results

* `CodeTree.sum_codewords`: the cost is the total weighted length of the codewords.
* `CodeTree.kraft_codewords`: the codewords of a tree exhaust the Kraft inequality.
* `CodeTree.pairwise_codewords`: no codeword is a prefix of another one.
* `CodeTree.exists_codeword_prefix`: the codewords of a tree are complete.
* `CodeTree.length_le_height`, `CodeTree.exists_length_eq_height`.
* `CodeTree.fib_le_weight`.
-/

open LengthAssignment

/-- A full binary tree with a symbol and a weight at every leaf. -/
inductive CodeTree (α : Type*)
  | leaf (a : α) (w : ℕ)
  | node (l r : CodeTree α)

namespace CodeTree

variable {α : Type*}

/-- The sum of the weights of the leaves. -/
def weight : CodeTree α → ℕ
  | leaf _ w => w
  | node l r => weight l + weight r

/-- The sum of the weights of the inner nodes. -/
def cost : CodeTree α → ℕ
  | leaf _ _ => 0
  | node l r => cost l + cost r + (weight l + weight r)

/-- The length of the longest path from the root to a leaf. -/
def height : CodeTree α → ℕ
  | leaf _ _ => 0
  | node l r => max (height l) (height r) + 1

/-- The number of leaves and inner nodes. -/
def size : CodeTree α → ℕ
  | leaf _ _ => 1
  | node l r => size l + size r + 1

/-- A leaf seen from one node further up. -/
def extend (b : Bool) (e : (α × ℕ) × List Bool) : (α × ℕ) × List Bool :=
  (e.1, b :: e.2)

/-- The leaves from left to right, each with its codeword. -/
def codewords : CodeTree α → List ((α × ℕ) × List Bool)
  | leaf a w => [((a, w), [])]
  | node l r => (codewords l).map (extend false) ++ (codewords r).map (extend true)

/-- The symbols and weights of the leaves from left to right. -/
def leaves (t : CodeTree α) : List (α × ℕ) :=
  t.codewords.map Prod.fst

@[simp] theorem leaves_node (l r : CodeTree α) : (node l r).leaves = l.leaves ++ r.leaves := by
  simp only [leaves, codewords, List.map_append, List.map_map]
  rfl

theorem length_leaves_pos : (t : CodeTree α) → 0 < t.leaves.length
  | leaf _ _ => Nat.one_pos
  | node l r => by
    rw [leaves_node, List.length_append]
    exact Nat.add_pos_left l.length_leaves_pos _

theorem size_pos : (t : CodeTree α) → 0 < t.size
  | leaf _ _ => Nat.one_pos
  | node _ _ => Nat.succ_pos _

theorem sum_weight_codewords (t : CodeTree α) :
    (t.codewords.map fun e => e.1.2).sum = t.weight := by
  induction t with
  | leaf a w => simp [codewords, weight]
  | node l r ihl ihr =>
    rw [codewords, List.map_append, List.map_map, List.map_map, List.sum_append, weight, ← ihl,
      ← ihr]
    rfl

/-- One more turn in front of all codewords costs the weight of the tree. -/
theorem sum_extend (b : Bool) (t : CodeTree α) :
    ((t.codewords.map (extend b)).map fun e => e.1.2 * e.2.length).sum =
      (t.codewords.map fun e => e.1.2 * e.2.length).sum + t.weight := by
  rw [← sum_weight_codewords, ← List.sum_map_add, List.map_map]
  congr 1

/-- **The cost is the total weighted length of the codewords.** -/
theorem sum_codewords (t : CodeTree α) :
    (t.codewords.map fun e => e.1.2 * e.2.length).sum = t.cost := by
  induction t with
  | leaf a w => simp [codewords, cost]
  | node l r ihl ihr =>
    rw [codewords, List.map_append, List.sum_append, sum_extend, sum_extend, ihl, ihr, cost]
    ring

/-- The Kraft sum of the codewords of a tree. -/
def kraftSum (t : CodeTree α) : ℚ :=
  (t.codewords.map fun e => (1 / 2 : ℚ) ^ e.2.length).sum

private theorem sum_pow_extend (b : Bool) (t : CodeTree α) :
    ((t.codewords.map (extend b)).map fun e => (1 / 2 : ℚ) ^ e.2.length).sum =
      t.kraftSum * (1 / 2) := by
  rw [kraftSum, ← List.sum_map_mul_right, List.map_map]
  refine congrArg List.sum (List.map_congr_left fun e _ => ?_)
  simp only [Function.comp_apply, extend, List.length_cons, pow_succ]

/-- **The codewords of a tree exhaust the Kraft inequality.** -/
theorem kraft_codewords (t : CodeTree α) : t.kraftSum = 1 := by
  induction t with
  | leaf a w => simp [kraftSum, codewords]
  | node l r ihl ihr =>
    rw [kraftSum, codewords, List.map_append, List.sum_append, sum_pow_extend, sum_pow_extend,
      ihl, ihr]
    norm_num

/-- **No codeword of a tree is a prefix of the codeword of another leaf.** -/
theorem pairwise_codewords (t : CodeTree α) :
    t.codewords.Pairwise fun e f => ¬ e.2 <+: f.2 ∧ ¬ f.2 <+: e.2 := by
  induction t with
  | leaf a w => exact List.pairwise_singleton _ _
  | node l r ihl ihr =>
    rw [codewords, List.pairwise_append, List.pairwise_map, List.pairwise_map]
    refine ⟨ihl.imp ?_, ihr.imp ?_, ?_⟩
    · intro e f hef
      simpa [extend, List.cons_prefix_cons] using hef
    · intro e f hef
      simpa [extend, List.cons_prefix_cons] using hef
    · intro e he f hf
      obtain ⟨e, _, rfl⟩ := List.mem_map.mp he
      obtain ⟨f, _, rfl⟩ := List.mem_map.mp hf
      simp [extend, List.cons_prefix_cons]

/-- The codewords of an inner node are nonempty. -/
theorem codeword_ne_nil {l r : CodeTree α} {e : (α × ℕ) × List Bool}
    (he : e ∈ (node l r).codewords) : e.2 ≠ [] := by
  rcases List.mem_append.mp he with he | he
  all_goals
    obtain ⟨f, _, rfl⟩ := List.mem_map.mp he
    exact List.cons_ne_nil _ _

/-- No codeword is longer than the height. -/
theorem length_le_height {t : CodeTree α} {e : (α × ℕ) × List Bool} (he : e ∈ t.codewords) :
    e.2.length ≤ t.height := by
  induction t generalizing e with
  | leaf a w =>
    rw [List.mem_singleton.mp he]
    rfl
  | node l r ihl ihr =>
    rcases List.mem_append.mp he with he | he
    · obtain ⟨f, hf, rfl⟩ := List.mem_map.mp he
      exact Nat.succ_le_succ ((ihl hf).trans (le_max_left _ _))
    · obtain ⟨f, hf, rfl⟩ := List.mem_map.mp he
      exact Nat.succ_le_succ ((ihr hf).trans (le_max_right _ _))

/-- Some codeword is as long as the tree is high. -/
theorem exists_length_eq_height (t : CodeTree α) : ∃ e ∈ t.codewords, e.2.length = t.height := by
  induction t with
  | leaf a w => exact ⟨_, List.mem_singleton_self _, rfl⟩
  | node l r ihl ihr =>
    rcases le_total r.height l.height with h | h
    · obtain ⟨e, he, hlen⟩ := ihl
      refine ⟨extend false e, List.mem_append_left _ (List.mem_map_of_mem he), ?_⟩
      simp [extend, height, hlen, h]
    · obtain ⟨e, he, hlen⟩ := ihr
      refine ⟨extend true e, List.mem_append_right _ (List.mem_map_of_mem he), ?_⟩
      simp [extend, height, hlen, h]

/-- **The codewords of a tree are complete.** Every list of bits begins with a codeword, or is the
beginning of one. -/
theorem exists_codeword_prefix (t : CodeTree α) (l : List Bool) :
    ∃ e ∈ t.codewords, e.2 <+: l ∨ l <+: e.2 := by
  induction t generalizing l with
  | leaf a w => exact ⟨_, List.mem_singleton_self _, Or.inl List.nil_prefix⟩
  | node l' r ihl ihr =>
    cases l with
    | nil =>
      obtain ⟨e, he, -⟩ := ihl []
      exact ⟨extend false e, List.mem_append_left _ (List.mem_map_of_mem he),
        Or.inr List.nil_prefix⟩
    | cons b l =>
      cases b with
      | false =>
        obtain ⟨e, he, hpre⟩ := ihl l
        refine ⟨extend false e, List.mem_append_left _ (List.mem_map_of_mem he), ?_⟩
        simpa [extend, List.cons_prefix_cons] using hpre
      | true =>
        obtain ⟨e, he, hpre⟩ := ihr l
        refine ⟨extend true e, List.mem_append_right _ (List.mem_map_of_mem he), ?_⟩
        simpa [extend, List.cons_prefix_cons] using hpre

/-! ### Balanced trees -/

/-- No child of the root outweighs `w`. -/
def ChildrenLe (w : ℕ) : CodeTree α → Prop
  | leaf _ _ => True
  | node l r => l.weight ≤ w ∧ r.weight ≤ w

theorem ChildrenLe.mono {v w : ℕ} (h : v ≤ w) : {t : CodeTree α} → t.ChildrenLe v → t.ChildrenLe w
  | leaf _ _, _ => trivial
  | node _ _, ⟨hl, hr⟩ => ⟨hl.trans h, hr.trans h⟩

/-- All weights are positive, and no child of a node outweighs the sibling of that node. -/
def Balanced : CodeTree α → Prop
  | leaf _ w => 0 < w
  | node l r => Balanced l ∧ Balanced r ∧ l.ChildrenLe r.weight ∧ r.ChildrenLe l.weight

theorem Balanced.weight_pos : {t : CodeTree α} → t.Balanced → 0 < t.weight
  | leaf _ _, h => h
  | node _ _, ⟨hl, _⟩ => Nat.add_pos_left hl.weight_pos _

/-- A balanced tree of height `h` weighs at least `fib (h + 2)`, and whatever its children do not
outweigh is at least `fib (h + 1)`. -/
private theorem fib_le (t : CodeTree α) (ht : t.Balanced) :
    Nat.fib (t.height + 2) ≤ t.weight ∧
      ∀ w, 0 < w → t.ChildrenLe w → Nat.fib (t.height + 1) ≤ w := by
  induction t with
  | leaf a w => exact ⟨ht, fun v hv _ => hv⟩
  | node l r ihl ihr =>
    obtain ⟨hl, hr, hlr, hrl⟩ := ht
    obtain ⟨ihl, ihl'⟩ := ihl hl
    obtain ⟨ihr, ihr'⟩ := ihr hr
    have hr1 := ihl' r.weight hr.weight_pos hlr
    have hl1 := ihr' l.weight hl.weight_pos hrl
    constructor
    · rcases le_total r.height l.height with h | h
      · rw [height, max_eq_left h, show l.height + 1 + 2 = l.height + 1 + 1 + 1 from rfl,
          Nat.fib_add_one (Nat.succ_ne_zero _)]
        exact (Nat.add_comm _ _).trans_le (Nat.add_le_add ihl hr1)
      · rw [height, max_eq_right h, show r.height + 1 + 2 = r.height + 1 + 1 + 1 from rfl,
          Nat.fib_add_one (Nat.succ_ne_zero _)]
        exact Nat.add_le_add hl1 ihr
    · rintro w - ⟨hlw, hrw⟩
      rcases le_total r.height l.height with h | h
      · rw [height, max_eq_left h]
        exact ihl.trans hlw
      · rw [height, max_eq_right h]
        exact ihr.trans hrw

/-- **The weight of a balanced tree is at least a Fibonacci number of its height.** -/
theorem fib_le_weight {t : CodeTree α} (ht : t.Balanced) : Nat.fib (t.height + 2) ≤ t.weight :=
  (fib_le t ht).1

end CodeTree
