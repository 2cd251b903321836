import HafeCodec.Library.CodeTree
import HafeCodec.Machine

/-!
# Nodes of the Huffman tree

A node stores its frequency. A leaf is built from a symbol and its counter, an inner node from its
two children, whose frequencies are tested before they are added. The tree below a node, without
the frequencies of the inner nodes, is a `CodeTree` of the library.

## Main definitions

* `HuffmanNode`, `HuffmanNode.join`.
* `HuffmanNode.toTree`: the code tree below a node.
* `HuffmanNode.Exact`: all stored frequencies are the exact sums, and are below the bound tested.
* `HuffmanNode.recursiveDfs`, `HuffmanNode.height`.

## Main results

* `HuffmanNode.Exact.freq_eq`: the stored frequency is the weight of the tree.
* `HuffmanNode.height_eq`: the depth-first search finds the height of the tree.
-/

namespace HafeCodec

/-- A node with its stored frequency `m_freq`. The two children of an inner node are distinct
nodes, so that `is_leaf()` tells the constructors apart. -/
inductive HuffmanNode
  | leaf (symbol : UInt8) (freq : ℕ)
  | subtree (left right : HuffmanNode) (freq : ℕ)
  deriving DecidableEq, Repr

namespace HuffmanNode

/-- `freq()`. -/
def freq : HuffmanNode → ℕ
  | leaf _ f => f
  | subtree _ _ f => f

/-- `HuffmanNode(uint8_t symbol, uint32_t frequency)`. -/
def ofSymbol (symbol : UInt8) (frequency : UInt32) : HuffmanNode :=
  leaf symbol frequency.toNat

/-- `std::numeric_limits<uint32_t>::max()`. -/
def maxFreq : ℕ :=
  2 ^ 32 - 1

/-- `HuffmanNode(HuffmanNode *left, HuffmanNode *right)`. -/
def join (left right : HuffmanNode) : Outcome HuffmanNode :=
  if maxFreq ≤ left.freq ∨ maxFreq ≤ right.freq then .error (.runtimeError "overflow detected")
  else if maxFreq ≤ left.freq + right.freq then .error (.runtimeError "overflow detected")
  else .ok (subtree left right (left.freq + right.freq))

/-- `recursive_dfs(callback, node, cur_depth)`, the callback acting on a state. -/
def recursiveDfs {σ : Type} (callback : σ → HuffmanNode → ℕ → σ) : σ → HuffmanNode → ℕ → σ
  | state, leaf s f, curDepth => callback state (leaf s f) curDepth
  | state, subtree l r f, curDepth =>
    recursiveDfs callback
      (recursiveDfs callback (callback state (subtree l r f) curDepth) l (curDepth + 1)) r
      (curDepth + 1)

/-- `HuffmanTree::height()`. -/
def height (root : HuffmanNode) : ℕ :=
  recursiveDfs (fun height _ curDepth => if height < curDepth then curDepth else height) 0 root 0

/-- The code tree below a node. -/
def toTree : HuffmanNode → CodeTree UInt8
  | leaf s f => CodeTree.leaf s f
  | subtree l r _ => CodeTree.node l.toTree r.toTree

/-- Every inner node stores the exact sum of the frequencies of its children, which is below the
bound tested. -/
def Exact : HuffmanNode → Prop
  | leaf _ _ => True
  | subtree l r f => l.Exact ∧ r.Exact ∧ f = l.freq + r.freq ∧ f < maxFreq

theorem Exact.freq_eq : {n : HuffmanNode} → n.Exact → n.freq = n.toTree.weight
  | leaf _ _, _ => rfl
  | subtree l r f, ⟨hl, hr, hf, _⟩ => by
    rw [freq, toTree, CodeTree.weight, hf, hl.freq_eq, hr.freq_eq]

/-- Two nodes are joined exactly when their frequencies stay below the bound. -/
theorem join_eq (left right : HuffmanNode) :
    left.join right =
      if maxFreq ≤ left.freq + right.freq then .error (.runtimeError "overflow detected")
      else .ok (subtree left right (left.freq + right.freq)) := by
  rw [join]
  split_ifs with h₁ h₂ h₂
  · rfl
  · omega
  · rfl
  · rfl

private theorem recursiveDfs_height (n : HuffmanNode) (m d : ℕ) :
    recursiveDfs (fun height _ curDepth => if height < curDepth then curDepth else height) m n d =
      max m (d + n.toTree.height) := by
  induction n generalizing m d with
  | leaf s f =>
    rw [recursiveDfs, toTree, CodeTree.height]
    split_ifs <;> omega
  | subtree l r f ihl ihr =>
    rw [recursiveDfs, ihl, ihr, toTree, CodeTree.height]
    split_ifs <;> omega

/-- **The depth-first search finds the height of the tree.** -/
theorem height_eq (root : HuffmanNode) : root.height = root.toTree.height := by
  rw [height, recursiveDfs_height, Nat.zero_add, Nat.zero_max]

end HuffmanNode

end HafeCodec
