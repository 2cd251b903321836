import HafeCodec.BitArray.Observation
import HafeCodec.Table.Codewords
import HafeCodec.Tree.Construction

/-!
# The table and the shape of the tree

The table read off a tree by the loop with the explicit stack is compared with the tree itself. The
codeword of a symbol is the sequence of turns from the root to its leaf, followed step by step
(`SymbolTable.extraction`), and the longest codeword is as long as the tree is high. Since the
lengths are optimal, they follow the frequencies: a symbol that occurs more often than another one
has no longer codeword (`SymbolTable.length_antitone`).

## Main definitions

* `HuffmanNode.follow`: the node reached from the root by a sequence of turns.

## Main results

* `HuffmanNode.follow_eq_some_iff`.
* `SymbolTable.Codewords.bitLength_longest`, `SymbolTable.extraction`.
* `SymbolTable.length_antitone`.
-/

open PrefixCode

namespace HafeCodec

namespace HuffmanNode

/-- The node reached by a sequence of turns, `false` leading to the left child and `true` to the
right one. -/
def follow : HuffmanNode → List Bool → Option HuffmanNode
  | n, [] => some n
  | leaf _ _, _ :: _ => none
  | subtree l _ _, false :: p => l.follow p
  | subtree _ r _, true :: p => r.follow p

/-- **The codewords of the tree are the ways to its leaves.** -/
theorem follow_eq_some_iff {n : HuffmanNode} {p : List Bool} {s : UInt8} {f : ℕ} :
    n.follow p = some (leaf s f) ↔ ((s, f), p) ∈ n.toTree.codewords := by
  induction n generalizing p with
  | leaf t g =>
    rw [toTree, CodeTree.codewords, List.mem_singleton]
    cases p with
    | nil => simp [follow, eq_comm]
    | cons b p => simp [follow]
  | subtree l r g ihl ihr =>
    rw [toTree, CodeTree.codewords, List.mem_append, List.mem_map, List.mem_map]
    cases p with
    | nil => simp [follow, CodeTree.extend]
    | cons b p =>
      cases b with
      | false => simp [follow, CodeTree.extend, ihl]
      | true => simp [follow, CodeTree.extend, ihr]

end HuffmanNode

namespace SymbolTable

open HuffmanTree

variable {Q : PriorityQueue} {past : UInt32} {h : Histogram} {tree : HuffmanTree}
  {st : SymbolTable}

/-! ### The longest codeword -/

/-- The element found is one of the elements, and no element has a greater key. -/
theorem maxElement_spec {α : Type} {key : α → ℕ} {l : List α} {m : α}
    (hm : maxElement (fun a b => key a < key b) l = some m) : m ∈ l ∧ ∀ x ∈ l, key x ≤ key m := by
  cases l with
  | nil => cases hm
  | cons a l =>
    obtain rfl := Option.some.inj hm
    clear hm
    induction l generalizing a with
    | nil => simp
    | cons x l ih =>
      rw [List.foldl_cons]
      by_cases hlt : key a < key x
      · obtain ⟨hmem, hmax⟩ := ih x
        simp only [hlt, decide_true, if_true]
        refine ⟨List.mem_cons_of_mem a hmem, List.forall_mem_cons.mpr ⟨?_, hmax⟩⟩
        exact hlt.le.trans (hmax x List.mem_cons_self)
      · obtain ⟨hmem, hmax⟩ := ih a
        obtain ⟨hmaxa, hmaxl⟩ := List.forall_mem_cons.mp hmax
        simp only [hlt, decide_false, Bool.false_eq_true, if_false]
        refine ⟨?_, List.forall_mem_cons.mpr ⟨hmaxa, List.forall_mem_cons.mpr ⟨?_, hmaxl⟩⟩⟩
        · rcases List.mem_cons.mp hmem with hmem | hmem
          · rw [hmem]
            exact List.mem_cons_self
          · exact List.mem_cons_of_mem a (List.mem_cons_of_mem x hmem)
        · exact (Nat.le_of_not_lt hlt).trans hmaxa

/-- **The longest codeword** belongs to some symbol, and no codeword is longer. -/
theorem longest_spec (st : SymbolTable) :
    (∃ s, st.longest = st s) ∧ ∀ s, (st s).bitLength ≤ st.longest.bitLength := by
  rw [longest]
  cases hm : maxElement (fun a b : HuffmanCode => a.bitLength < b.bitLength) (symbols.map st) with
  | none =>
    have hlen := length_symbols
    cases hs : symbols with
    | nil => rw [hs] at hlen; cases hlen
    | cons s l => rw [hs] at hm; cases hm
  | some code =>
    obtain ⟨hmem, hmax⟩ := maxElement_spec hm
    obtain ⟨s, -, rfl⟩ := List.mem_map.mp hmem
    exact ⟨⟨s, rfl⟩, fun t => hmax _ (List.mem_map_of_mem (mem_symbols t))⟩

namespace Codewords

variable (hc : Codewords h tree st) (hne : h.entries ≠ []) (hb : build Q past h = .ok tree)

include hc hne hb

/-- The longest codeword is as long as the tree is high, when the root is not a leaf. -/
theorem bitLength_longest {l r : HuffmanNode} {f : ℕ} (hroot : tree.root = .subtree l r f) :
    st.longest.bitLength = tree.height := by
  obtain ⟨⟨s, hs⟩, hmax⟩ := longest_spec st
  rw [height, HuffmanNode.height_eq]
  refine le_antisymm ?_ ?_
  · have hle := hc.length_code_le_height hne hb s
    rw [hc.clean.length_code, hroot, HuffmanNode.toTree, CodeTree.height] at hle
    rw [hs, hroot, HuffmanNode.toTree, CodeTree.height]
    omega
  · obtain ⟨e, he, hlen⟩ := tree.root.toTree.exists_length_eq_height
    have hpath : e ∈ tree.root.paths := by
      rw [hroot] at he ⊢
      exact he
    rw [← hlen, ← hc.code_path e hpath, hc.clean.length_code]
    exact hmax _

/-- **A heavier symbol has no longer codeword.** -/
theorem length_code_le_of_lt {a b : UInt8} (hab : h.frequency b < h.frequency a)
    (hpos : 0 < h.frequency b) : (st.code a).length ≤ (st.code b).length := by
  have hb' : h.frequency b ≠ 0 := UInt32.pos_iff_ne_zero.mp hpos
  have ha' : h.frequency a ≠ 0 := UInt32.pos_iff_ne_zero.mp (UInt32.lt_trans hpos hab)
  refine (hc.isPrefixFree hne hb).length_le_of_minimal
    (fun s hs => (hc.code_ne_nil_iff hne hb s).mpr hs) nodup_symbols (fun s _ => mem_symbols s)
    (f := fun s => (h.frequency s).toNat) ?_ ha' hb' (UInt32.lt_iff_toNat_lt.mp hab)
  intro d hd hdne
  have hle := hc.sum_weights_le hne hb hd hdne
  rwa [← sum_symbols h fun s => (st.code s).length, ← sum_symbols h fun s => (d s).length] at hle

end Codewords

/-- **The extraction of the codewords agrees with the tree.** The loop ends, every symbol with a
leaf gets the turns on the way to it, every other symbol an empty codeword, and the longest codeword
is as long as the tree is high. -/
theorem extraction (htwo : 2 ≤ (symbols.filter fun s => h.frequency s ≠ 0).length)
    (hb : build Q past h = .ok tree) :
    ∃ st, ofTree tree = .ok st ∧
      (∀ s f p, tree.root.follow p = some (.leaf s f) → (st s).Shows p) ∧
      (∀ s, (∀ f p, tree.root.follow p ≠ some (.leaf s f)) → (st s).Shows []) ∧
      st.longest.bitLength = tree.height := by
  have hne : h.entries ≠ [] := by
    intro hnil
    rw [← List.length_map (fun s => (s, h.frequency s)), ← Histogram.entries, hnil] at htwo
    cases htwo
  obtain ⟨st, hst, hc⟩ := exists_codewords hne hb
  have hread := hc.readable hne hb
  obtain ⟨l, r, f, hroot⟩ : ∃ l r f, tree.root = .subtree l r f := by
    have hlen := (perm_leaves hne hb).length_eq
    cases hroot : tree.root with
    | subtree l r f => exact ⟨l, r, f, rfl⟩
    | leaf s f =>
      rw [hroot, weights_eq, List.length_map] at hlen
      have : (HuffmanNode.leaf s f).toTree.leaves.length = 1 := rfl
      omega
  have hpaths : tree.root.paths = tree.root.toTree.codewords := by
    rw [hroot, HuffmanNode.paths]
  refine ⟨st, hst, fun s f p hp => ?_, fun s hs => ?_, hc.bitLength_longest hne hb hroot⟩
  · rw [HuffmanNode.follow_eq_some_iff, ← hpaths] at hp
    exact (hread s).shows_iff.mpr (hc.code_path _ hp)
  · refine (hread s).shows_iff.mpr (hc.code_absent s ?_)
    by_contra h0
    have hmem := hc.mem_paths hne hb h0
    rw [hpaths, ← HuffmanNode.follow_eq_some_iff] at hmem
    exact hs _ _ hmem

theorem extraction_aab :
    ∃ st, ofTree treeAab = .ok st ∧
      (∀ s f p, treeAab.root.follow p = some (.leaf s f) → (st s).Shows p) ∧
      (∀ s, (∀ f p, treeAab.root.follow p ≠ some (.leaf s f)) → (st s).Shows []) ∧
      st.longest.bitLength = treeAab.height :=
  extraction (by decide +kernel) build_aab

/-- **More frequent symbols never get longer codewords.** -/
theorem length_antitone (hb : build Q past h = .ok tree) :
    ∃ st, ofTree tree = .ok st ∧ ∀ a b, h.frequency b < h.frequency a → 0 < h.frequency b →
      (st a).bitLength ≤ (st b).bitLength := by
  have hne := entries_ne_nil_of_build hb
  obtain ⟨st, hst, hc⟩ := exists_codewords hne hb
  refine ⟨st, hst, fun a b hab hpos => ?_⟩
  rw [← hc.clean.length_code, ← hc.clean.length_code]
  exact hc.length_code_le_of_lt hne hb hab hpos

theorem length_antitone_aab :
    ∃ st, ofTree treeAab = .ok st ∧ (st 97).bitLength ≤ (st 98).bitLength := by
  obtain ⟨st, hst, hle⟩ := length_antitone build_aab
  exact ⟨st, hst, hle 97 98 (by decide) (by decide)⟩

end SymbolTable

end HafeCodec
