import HafeCodec.Table.SymbolTable
import Mathlib.Algebra.BigOperators.Group.Finset.Basic

/-!
# The codewords of a histogram

The table read off the tree of a histogram holds the paths of the tree. Its codewords are
therefore prefix-free, belong to exactly the symbols that occur, exhaust the Kraft inequality, have
at most 45 bits, and are of minimal total weighted length among all prefix-free codes.

## Main definitions

* `SymbolTable.Codewords h tree st`: what the table holds.

## Main results

* `SymbolTable.exists_codewords`: the table is built and holds the paths of the tree.
* `SymbolTable.Codewords.isPrefixFree`, `SymbolTable.Codewords.length_code_le`.
* `SymbolTable.complete`: the codewords are prefix-free and complete.
* `SymbolTable.optimal`: the codewords are of minimal total weighted length.
-/

open BitString PrefixCode

namespace HafeCodec

theorem byteBits_ne_nil (b : UInt8) : byteBits b ≠ [] :=
  List.ne_nil_of_length_pos (by rw [length_byteBits]; decide)

/-- The code of eight bits for every byte is prefix-free. -/
theorem isPrefixFree_byteBits (S : Set UInt8) : IsPrefixFree byteBits S := by
  intro a _ b _ hpre
  exact byteBits_injective (hpre.eq_of_length (by rw [length_byteBits, length_byteBits]))

namespace SymbolTable

open HuffmanTree

variable {Q : PriorityQueue} {past : UInt32} {h : Histogram} {tree : HuffmanTree}
  {st : SymbolTable}

theorem Clean.length_code (hc : st.Clean) (s : UInt8) : (st.code s).length = (st s).bitLength :=
  (hc s).bitIdx_eq.symm

theorem Clean.empty_eq (hc : st.Clean) (s : UInt8) : (st s).empty = (st.code s).isEmpty := by
  rw [BitArray.empty, (hc s).bitIdx_eq, Bool.eq_iff_iff, beq_iff_eq, List.length_eq_zero_iff,
    List.isEmpty_iff]

/-- The table `st` holds the paths of the tree of the histogram, and nothing else. -/
structure Codewords (h : Histogram) (tree : HuffmanTree) (st : SymbolTable) : Prop where
  clean : st.Clean
  code_path : ∀ e ∈ tree.root.paths, st.code e.1.1 = e.2
  code_absent : ∀ s, h.frequency s = 0 → st.code s = []

/-- **The table of the tree of a histogram** is built, whatever the shape of the tree. -/
theorem exists_codewords (hne : h.entries ≠ []) (hb : build Q past h = .ok tree) :
    ∃ st, ofTree tree = .ok st ∧ Codewords h tree st := by
  have hleaves (s : UInt8) :
      s ∈ tree.root.toTree.leaves.map Prod.fst ↔ h.frequency s ≠ 0 := by
    rw [((perm_leaves hne hb).map Prod.fst).mem_iff, mem_map_fst_weights]
  obtain ⟨st, hst, hpaths, habsent⟩ := exists_buildSymbolTable
    ((height_le hne hb).trans (by decide)) (nodup_map_fst_leaves hne hb)
  refine ⟨st, hst, ?_, fun e he => (hpaths e he).bits_eq, ?_⟩
  · intro s
    by_cases hs : s ∈ tree.root.toTree.leaves.map Prod.fst
    · rw [← HuffmanNode.map_fst_paths, List.map_map] at hs
      obtain ⟨e, he, rfl⟩ := List.mem_map.mp hs
      rw [code, Function.comp_apply, (hpaths e he).bits_eq]
      exact hpaths e he
    · rw [code, (habsent s hs).bits_eq]
      exact habsent s hs
  · intro s hs
    exact (habsent s fun hmem => (hleaves s).mp hmem hs).bits_eq

/-- The tree of at least two symbols has an inner node as its root. -/
theorem paths_root (hne : h.entries ≠ []) (hb : build Q past h = .ok tree)
    (htwo : 2 ≤ (weights h).length) : tree.root.paths = tree.root.toTree.codewords := by
  have hlen := (perm_leaves hne hb).length_eq
  cases hroot : tree.root with
  | subtree l r f => rfl
  | leaf s f =>
    rw [hroot] at hlen
    exact absurd (htwo.trans_eq hlen.symm) (Nat.not_le.mpr Nat.one_lt_two)

namespace Codewords

variable (hc : Codewords h tree st) (hne : h.entries ≠ []) (hb : build Q past h = .ok tree)

include hc hne hb

/-- A symbol that occurs has its path in the table. -/
theorem mem_paths {s : UInt8} (hs : h.frequency s ≠ 0) :
    ((s, (h.frequency s).toNat), st.code s) ∈ tree.root.paths := by
  have hmem : (s, (h.frequency s).toNat) ∈ tree.root.toTree.leaves :=
    (perm_leaves hne hb).mem_iff.mpr
      (mem_weights.mpr ⟨rfl, fun h0 => hs (UInt32.toNat_inj.mp h0)⟩)
  rw [← HuffmanNode.map_fst_paths] at hmem
  obtain ⟨e, he, heq⟩ := List.mem_map.mp hmem
  have hcode := hc.code_path e he
  rw [heq] at hcode
  rw [hcode, ← heq]
  exact he

theorem code_ne_nil_iff (s : UInt8) : st.code s ≠ [] ↔ h.frequency s ≠ 0 := by
  constructor
  · exact fun hs h0 => hs (hc.code_absent s h0)
  · exact fun hs => HuffmanNode.path_ne_nil (hc.mem_paths hne hb hs)

/-- **The codewords are prefix-free.** -/
theorem isPrefixFree : IsPrefixFree st.code {s | h.frequency s ≠ 0} := by
  intro s hs t ht hpre
  have : Std.Symm fun e f : (UInt8 × ℕ) × List Bool => ¬ e.2 <+: f.2 ∧ ¬ f.2 <+: e.2 :=
    ⟨fun _ _ => And.symm⟩
  by_contra hst
  exact (tree.root.pairwise_paths.forall (hc.mem_paths hne hb hs) (hc.mem_paths hne hb ht)
    fun heq => hst (congrArg (fun e => e.1.1) heq)).1 hpre

/-- No codeword is longer than the tree is high, save that of a single leaf. -/
theorem length_code_le_height (s : UInt8) :
    (st.code s).length ≤ max 1 tree.root.toTree.height := by
  by_cases hs : h.frequency s = 0
  · rw [hc.code_absent s hs]
    exact Nat.zero_le _
  · exact HuffmanNode.length_path_le (hc.mem_paths hne hb hs)

/-- **No codeword has more than 45 bits.** -/
theorem length_code_le (s : UInt8) : (st.code s).length ≤ 45 :=
  (hc.length_code_le_height hne hb s).trans (max_le (by decide) (height_le hne hb))

theorem bitLength_le (s : UInt8) : (st s).bitLength ≤ 45 := by
  rw [← hc.clean.length_code]
  exact hc.length_code_le hne hb s

theorem readable (s : UInt8) : (st s).Readable := by
  have hle := hc.length_code_le hne hb s
  exact (hc.clean s).readable (by omega)

/-- The symbols that occur, each with its frequency and codeword, are the paths of the tree. -/
theorem perm_paths :
    tree.root.paths.Perm ((weights h).map fun p => (p, st.code p.1)) := by
  have hmap : tree.root.paths = tree.root.toTree.leaves.map fun p => (p, st.code p.1) := by
    rw [← HuffmanNode.map_fst_paths, List.map_map]
    refine (List.map_id _).symm.trans (List.map_congr_left fun e he => ?_)
    rw [Function.comp_apply, hc.code_path e he, id]
  rw [hmap]
  exact (perm_leaves hne hb).map _

/-- The total weighted length of the codewords, summed along the paths of the tree. -/
theorem sum_weights :
    ((weights h).map fun p => p.2 * (st.code p.1).length).sum =
      (tree.root.paths.map fun e => e.1.2 * e.2.length).sum := by
  rw [((hc.perm_paths hne hb).map _).sum_eq, List.map_map]
  rfl

/-- **The total weighted length is minimal** among all prefix-free codes. -/
theorem sum_weights_le {d : UInt8 → List Bool} (hd : IsPrefixFree d {s | h.frequency s ≠ 0})
    (hdne : ∀ s, h.frequency s ≠ 0 → d s ≠ []) :
    ((weights h).map fun p => p.2 * (st.code p.1).length).sum ≤
      ((weights h).map fun p => p.2 * (d p.1).length).sum := by
  have hset : {s | s ∈ (weights h).map Prod.fst} = {s | h.frequency s ≠ 0} :=
    Set.ext fun s => mem_map_fst_weights
  have hgreedy := greedyMerge_root hne hb
  have hperm := perm_leaves hne hb
  rw [hc.sum_weights hne hb]
  cases hroot : tree.root with
  | leaf s f =>
    -- The tree is a single leaf, and every codeword has at least the one bit of the table.
    rw [hroot] at hperm
    have hw : weights h = [(s, f)] := (List.singleton_perm.mp hperm).symm
    have hs : h.frequency s ≠ 0 :=
      mem_map_fst_weights.mp (by rw [hw]; exact List.mem_singleton_self s)
    have hlen := List.length_pos_iff.mpr (hdne s hs)
    rw [hw, HuffmanNode.paths]
    simp only [List.map_cons, List.map_nil, List.sum_cons, List.sum_nil, List.length_singleton]
    exact Nat.add_le_add_right (Nat.mul_le_mul_left f hlen) 0
  | subtree l r f =>
    rw [hroot] at hgreedy
    rw [HuffmanNode.paths, CodeTree.sum_codewords]
    refine hgreedy.cost_le_of_isPrefixFree ?_ (hset ▸ hd) ?_
    · rw [map_fst_weights]
      exact h.nodup_map_fst_entries
    · exact fun s hs => hdne s (mem_map_fst_weights.mp hs)

/-- **The codewords exhaust the Kraft inequality** when at least two symbols occur. -/
theorem kraft_eq_one (htwo : 2 ≤ (weights h).length) :
    ((weights h).map fun p => (1 / 2 : ℚ) ^ (st.code p.1).length).sum = 1 := by
  have hsum : ((weights h).map fun p => (1 / 2 : ℚ) ^ (st.code p.1).length).sum =
      (tree.root.paths.map fun e => (1 / 2 : ℚ) ^ e.2.length).sum := by
    rw [((hc.perm_paths hne hb).map _).sum_eq, List.map_map]
    rfl
  have hlen := (perm_leaves hne hb).length_eq
  rw [hsum]
  cases hroot : tree.root with
  | leaf s f =>
    rw [hroot] at hlen
    have : (HuffmanNode.leaf s f).toTree.leaves.length = 1 := rfl
    omega
  | subtree l r f => exact CodeTree.kraft_codewords _

end Codewords

/-- **Completeness.** The table of a histogram gives a nonempty codeword to the symbols that occur,
no codeword is a prefix of that of another symbol, and two or more codewords exhaust the Kraft
inequality. -/
theorem complete (hne : ∃ s, h.frequency s ≠ 0) (hb : build Q past h = .ok tree) :
    ∃ st, ofTree tree = .ok st ∧
      (∀ s, (st s).empty = false ↔ h.frequency s ≠ 0) ∧
      (∀ s t, s ≠ t → (st s).empty = false → ¬ st.code s <+: st.code t) ∧
      (2 ≤ (symbols.filter fun s => h.frequency s ≠ 0).length →
        ((symbols.filter fun s => (st s).empty = false).map fun s =>
          (1 / 2 : ℚ) ^ (st s).bitLength).sum = 1) := by
  have hne' := h.entries_ne_nil_iff.mpr hne
  obtain ⟨st, hst, hc⟩ := exists_codewords hne' hb
  have hempty (s : UInt8) : (st s).empty = false ↔ h.frequency s ≠ 0 := by
    rw [hc.clean.empty_eq, List.isEmpty_eq_false_iff, hc.code_ne_nil_iff hne' hb]
  refine ⟨st, hst, hempty, ?_, ?_⟩
  · intro s t hst hs hpre
    have hs' := (hempty s).mp hs
    have ht : h.frequency t ≠ 0 := by
      rw [← hc.code_ne_nil_iff hne' hb]
      rintro h0
      rw [h0, List.prefix_nil] at hpre
      exact (hc.code_ne_nil_iff hne' hb s).mpr hs' hpre
    exact hst (hc.isPrefixFree hne' hb s hs' t ht hpre)
  · intro htwo
    have hfilter : (symbols.filter fun s => (st s).empty = false) =
        symbols.filter fun s => h.frequency s ≠ 0 :=
      List.filter_congr fun s _ => decide_eq_decide.mpr (hempty s)
    have hkraft := hc.kraft_eq_one hne' hb (by rwa [weights_eq, List.length_map])
    rw [weights_eq, List.map_map] at hkraft
    rw [hfilter]
    refine (congrArg List.sum (List.map_congr_left fun s _ => ?_)).trans hkraft
    rw [Function.comp_apply, hc.clean.length_code]

theorem complete_aab :
    ∃ st, ofTree treeAab = .ok st ∧
      (∀ s, (st s).empty = false ↔ aab.frequency s ≠ 0) ∧
      (∀ s t, s ≠ t → (st s).empty = false → ¬ st.code s <+: st.code t) ∧
      (2 ≤ (symbols.filter fun s => aab.frequency s ≠ 0).length →
        ((symbols.filter fun s => (st s).empty = false).map fun s =>
          (1 / 2 : ℚ) ^ (st s).bitLength).sum = 1) :=
  complete ⟨97, by decide⟩ build_aab

/-- **Optimality.** The codewords of the table of a histogram are of minimal total weighted length
among all prefix-free assignments of nonempty codewords to the symbols that occur. -/
theorem optimal (hne : ∃ s, h.frequency s ≠ 0) (hb : build Q past h = .ok tree) :
    ∃ st, ofTree tree = .ok st ∧
      ∀ d : UInt8 → List Bool, IsPrefixFree d {s | h.frequency s ≠ 0} →
        (∀ s, h.frequency s ≠ 0 → d s ≠ []) →
        (symbols.map fun s => (h.frequency s).toNat * (st s).bitLength).sum ≤
          (symbols.map fun s => (h.frequency s).toNat * (d s).length).sum := by
  have hne' := h.entries_ne_nil_iff.mpr hne
  obtain ⟨st, hst, hc⟩ := exists_codewords hne' hb
  refine ⟨st, hst, fun d hd hdne => ?_⟩
  have hle := hc.sum_weights_le hne' hb hd hdne
  simp only [← hc.clean.length_code]
  rwa [sum_symbols h fun s => (st.code s).length, sum_symbols h fun s => (d s).length]

theorem optimal_aab :
    ∃ st, ofTree treeAab = .ok st ∧
      (symbols.map fun s => (aab.frequency s).toNat * (st s).bitLength).sum ≤
        (symbols.map fun s => (aab.frequency s).toNat * (byteBits s).length).sum := by
  obtain ⟨st, hst, hle⟩ := optimal ⟨97, by decide⟩ build_aab
  exact ⟨st, hst, hle byteBits (isPrefixFree_byteBits _) fun s _ => byteBits_ne_nil s⟩

end SymbolTable

end HafeCodec
