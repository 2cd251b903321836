import HafeCodec.Library.CodeTree
import HafeCodec.Library.PrefixCode

/-!
# Greedy merging of code trees

Starting from a forest, two trees of least weight are merged into one until one tree is left.
`GreedyMerge s t` says that some such sequence of merges leads from the forest `s` to the tree
`t`; ties are broken arbitrarily, so the relation is not a function.

Every result on the tree is an induction on the merges. The symbols and the total weight are
kept; the cost is at most that of every assignment of lengths that satisfies the Kraft inequality
(`GreedyMerge.cost_le`), hence of every prefix-free assignment of codewords
(`GreedyMerge.cost_le_of_isPrefixFree`); and the tree is balanced, since whatever is left in the
forest weighs at least as much as the two trees just merged (`GreedyMerge.balanced`).

## Main definitions

* `GreedyMerge`: the merges.
* `GreedyMerge.Settled`: the invariant of the forest behind balance.

## Main results

* `GreedyMerge.leaves_eq`.
* `GreedyMerge.cost_le`, `GreedyMerge.cost_le_of_isPrefixFree`.
* `GreedyMerge.balanced`.
-/

open LengthAssignment PrefixCode

/-- Merging two trees of least weight, again and again, leads from a forest to a tree. -/
inductive GreedyMerge {α : Type*} : Multiset (CodeTree α) → CodeTree α → Prop
  | done (t : CodeTree α) : GreedyMerge {t} t
  | merge {x y t : CodeTree α} {s : Multiset (CodeTree α)}
      (hx : ∀ z ∈ y ::ₘ s, x.weight ≤ z.weight) (hy : ∀ z ∈ s, y.weight ≤ z.weight)
      (h : GreedyMerge (CodeTree.node x y ::ₘ s) t) : GreedyMerge (x ::ₘ y ::ₘ s) t

namespace GreedyMerge

variable {α : Type*} {s : Multiset (CodeTree α)} {t : CodeTree α}

/-- The leaves are kept. -/
theorem leaves_eq (h : GreedyMerge s t) :
    (t.leaves : Multiset (α × ℕ)) = (s.map fun u => (u.leaves : Multiset (α × ℕ))).sum := by
  induction h with
  | done t => simp
  | merge _ _ _ ih =>
    rw [ih]
    simp only [Multiset.map_cons, Multiset.sum_cons, CodeTree.leaves_node, ← Multiset.coe_add,
      add_assoc]

/-- The leaves of a forest of single leaves. -/
theorem leaves_eq_of_leaf {L : Multiset (α × ℕ)}
    (h : GreedyMerge (L.map fun p => CodeTree.leaf p.1 p.2) t) :
    (t.leaves : Multiset (α × ℕ)) = L := by
  rw [h.leaves_eq, Multiset.map_map]
  exact Multiset.sum_map_singleton L

/-- **The greedy cost is minimal among lengths satisfying the Kraft inequality.** -/
theorem cost_le (h : GreedyMerge s t) {P : Multiset (ℕ × ℕ)}
    (hP : P.map Prod.fst = s.map CodeTree.weight) (hk : kraft (P.map Prod.snd) ≤ 1) :
    t.cost ≤ (s.map CodeTree.cost).sum + total P := by
  induction h generalizing P with
  | done t => simp
  | @merge x y t s hx hy _ ih =>
    simp only [Multiset.map_cons] at hP
    have hx' : ∀ w ∈ y.weight ::ₘ s.map CodeTree.weight, x.weight ≤ w := by
      rw [← Multiset.map_cons CodeTree.weight y s]
      intro w hw
      obtain ⟨z, hz, rfl⟩ := Multiset.mem_map.mp hw
      exact hx z hz
    have hy' : ∀ w ∈ s.map CodeTree.weight, y.weight ≤ w := by
      intro w hw
      obtain ⟨z, hz, rfl⟩ := Multiset.mem_map.mp hw
      exact hy z hz
    obtain ⟨m, R, hR, hkR, htot⟩ := exists_siblings hP hx' hy' hk
    -- The two siblings become one symbol of the merged weight, one level further up.
    have hstep := ih (P := (x.weight + y.weight, m) ::ₘ R)
      (by simp only [Multiset.map_cons, hR, CodeTree.weight])
      (by rwa [Multiset.map_cons, ← kraft_siblings])
    simp only [Multiset.map_cons, Multiset.sum_cons, total_cons, CodeTree.cost] at hstep htot ⊢
    have hm : (x.weight + y.weight) * m + (x.weight + y.weight) =
        x.weight * (m + 1) + y.weight * (m + 1) := by ring
    omega

/-- **The greedy cost is minimal among prefix-free codes.** -/
theorem cost_le_of_isPrefixFree {L : List (α × ℕ)} (hL : (L.map Prod.fst).Nodup)
    (h : GreedyMerge ((L : Multiset (α × ℕ)).map fun p => CodeTree.leaf p.1 p.2) t)
    {d : α → List Bool} (hd : IsPrefixFree d {a | a ∈ L.map Prod.fst})
    (hne : ∀ a ∈ L.map Prod.fst, d a ≠ []) :
    t.cost ≤ (L.map fun p => p.2 * (d p.1).length).sum := by
  have hk := kraft_le_one hL hd hne
  have hcost := h.cost_le (P := (L : Multiset (α × ℕ)).map fun p => (p.2, (d p.1).length))
    (by simp only [Multiset.map_map]; rfl)
    (by
      rw [List.map_map] at hk
      simp only [Multiset.map_map]
      exact hk)
  have hzero : (((L : Multiset (α × ℕ)).map fun p => CodeTree.leaf p.1 p.2).map
      CodeTree.cost).sum = 0 := by
    simp [Function.comp_def, CodeTree.cost]
  rw [hzero, zero_add, total, Multiset.map_map] at hcost
  exact hcost

/-! ### Balance -/

/-- Every tree of the forest is balanced, and none of its children outweighs another tree of the
forest. -/
def Settled (s : Multiset (CodeTree α)) : Prop :=
  ∀ a s', s = a ::ₘ s' → a.Balanced ∧ ∀ b ∈ s', a.ChildrenLe b.weight

theorem settled_leaf {L : Multiset (α × ℕ)} (hL : ∀ p ∈ L, 0 < p.2) :
    Settled (L.map fun p => CodeTree.leaf p.1 p.2) := by
  intro a s' hs
  have ha : a ∈ L.map fun p => CodeTree.leaf p.1 p.2 := hs ▸ Multiset.mem_cons_self a s'
  obtain ⟨p, hp, rfl⟩ := Multiset.mem_map.mp ha
  exact ⟨hL p hp, fun _ _ => trivial⟩

/-- Merging two trees of least weight keeps the invariant. -/
theorem Settled.merge {x y : CodeTree α} (h : Settled (x ::ₘ y ::ₘ s))
    (hx : ∀ z ∈ y ::ₘ s, x.weight ≤ z.weight) (hy : ∀ z ∈ s, y.weight ≤ z.weight) :
    Settled (CodeTree.node x y ::ₘ s) := by
  obtain ⟨hxb, hxc⟩ := h x (y ::ₘ s) rfl
  obtain ⟨hyb, hyc⟩ := h y (x ::ₘ s) (Multiset.cons_swap x y s)
  intro a s' hs
  rcases Multiset.cons_eq_cons.mp hs with ⟨rfl, rfl⟩ | ⟨-, u, rfl, rfl⟩
  · refine ⟨⟨hxb, hyb, hxc y (Multiset.mem_cons_self y s), hyc x (Multiset.mem_cons_self x s)⟩, ?_⟩
    intro b hb
    exact ⟨hx b (Multiset.mem_cons_of_mem hb), hy b hb⟩
  · -- A tree left in the forest keeps its old neighbours and gains the merged tree.
    obtain ⟨hab, hac⟩ := h a (x ::ₘ y ::ₘ u) (by
      rw [Multiset.cons_swap y, Multiset.cons_swap x])
    refine ⟨hab, fun b hb => ?_⟩
    rcases Multiset.mem_cons.mp hb with rfl | hb
    · exact (hac x (Multiset.mem_cons_self _ _)).mono (Nat.le_add_right _ _)
    · exact hac b (Multiset.mem_cons_of_mem (Multiset.mem_cons_of_mem hb))

/-- **Greedy merging of a settled forest gives a balanced tree.** -/
theorem balanced (h : GreedyMerge s t) (hs : Settled s) : t.Balanced := by
  induction h with
  | done t => exact (hs t 0 rfl).1
  | merge hx hy _ ih => exact ih (hs.merge hx hy)

end GreedyMerge
