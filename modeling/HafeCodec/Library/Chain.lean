import HafeCodec.Library.GreedyMerge

/-!
# Degenerate code trees

When two trees of a forest are lighter than all others, greedy merging has no choice but to join
them (`GreedyMerge.of_lightest`). If this is so at every merge, with the tree that has grown so far
as one of the two, the tree degenerates to a list: every merge adds one leaf below the root. Among
the weights that force this shape are the Fibonacci numbers (`dominated_fib`), which make the least
codes of the greatest length.

## Main definitions

* `CodeTree.Chain t L u`: the tree `u` is made of `t` and the leaves `L`, added one after the other.
* `Dominated w l`: a tree of weight `w` and leaves of the weights `l` force this shape.

## Main results

* `CodeTree.Chain.height_eq`, `CodeTree.Chain.exists_codeword`.
* `GreedyMerge.of_lightest`, `GreedyMerge.chain`.
* `dominated_fib`.
-/

variable {α : Type*}

namespace CodeTree

/-- The leaves of the list are added to a tree one after the other, each below a new root. -/
inductive Chain : CodeTree α → List (α × ℕ) → CodeTree α → Prop
  | nil (t : CodeTree α) : Chain t [] t
  | left {t u : CodeTree α} {p : α × ℕ} {L : List (α × ℕ)} (h : Chain (node (leaf p.1 p.2) t) L u) :
      Chain t (p :: L) u
  | right {t u : CodeTree α} {p : α × ℕ} {L : List (α × ℕ)}
      (h : Chain (node t (leaf p.1 p.2)) L u) : Chain t (p :: L) u

namespace Chain

variable {t u : CodeTree α} {L : List (α × ℕ)}

/-- Every leaf makes the tree higher by one. -/
theorem height_eq (h : Chain t L u) : u.height = t.height + L.length := by
  induction h with
  | nil t => rfl
  | left _ ih =>
    rw [ih, height, height, Nat.zero_max, List.length_cons]
    ring
  | right _ ih =>
    rw [ih, height, height, Nat.max_zero, List.length_cons]
    ring

/-- Every leaf makes the codewords of the tree longer by one. -/
theorem exists_codeword (h : Chain t L u) {e : (α × ℕ) × List Bool} (he : e ∈ t.codewords) :
    ∃ c, (e.1, c) ∈ u.codewords ∧ c.length = e.2.length + L.length := by
  induction h generalizing e with
  | nil t => exact ⟨e.2, he, rfl⟩
  | left _ ih =>
    obtain ⟨c, hc, hlen⟩ := ih (List.mem_append_right _ (List.mem_map_of_mem he))
    refine ⟨c, hc, hlen.trans ?_⟩
    rw [extend, List.length_cons, List.length_cons]
    ring
  | right _ ih =>
    obtain ⟨c, hc, hlen⟩ := ih (List.mem_append_left _ (List.mem_map_of_mem he))
    refine ⟨c, hc, hlen.trans ?_⟩
    rw [extend, List.length_cons, List.length_cons]
    ring

/-- A leaf of the list has a codeword as long as the rest of the list that begins with it. -/
theorem exists_codeword_getElem (h : Chain t L u) {i : ℕ} (hi : i < L.length) :
    ∃ c, (L[i], c) ∈ u.codewords ∧ c.length = L.length - i := by
  induction h generalizing i with
  | nil t => exact absurd hi (Nat.not_lt_zero i)
  | left h ih =>
    cases i with
    | zero =>
      obtain ⟨c, hc, hlen⟩ := h.exists_codeword
        (List.mem_append_left _ (List.mem_map_of_mem (List.mem_singleton_self _)))
      exact ⟨c, hc, hlen.trans (Nat.add_comm 1 _)⟩
    | succ i =>
      rw [List.length_cons, Nat.add_sub_add_right]
      exact ih (Nat.lt_of_succ_lt_succ hi)
  | right h ih =>
    cases i with
    | zero =>
      obtain ⟨c, hc, hlen⟩ := h.exists_codeword
        (List.mem_append_right _ (List.mem_map_of_mem (List.mem_singleton_self _)))
      exact ⟨c, hc, hlen.trans (Nat.add_comm 1 _)⟩
    | succ i =>
      rw [List.length_cons, Nat.add_sub_add_right]
      exact ih (Nat.lt_of_succ_lt_succ hi)

end Chain

end CodeTree

/-! ### Weights that leave no choice -/

/-- The tree of weight `w` and the first leaf are lighter than all other leaves, and so are the tree
made of them and the next leaf, and so on. -/
def Dominated : ℕ → List ℕ → Prop
  | _, [] => True
  | _, [_] => True
  | w, a :: b :: l => w < b ∧ a < b ∧ Dominated (w + a) (b :: l)

namespace Dominated

variable {w a : ℕ} {l : List ℕ}

theorem tail (h : Dominated w (a :: l)) : Dominated (w + a) l := by
  cases l with
  | nil => trivial
  | cons b l => exact h.2.2

/-- The tree and the first leaf are lighter than every other leaf. -/
theorem lt (h : Dominated w (a :: l)) {b : ℕ} (hb : b ∈ l) : w < b ∧ a < b := by
  induction l generalizing w a with
  | nil => exact absurd hb List.not_mem_nil
  | cons c l ih =>
    obtain ⟨hw, ha, htail⟩ := h
    rcases List.mem_cons.mp hb with rfl | hb
    · exact ⟨hw, ha⟩
    · obtain ⟨hsum, hc⟩ := ih htail hb
      exact ⟨hw.trans hc, ha.trans hc⟩

end Dominated

namespace GreedyMerge

open CodeTree

variable {t u : CodeTree α} {s : Multiset (CodeTree α)}

theorem eq_of_singleton (h : GreedyMerge {t} u) : u = t := by
  generalize hs : ({t} : Multiset (CodeTree α)) = s at h
  cases h with
  | done => exact (Multiset.singleton_inj.mp hs).symm
  | merge _ _ _ =>
    have hcard := congrArg Multiset.card hs
    rw [Multiset.card_singleton, Multiset.card_cons, Multiset.card_cons] at hcard
    omega

/-- **The two lightest trees are merged**, in one order or in the other. -/
theorem of_lightest {a b : CodeTree α} (h : GreedyMerge (a ::ₘ b ::ₘ s) u)
    (ha : ∀ z ∈ s, a.weight < z.weight) (hb : ∀ z ∈ s, b.weight < z.weight) :
    GreedyMerge (node a b ::ₘ s) u ∨ GreedyMerge (node b a ::ₘ s) u := by
  generalize hs : a ::ₘ b ::ₘ s = s' at h
  cases h with
  | done =>
    have hcard := congrArg Multiset.card hs
    rw [Multiset.card_singleton, Multiset.card_cons, Multiset.card_cons] at hcard
    omega
  | @merge x y _ s' hx hy h =>
    rcases Multiset.cons_eq_cons.mp hs with ⟨rfl, hrest⟩ | ⟨-, v, hrest, hs'⟩
    · rcases Multiset.cons_eq_cons.mp hrest with ⟨rfl, rfl⟩ | ⟨-, v, rfl, rfl⟩
      · exact Or.inl h
      · exact absurd (hy b (Multiset.mem_cons_self b v))
          (Nat.not_le.mpr (hb y (Multiset.mem_cons_self y v)))
    · have hxa : x.weight ≤ a.weight := hx a (hs' ▸ Multiset.mem_cons_self a v)
      rcases Multiset.cons_eq_cons.mp hrest with ⟨rfl, rfl⟩ | ⟨-, v', rfl, -⟩
      · rcases Multiset.cons_eq_cons.mp hs' with ⟨rfl, rfl⟩ | ⟨-, v', rfl, rfl⟩
        · exact Or.inr h
        · exact absurd (hy a (Multiset.mem_cons_self a v'))
            (Nat.not_le.mpr (ha y (Multiset.mem_cons_self y v')))
      · exact absurd hxa (Nat.not_le.mpr (ha x (Multiset.mem_cons_self x v')))

/-- **Dominated weights make a chain**, whatever merges are chosen. -/
theorem chain {L : List (α × ℕ)}
    (h : GreedyMerge (t ::ₘ (L : Multiset (α × ℕ)).map fun p => leaf p.1 p.2) u)
    (hd : Dominated t.weight (L.map Prod.snd)) : Chain t L u := by
  induction L generalizing t with
  | nil => exact h.eq_of_singleton ▸ Chain.nil t
  | cons p L ih =>
    rw [← Multiset.cons_coe, Multiset.map_cons] at h
    rw [List.map_cons] at hd
    have hlt : ∀ z ∈ (L : Multiset (α × ℕ)).map fun p => leaf p.1 p.2,
        t.weight < z.weight ∧ p.2 < z.weight := by
      intro z hz
      obtain ⟨q, hq, rfl⟩ := Multiset.mem_map.mp hz
      exact hd.lt (List.mem_map_of_mem (Multiset.mem_coe.mp hq))
    rcases h.of_lightest (fun z hz => (hlt z hz).1) (fun z hz => (hlt z hz).2) with h | h
    · exact Chain.right (ih h hd.tail)
    · refine Chain.left (ih h ?_)
      rw [weight, Nat.add_comm]
      exact hd.tail

end GreedyMerge

/-! ### Fibonacci weights -/

/-- **The Fibonacci numbers leave no choice.** -/
theorem dominated_fib {k : ℕ} (hk : 0 < k) (n : ℕ) :
    Dominated (Nat.fib (k + 2) - 1) ((List.range' (k + 1) n).map Nat.fib) := by
  have hpos : 0 < Nat.fib (k + 2) := Nat.fib_pos.mpr (Nat.succ_pos _)
  induction n generalizing k with
  | zero => trivial
  | succ n ih =>
    cases n with
    | zero => trivial
    | succ n =>
      refine ⟨Nat.sub_lt hpos Nat.one_pos, Nat.fib_lt_fib_succ (Nat.succ_le_succ hk), ?_⟩
      have hfib : Nat.fib (k + 1 + 2) = Nat.fib (k + 1) + Nat.fib (k + 2) := Nat.fib_add_two
      have hsum : Nat.fib (k + 2) - 1 + Nat.fib (k + 1) = Nat.fib (k + 1 + 2) - 1 := by omega
      rw [hsum]
      exact ih k.succ_pos (Nat.fib_pos.mpr (Nat.succ_pos _))

/-- The sum of the first Fibonacci numbers. -/
theorem sum_fib (n : ℕ) :
    ((List.range' 1 n).map Nat.fib).sum + 1 = Nat.fib (n + 2) := by
  induction n with
  | zero => rfl
  | succ n ih =>
    have hfib : Nat.fib (n + 1 + 2) = Nat.fib (n + 1) + Nat.fib (n + 2) := Nat.fib_add_two
    rw [List.range'_1_concat, List.map_append, List.sum_append, List.map_singleton,
      List.sum_singleton, Nat.add_right_comm, ih, Nat.add_comm 1 n, hfib, Nat.add_comm]
