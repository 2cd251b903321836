import Mathlib.InformationTheory.Coding.KraftMcMillan
import Mathlib.Logic.Equiv.Basic
import HafeCodec.Library.LengthAssignment

/-!
# Prefix-free assignments of codewords

An assignment `d` of codewords to symbols is prefix-free on a set of symbols when no codeword is
a prefix of the codeword of a different symbol of the set. Concatenations of its codewords
determine the codewords (`PrefixCode.uniquelyDecodable_image`), so that the lengths satisfy the
Kraft inequality (`PrefixCode.kraft_le_one`). Exchanging the codewords of two symbols keeps an
assignment prefix-free; hence an assignment of minimal total weighted length gives no heavier symbol
a longer codeword (`PrefixCode.IsPrefixFree.length_le_of_minimal`).

## Main definitions

* `PrefixCode.IsPrefixFree`.

## Main results

* `PrefixCode.uniquelyDecodable_image`.
* `PrefixCode.kraft_le_one`.
* `PrefixCode.IsPrefixFree.length_le_of_minimal`.
-/

open InformationTheory

namespace PrefixCode

variable {α β : Type*}

/-- No codeword of a symbol of `S` is a prefix of the codeword of another symbol of `S`. -/
def IsPrefixFree (d : α → List β) (S : Set α) : Prop :=
  ∀ a ∈ S, ∀ b ∈ S, d a <+: d b → a = b

variable {d : α → List β} {S : Set α}

theorem IsPrefixFree.injOn (h : IsPrefixFree d S) : Set.InjOn d S :=
  fun a ha b hb hab => h a ha b hb (hab ▸ List.prefix_refl _)

/-- Two codewords in front of one list are equal. -/
theorem IsPrefixFree.eq_of_append_eq (h : IsPrefixFree d S) {a b : α} (ha : a ∈ S) (hb : b ∈ S)
    {l l' : List β} (hl : d a ++ l = d b ++ l') : a = b := by
  have hpa : d a <+: d b ++ l' := hl ▸ List.prefix_append _ _
  rcases List.prefix_or_prefix_of_prefix hpa (List.prefix_append (d b) l') with hab | hba
  · exact h a ha b hb hab
  · exact (h b hb a ha hba).symm

/-- **Nonempty prefix-free codewords are uniquely decodable.** -/
theorem uniquelyDecodable_image (h : IsPrefixFree d S) (hne : ∀ a ∈ S, d a ≠ []) :
    UniquelyDecodable (d '' S) := by
  intro L
  induction L with
  | nil =>
    rintro L' - hL' hflat
    cases L' with
    | nil => rfl
    | cons v L' =>
      obtain ⟨b, hb, rfl⟩ := hL' v List.mem_cons_self
      exact absurd (List.append_eq_nil_iff.mp hflat.symm).1 (hne b hb)
  | cons w L ih =>
    intro L' hL hL' hflat
    obtain ⟨a, ha, rfl⟩ := hL w List.mem_cons_self
    cases L' with
    | nil => exact absurd (List.append_eq_nil_iff.mp hflat).1 (hne a ha)
    | cons v L' =>
      obtain ⟨b, hb, rfl⟩ := hL' v List.mem_cons_self
      rw [List.flatten_cons, List.flatten_cons] at hflat
      obtain rfl := h.eq_of_append_eq ha hb hflat
      rw [ih L' (fun u hu => hL u (List.mem_cons_of_mem _ hu))
        (fun u hu => hL' u (List.mem_cons_of_mem _ hu)) (List.append_cancel_left hflat)]

/-- **Kraft inequality.** The lengths of nonempty prefix-free codewords over bits satisfy the Kraft
inequality. -/
theorem kraft_le_one {d : α → List Bool} {l : List α} (hl : l.Nodup)
    (h : IsPrefixFree d {a | a ∈ l}) (hne : ∀ a ∈ l, d a ≠ []) :
    LengthAssignment.kraft (l.map fun a => (d a).length : List ℕ) ≤ 1 := by
  classical
  have hcoe : ((l.toFinset.image d : Finset (List Bool)) : Set (List Bool)) =
      d '' {a | a ∈ l} := by
    simp
  have hud : UniquelyDecodable ((l.toFinset.image d : Finset (List Bool)) : Set (List Bool)) := by
    rw [hcoe]
    exact uniquelyDecodable_image h hne
  have hkraft := kraft_mcmillan_inequality hud
  rw [Finset.sum_image (fun a ha b hb hab => h.injOn (by simpa using ha) (by simpa using hb) hab),
    List.sum_toFinset _ hl, Fintype.card_bool] at hkraft
  have hsum : ((LengthAssignment.kraft (l.map fun a => (d a).length : List ℕ) : ℚ) : ℝ) =
      (l.map fun a => (1 / (2 : ℕ) : ℝ) ^ (d a).length).sum := by
    rw [LengthAssignment.kraft, Multiset.map_coe, Multiset.sum_coe, List.map_map]
    clear hl h hne hcoe hud hkraft
    induction l with
    | nil => simp
    | cons a l ih =>
      rw [List.map_cons, List.sum_cons, Rat.cast_add, ih, List.map_cons, List.sum_cons]
      simp
  rw [← hsum] at hkraft
  exact_mod_cast hkraft

/-! ### Exchanging two codewords -/

section Exchange

variable [DecidableEq α] {a b : α}

/-- Exchanging the codewords of two symbols keeps an assignment prefix-free. -/
theorem IsPrefixFree.comp_swap (h : IsPrefixFree d S) (ha : a ∈ S) (hb : b ∈ S) :
    IsPrefixFree (d ∘ Equiv.swap a b) S := by
  have hmem (c : α) (hc : c ∈ S) : Equiv.swap a b c ∈ S := by
    rw [Equiv.swap_apply_def]
    split_ifs
    · exact hb
    · exact ha
    · exact hc
  intro c hc e he hpre
  exact (Equiv.swap a b).injective (h _ (hmem c hc) _ (hmem e he) hpre)

/-- Exchanging two values in a weighted sum. -/
theorem exists_sum_swap {l : List α} (hl : l.Nodup) (ha : a ∈ l) (hb : b ∈ l) (hab : a ≠ b)
    (f g : α → ℕ) :
    ∃ n, (l.map fun c => f c * g c).sum = f a * g a + (f b * g b + n) ∧
      (l.map fun c => f c * g (Equiv.swap a b c)).sum = f a * g b + (f b * g a + n) := by
  have hperm : l.Perm (a :: b :: (l.erase a).erase b) :=
    (List.perm_cons_erase ha).trans
      ((List.perm_cons_erase ((List.mem_erase_of_ne hab.symm).mpr hb)).cons a)
  have hnodup := hperm.nodup_iff.mp hl
  obtain ⟨ha', hb'⟩ := List.nodup_cons.mp hnodup
  have hrest : ∀ c ∈ (l.erase a).erase b, f c * g (Equiv.swap a b c) = f c * g c := by
    intro c hc
    rw [Equiv.swap_apply_of_ne_of_ne]
    · rintro rfl
      exact ha' (List.mem_cons_of_mem _ hc)
    · rintro rfl
      exact (List.nodup_cons.mp hb').1 hc
  refine ⟨(((l.erase a).erase b).map fun c => f c * g c).sum, ?_, ?_⟩
  · rw [(hperm.map _).sum_eq, List.map_cons, List.map_cons, List.sum_cons, List.sum_cons]
  · rw [(hperm.map _).sum_eq, List.map_cons, List.map_cons, List.sum_cons, List.sum_cons,
      Equiv.swap_apply_left, Equiv.swap_apply_right, List.map_congr_left hrest]

/-- **A heavier symbol gets no longer codeword** in an assignment of minimal total weighted
length. -/
theorem IsPrefixFree.length_le_of_minimal (hd : IsPrefixFree d S) (hne : ∀ c ∈ S, d c ≠ [])
    {l : List α} (hl : l.Nodup) (hS : ∀ c ∈ S, c ∈ l) {f : α → ℕ}
    (hmin : ∀ d' : α → List β, IsPrefixFree d' S → (∀ c ∈ S, d' c ≠ []) →
      (l.map fun c => f c * (d c).length).sum ≤ (l.map fun c => f c * (d' c).length).sum)
    (ha : a ∈ S) (hb : b ∈ S) (hlt : f b < f a) : (d a).length ≤ (d b).length := by
  have hab : a ≠ b := by
    rintro rfl
    exact lt_irrefl _ hlt
  have hle := hmin (d ∘ Equiv.swap a b) (hd.comp_swap ha hb) (by
    intro c hc
    rw [Function.comp_apply, Equiv.swap_apply_def]
    split_ifs
    · exact hne b hb
    · exact hne a ha
    · exact hne c hc)
  obtain ⟨n, hsum, hsum'⟩ := exists_sum_swap hl (hS a ha) (hS b hb) hab f fun c => (d c).length
  simp only [Function.comp_apply] at hle
  rw [hsum, hsum'] at hle
  by_contra! hlong
  -- The exchange would shorten the code of the heavier symbol more than it lengthens the other.
  have hstrict : f a * (d b).length + f b * (d a).length <
      f a * (d a).length + f b * (d b).length := by
    obtain ⟨k, hk⟩ := Nat.exists_eq_add_of_lt hlt
    obtain ⟨m, hm⟩ := Nat.exists_eq_add_of_lt hlong
    rw [hk, hm]
    nlinarith
  omega

end Exchange

end PrefixCode
