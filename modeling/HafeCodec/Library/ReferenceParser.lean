import HafeCodec.Library.ShortestMatch
import Mathlib.Data.List.Find
import Mathlib.Order.WellFounded

/-!
# The reference parser of a code

A list is parsed against the codewords of the symbols `symbols` without a token: the symbol with the
shortest nonempty codeword in front of the list is emitted and the codeword removed, as long as
there is one; the first symbol counts where several have this codeword. The shortest-match parse
with a lookup of the first symbol that has a codeword (`ReferenceParser.firstWith`) emits the same
symbols (`ReferenceParser.exists_parse_reference`).

## Main definitions

* `ReferenceParser.IsShortest`, `ReferenceParser.next`, `ReferenceParser.reference`.
* `ReferenceParser.firstWith`: the first symbol that has a codeword.

## Main results

* `ReferenceParser.next_eq_none_iff`, `ReferenceParser.firstWith_of_next`.
* `ReferenceParser.exists_parse_reference`.
-/

open ShortestMatch

namespace ReferenceParser

variable {α β : Type*} [DecidableEq β] (code : α → List β) (symbols : List α)

/-- The codeword of `a` is not empty and a prefix of `l`, and none of these is shorter. -/
def IsShortest (l : List β) (a : α) : Prop :=
  (code a ≠ [] ∧ code a <+: l) ∧
    ∀ b ∈ symbols, code b ≠ [] → code b <+: l → (code a).length ≤ (code b).length

instance (l : List β) (a : α) : Decidable (IsShortest code symbols l a) :=
  inferInstanceAs (Decidable (_ ∧ _))

/-- The first symbol with the shortest nonempty codeword that is a prefix of `l`. -/
def next (l : List β) : Option α :=
  symbols.find? fun a => IsShortest code symbols l a

/-- The first symbol with the codeword `c`. -/
def firstWith (c : List β) : Option α :=
  symbols.find? fun a => code a = c

variable {code symbols} {l : List β} {a : α}

theorem isShortest_of_next (h : next code symbols l = some a) : IsShortest code symbols l a := by
  rw [next] at h
  have hs := List.find?_some h
  exact of_decide_eq_true hs

/-- Removing the codeword found makes the list shorter. -/
theorem length_drop_lt_of_next (h : next code symbols l = some a) :
    (l.drop (code a).length).length < l.length := by
  obtain ⟨⟨hne, hpre⟩, -⟩ := isShortest_of_next h
  have hpos := List.length_pos_iff.mpr hne
  have hle := hpre.length_le
  rw [List.length_drop]
  omega

variable (code symbols) in
/-- The symbols emitted by the reference parser. -/
def reference (l : List β) : List α :=
  match _ : next code symbols l with
  | some a => a :: reference (l.drop (code a).length)
  | none => []
termination_by l.length
decreasing_by exact length_drop_lt_of_next ‹_›

theorem reference_of_next (h : next code symbols l = some a) :
    reference code symbols l = a :: reference code symbols (l.drop (code a).length) := by
  rw [reference]
  split
  · next b hb =>
    obtain rfl : b = a := Option.some.inj (hb.symm.trans h)
    rfl
  · next hnone => rw [hnone] at h; cases h

theorem reference_of_next_eq_none (h : next code symbols l = none) :
    reference code symbols l = [] := by
  rw [reference]
  split
  · next b hb => rw [hb] at h; cases h
  · rfl

/-! ### One symbol -/

/-- There is a shortest codeword in front of the list as soon as there is one. -/
theorem next_eq_none_iff :
    next code symbols l = none ↔ ∀ b ∈ symbols, code b ≠ [] → ¬ code b <+: l := by
  rw [next, List.find?_eq_none]
  constructor
  · intro h b hb hne hpre
    obtain ⟨a, ⟨ha, hane, hapre⟩, hmin⟩ := (measure fun a => (code a).length).wf.has_min
      {b | b ∈ symbols ∧ code b ≠ [] ∧ code b <+: l} ⟨b, hb, hne, hpre⟩
    refine h a ha (decide_eq_true ⟨⟨hane, hapre⟩, fun c hc hcne hcpre => ?_⟩)
    exact Nat.le_of_not_lt (hmin c ⟨hc, hcne, hcpre⟩)
  · exact fun h a ha hs => h a ha (of_decide_eq_true hs).1.1 (of_decide_eq_true hs).1.2

omit [DecidableEq β] in
/-- The symbols with a shortest codeword share it. -/
theorem IsShortest.iff_code_eq (h : IsShortest code symbols l a) (ha : a ∈ symbols) {b : α}
    (hb : b ∈ symbols) : IsShortest code symbols l b ↔ code b = code a := by
  constructor
  · intro h'
    have hlen : (code b).length = (code a).length :=
      le_antisymm (h'.2 a ha h.1.1 h.1.2) (h.2 b hb h'.1.1 h'.1.2)
    exact (List.prefix_of_prefix_length_le h'.1.2 h.1.2 hlen.le).eq_of_length hlen
  · intro heq
    rw [IsShortest, heq]
    exact h

/-- The symbol emitted is the first one with its codeword. -/
theorem firstWith_of_next (h : next code symbols l = some a) :
    firstWith code symbols (code a) = some a := by
  have hs := isShortest_of_next h
  rw [next] at h
  have ha := List.mem_of_find?_eq_some h
  rw [← h]
  exact List.find?_congr fun b hb => decide_eq_decide.mpr (hs.iff_code_eq ha hb).symm

/-- The codeword of the symbol emitted is minimal. -/
theorem minimal_of_next (h : next code symbols l = some a) :
    Minimal (firstWith code symbols) (code a) a where
  ne_nil := (isShortest_of_next h).1.1
  find_eq := firstWith_of_next h
  find_prefix p hp hpre hne := by
    obtain ⟨⟨-, hal⟩, hmin⟩ := isShortest_of_next h
    refine List.find?_eq_none.mpr fun b hb hbp => ?_
    obtain rfl : code b = p := of_decide_eq_true hbp
    have hle := hmin b hb hp (hpre.trans hal)
    exact hne (hpre.eq_of_length (le_antisymm hpre.length_le hle))

theorem unmatched_of_next_eq_none (h : next code symbols l = none) :
    Unmatched (firstWith code symbols) l := by
  intro p hp hpre
  refine List.find?_eq_none.mpr fun b hb hbp => ?_
  obtain rfl : code b = p := of_decide_eq_true hbp
  exact next_eq_none_iff.mp h b hb hp hpre

/-! ### The parse -/

variable (code symbols) in
/-- **The reference parser finds the shortest-match parse.** -/
theorem exists_parse_reference (l : List β) :
    ∃ r, Parse (firstWith code symbols) l (reference code symbols l) r := by
  induction hn : l.length using Nat.strong_induction_on generalizing l with
  | h n ih =>
    cases hnext : next code symbols l with
    | none =>
      rw [reference_of_next_eq_none hnext]
      exact ⟨l, Parse.stop (unmatched_of_next_eq_none hnext)⟩
    | some a =>
      obtain ⟨r, hr⟩ := ih _ (hn ▸ length_drop_lt_of_next hnext) _ rfl
      have hp := Parse.emit (minimal_of_next hnext) hr
      rw [List.prefix_iff_eq_append.mp (isShortest_of_next hnext).1.2] at hp
      rw [reference_of_next hnext]
      exact ⟨r, hp⟩

end ReferenceParser
