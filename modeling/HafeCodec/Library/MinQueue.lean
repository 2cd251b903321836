import Mathlib.Data.List.Sort
import Mathlib.Data.Multiset.AddSub

/-!
# Priority queues with arbitrary ties

A `MinQueue α key` is any implementation of a priority queue: a type of states with the operations
of a queue, a reading of every state as a multiset of elements, and the laws that the operations
obey on it. The law for the top says only that its key is minimal, so a theorem about an arbitrary
`MinQueue` holds however the implementation breaks ties, and whatever earlier operations a
decision depends on.

`MinQueue.sortedList` is one such implementation, a list kept in the order of the keys.

## Main definitions

* `MinQueue`.
* `MinQueue.ofList`: the elements of a list pushed one after the other.
* `MinQueue.sortedList`.
-/

/-- An implementation of a priority queue whose top has a minimal key. -/
structure MinQueue (α : Type*) (key : α → ℕ) where
  /-- The states of the queue. -/
  State : Type*
  /-- The elements held in a state. -/
  contents : State → Multiset α
  empty : State
  push : State → α → State
  size : State → ℕ
  top : State → Option α
  pop : State → State
  contents_empty : contents empty = 0
  contents_push (q : State) (a : α) : contents (push q a) = a ::ₘ contents q
  size_eq (q : State) : size q = (contents q).card
  contents_of_top_eq_none {q : State} : top q = none → contents q = 0
  cons_contents_pop {q : State} {a : α} : top q = some a → a ::ₘ contents (pop q) = contents q
  key_top_le {q : State} {a : α} : top q = some a → ∀ b ∈ contents q, key a ≤ key b

namespace MinQueue

variable {α : Type*} {key : α → ℕ} (Q : MinQueue α key)

attribute [simp] contents_empty contents_push size_eq

/-- The elements of a list pushed one after the other. -/
def ofList (l : List α) : Q.State :=
  l.foldl Q.push Q.empty

theorem contents_foldl_push (l : List α) (q : Q.State) :
    Q.contents (l.foldl Q.push q) = (l : Multiset α) + Q.contents q := by
  induction l generalizing q with
  | nil => simp
  | cons a l ih =>
    rw [List.foldl_cons, ih, contents_push, ← Multiset.cons_coe, Multiset.cons_add,
      Multiset.add_cons]

@[simp] theorem contents_ofList (l : List α) : Q.contents (Q.ofList l) = (l : Multiset α) := by
  rw [ofList, contents_foldl_push, contents_empty, Multiset.add_zero]

/-- A nonempty queue has a top. -/
theorem exists_top {q : Q.State} (h : Q.contents q ≠ 0) : ∃ a, Q.top q = some a := by
  cases ht : Q.top q with
  | none => exact absurd (Q.contents_of_top_eq_none ht) h
  | some a => exact ⟨a, rfl⟩

/-- The top does not outweigh any element left after it is popped. -/
theorem key_top_le_of_mem_pop {q : Q.State} {a b : α} (ht : Q.top q = some a)
    (hb : b ∈ Q.contents (Q.pop q)) : key a ≤ key b :=
  Q.key_top_le ht b (Q.cons_contents_pop ht ▸ Multiset.mem_cons_of_mem hb)

/-- **Two elements taken off a queue.** A queue of at least two elements gives up two of least
keys, one after the other. -/
theorem exists_top_pop_top {q : Q.State} (h : 1 < (Q.contents q).card) :
    ∃ x y, Q.top q = some x ∧ Q.contents (Q.pop q) ≠ 0 ∧ Q.top (Q.pop q) = some y ∧
      Q.contents q = x ::ₘ y ::ₘ Q.contents (Q.pop (Q.pop q)) ∧
      (∀ z ∈ y ::ₘ Q.contents (Q.pop (Q.pop q)), key x ≤ key z) ∧
      ∀ z ∈ Q.contents (Q.pop (Q.pop q)), key y ≤ key z := by
  obtain ⟨x, hx⟩ := Q.exists_top (q := q) (by
    intro h0
    rw [h0, Multiset.card_zero] at h
    omega)
  have hcons := Q.cons_contents_pop hx
  have hne : Q.contents (Q.pop q) ≠ 0 := by
    intro h0
    rw [← hcons, h0, Multiset.card_cons, Multiset.card_zero] at h
    omega
  obtain ⟨y, hy⟩ := Q.exists_top hne
  have hcons' := Q.cons_contents_pop hy
  refine ⟨x, y, hx, hne, hy, ?_, ?_, ?_⟩
  · rw [hcons', hcons]
  · rw [hcons']
    exact fun z hz => Q.key_top_le_of_mem_pop hx hz
  · exact fun z hz => Q.key_top_le_of_mem_pop hy hz

/-! ### Sorted lists -/

/-- The order of the keys. -/
def KeyLE (key : α → ℕ) (a b : α) : Prop :=
  key a ≤ key b

instance (key : α → ℕ) : DecidableRel (KeyLE key) :=
  fun a b => inferInstanceAs (Decidable (key a ≤ key b))

instance (key : α → ℕ) : Std.Total (KeyLE key) :=
  ⟨fun a b => le_total (key a) (key b)⟩

instance (key : α → ℕ) : IsTrans α (KeyLE key) :=
  ⟨fun _ _ _ => le_trans⟩

/-- The priority queue that keeps its elements in a list in the order of their keys. -/
def sortedList {α : Type} (key : α → ℕ) : MinQueue α key where
  State := {l : List α // l.Pairwise (KeyLE key)}
  contents q := (q.1 : Multiset α)
  empty := ⟨[], List.Pairwise.nil⟩
  push q a := ⟨q.1.orderedInsert (KeyLE key) a, q.2.orderedInsert a q.1⟩
  size q := q.1.length
  top q := q.1.head?
  pop q := ⟨q.1.tail, q.2.tail⟩
  contents_empty := rfl
  contents_push q a := Multiset.coe_eq_coe.mpr (List.perm_orderedInsert _ a q.1)
  size_eq _ := rfl
  contents_of_top_eq_none {q} h := by rw [List.head?_eq_none_iff.mp h, Multiset.coe_nil]
  cons_contents_pop {q a} h := by
    rw [Multiset.cons_coe, List.cons_head?_tail (Option.mem_def.mpr h)]
  key_top_le {q a} h b hb := by
    obtain ⟨l, hl⟩ := List.head?_eq_some_iff.mp h
    have hs := q.2
    rw [hl] at hs
    rw [hl, Multiset.mem_coe, List.mem_cons] at hb
    rcases hb with rfl | hb
    · exact le_rfl
    · exact (List.pairwise_cons.mp hs).1 b hb

end MinQueue
