import Mathlib.Data.List.Basic
import Mathlib.Order.MinMax

/-!
# Actions on a buffered sink of bounded room

What a program emits is put into a buffer and leaves it, at times that the program does not see, for
a sink that takes a limited number of elements. The elements that the sink has no room for are lost;
the program is told of it at once, by an error, or not at all. `Emits k P m E l Q` is the
specification of an action: started in a state with `P`, the action `m` puts the list `l` into the
buffer and ends in a state with `Q`, or it fails with an error of `E` after a part of `l`. Which of
the two happens depends on the room only through a number: the action fails exactly when the room is
smaller than this number.

The rules follow the composition of actions. An action that fails has lost an element, so that the
sink holds the first elements of all that was to be emitted, as many as there was room for
(`Emission.take_handed_of_error`).

## Main definitions

* `Sink`, `Sink.put`.
* `Emission`, `Emits`.

## Main results

* `Emits.nil`, `Emits.seq`, `Emits.mono`, `Emits.forM`: the rules.
* `Emission.take_handed_of_error`.
-/

/-- How an environment gives the sink its room, and how a state keeps what has left the buffer and
what is still in it. -/
structure Sink (ρ σ β : Type*) where
  /-- The environment in which the sink takes the given number of elements. -/
  env : ℕ → ρ
  /-- The elements that have left the buffer, those that were lost included. -/
  handed : σ → List β
  /-- The elements in the buffer. -/
  pending : σ → List β
  /-- The program is told of every loss. -/
  reports : Prop

variable {ρ ε σ : Type} {α β : Type*}

/-- All elements that were put into the buffer. -/
def Sink.put (k : Sink ρ σ β) (s : σ) : List β :=
  k.handed s ++ k.pending s

/-- The run of the action `m` from the state `s`, which emits the list `l`: it ends in the state `t`
unless the sink has room for less than `n` elements. -/
structure Emission (k : Sink ρ σ β) (m : ReaderT ρ (EStateM ε σ) Unit) (E : ε → Prop) (l : List β)
    (s t : σ) (n : ℕ) : Prop where
  put_eq : k.put t = k.put s ++ l
  handed_le : (k.handed s).length ≤ (k.handed t).length
  le_handed : n ≤ (k.handed t).length
  handed_le_max : k.reports → (k.handed t).length ≤ max n (k.handed s).length
  ok : ∀ room, n ≤ room → m (k.env room) s = .ok () t
  error : ∀ room, room < n → ∃ e u, m (k.env room) s = .error e u ∧ E e ∧
    k.put u <+: k.put t ∧ room < (k.handed u).length

/-- The action `m` emits the list `l`. -/
def Emits (k : Sink ρ σ β) (P : σ → Prop) (m : ReaderT ρ (EStateM ε σ) Unit) (E : ε → Prop)
    (l : List β) (Q : σ → Prop) : Prop :=
  ∀ s, P s → ∃ t n, Q t ∧ Emission k m E l s t n

variable {k : Sink ρ σ β} {P Q R : σ → Prop} {m m' : ReaderT ρ (EStateM ε σ) Unit}
  {E E' : ε → Prop} {l l' : List β} {s t u : σ} {n n' : ℕ}

/-- A computation that returns is followed by the next one. -/
theorem Emission.bind_eq_of_ok {γ δ : Type} {m : ReaderT ρ (EStateM ε σ) γ}
    {f : γ → ReaderT ρ (EStateM ε σ) δ} {r : ρ} {a : γ} (h : m r s = .ok a t) :
    (m >>= f) r s = f a r t := by
  change EStateM.bind (m r) _ s = _
  rw [EStateM.bind, h]

theorem Emission.bind_eq_of_error {γ δ : Type} {m : ReaderT ρ (EStateM ε σ) γ}
    {f : γ → ReaderT ρ (EStateM ε σ) δ} {r : ρ} {e : ε} (h : m r s = .error e t) :
    (m >>= f) r s = .error e t := by
  change EStateM.bind (m r) _ s = _
  rw [EStateM.bind, h]

/-- What has left the buffer begins with what was put into it first. -/
theorem Sink.take_handed {w : List β} {room : ℕ} (hput : k.put s <+: w)
    (hle : room ≤ (k.handed s).length) : (k.handed s).take room = w.take room := by
  obtain ⟨v, rfl⟩ := hput
  rw [Sink.put, List.append_assoc, List.take_append_of_le_length hle]

namespace Emission

/-- **An action that fails** has filled the sink with the first elements of what it was to emit. -/
theorem take_handed_of_error (h : Emission k m E l s t n) {room : ℕ} (hlt : room < n) :
    ∃ e u, m (k.env room) s = .error e u ∧ E e ∧
      (k.handed u).take room = (k.put s ++ l).take room := by
  obtain ⟨e, u, hm, he, hput, hroom⟩ := h.error room hlt
  rw [h.put_eq] at hput
  exact ⟨e, u, hm, he, k.take_handed hput hroom.le⟩

/-- **One action after the other.** It is the greater of the two numbers that decides. -/
theorem seq (h : Emission k m E l s t n) (h' : Emission k m' E l' t u n') :
    Emission k (m >>= fun _ => m') E (l ++ l') s u (max n n') where
  put_eq := by rw [h'.put_eq, h.put_eq, List.append_assoc]
  handed_le := h.handed_le.trans h'.handed_le
  le_handed := max_le (h.le_handed.trans h'.handed_le) h'.le_handed
  handed_le_max hreports := by
    refine (h'.handed_le_max hreports).trans (max_le ?_ ?_)
    · exact (le_max_right n n').trans (le_max_left _ _)
    · exact (h.handed_le_max hreports).trans (max_le_max_right _ (le_max_left n n'))
  ok room hle := by
    rw [max_le_iff] at hle
    rw [bind_eq_of_ok (h.ok room hle.1)]
    exact h'.ok room hle.2
  error room hlt := by
    rcases lt_or_ge room n with hfirst | hle
    · -- The first action fails, and the second is not started.
      obtain ⟨e, w, hm, he, hput, hroom⟩ := h.error room hfirst
      refine ⟨e, w, bind_eq_of_error hm, he, hput.trans ?_, hroom⟩
      rw [h'.put_eq]
      exact List.prefix_append _ _
    · have hsecond : room < n' := (lt_max_iff.mp hlt).resolve_left hle.not_gt
      rw [bind_eq_of_ok (h.ok room hle)]
      exact h'.error room hsecond

end Emission

namespace Emits

/-- An action that emits nothing and leaves the buffer alone. -/
theorem nil (h : ∀ s, P s → ∃ t, (∀ room, m (k.env room) s = .ok () t) ∧ Q t ∧
    k.handed t = k.handed s ∧ k.pending t = k.pending s) : Emits k P m E [] Q := by
  intro s hs
  obtain ⟨t, hm, hQ, hhanded, hpending⟩ := h s hs
  refine ⟨t, 0, hQ, ?_, hhanded ▸ le_rfl, Nat.zero_le _, fun _ => ?_, fun room _ => hm room,
    fun room hlt => absurd hlt (Nat.not_lt_zero room)⟩
  · rw [Sink.put, Sink.put, hhanded, hpending, List.append_nil]
  · rw [hhanded]
    exact le_max_right _ _

/-- **One action after the other.** -/
theorem seq (h : Emits k P m E l Q) (h' : Emits k Q m' E l' R) :
    Emits k P (m >>= fun _ => m') E (l ++ l') R := by
  intro s hs
  obtain ⟨t, n, hQ, hm⟩ := h s hs
  obtain ⟨u, n', hR, hm'⟩ := h' t hQ
  exact ⟨u, max n n', hR, hm.seq hm'⟩

/-- More errors. -/
theorem mono (h : Emits k P m E l Q) (hE : ∀ e, E e → E' e) : Emits k P m E' l Q := by
  intro s hs
  obtain ⟨t, n, hQ, hm⟩ := h s hs
  refine ⟨t, n, hQ, { hm with error := fun room hlt => ?_ }⟩
  obtain ⟨e, u, herr, he, hrest⟩ := hm.error room hlt
  exact ⟨e, u, herr, hE e he, hrest⟩

/-- **One action for every element of a list.** -/
theorem forM {f : α → ReaderT ρ (EStateM ε σ) Unit} {g : α → List β} {xs : List α}
    (h : ∀ x ∈ xs, Emits k P (f x) E (g x) P) : Emits k P (xs.forM f) E (xs.flatMap g) P := by
  induction xs with
  | nil => exact nil fun s hs => ⟨s, fun _ => rfl, hs, rfl, rfl⟩
  | cons x xs ih =>
    rw [List.flatMap_cons]
    exact (h x List.mem_cons_self).seq (ih fun y hy => h y (List.mem_cons_of_mem x hy))

end Emits
