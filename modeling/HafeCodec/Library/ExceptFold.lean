import Mathlib.Data.List.Induction
import Mathlib.Tactic.TypeStar

/-!
# Loops of fallible steps

A loop of an imperative program that may fail is a monadic left fold in `Except ε`. This file
gives the rules by which such a loop is verified: an invariant indexed by the part of the list
already traversed (`ExceptFold.foldlM_ok`), or by the loop counter (`ExceptFold.foldlM_range_ok`),
that every step establishes again, holds at the end, and the loop does not fail. A program whose
commands are simulated one by one, where they are legal, is simulated over every legal run
(`ExceptFold.foldlM_simulates`).

## Main results

* `ExceptFold.bind_eq_ok_iff`, `ExceptFold.bind_eq_error_iff`: a sequence of two computations.
* `ExceptFold.foldlM_ok`: the loop rule over a list.
* `ExceptFold.foldlM_range_ok`: the loop rule over a counter.
* `ExceptFold.foldlM_range_error`: a loop whose step fails.
* `ExceptFold.foldlM_simulates_run`, `ExceptFold.foldlM_simulates`: a program refines another one
  along a legal run.
* `ExceptFold.foldlM_invariant`: what every successful step keeps is kept by a successful loop.
-/

universe u v

namespace ExceptFold

variable {ε α : Type u} {σ τ : Type v}

@[simp] theorem ok_bind (a : σ) (f : σ → Except ε τ) : ((Except.ok a : Except ε σ) >>= f) = f a :=
  rfl

@[simp] theorem error_bind (e : ε) (f : σ → Except ε τ) :
    ((Except.error e : Except ε σ) >>= f) = Except.error e :=
  rfl

@[simp] theorem pure_eq_ok (a : σ) : (pure a : Except ε σ) = Except.ok a :=
  rfl

/-- Two computations in sequence succeed exactly when the first does and the second does on its
result. -/
theorem bind_eq_ok_iff {x : Except ε σ} {f : σ → Except ε τ} {b : τ} :
    (x >>= f) = Except.ok b ↔ ∃ a, x = Except.ok a ∧ f a = Except.ok b := by
  cases x with
  | error e => simp
  | ok a => simp

/-- Two computations in sequence fail exactly when the first does, or the second does on its
result. -/
theorem bind_eq_error_iff {x : Except ε σ} {f : σ → Except ε τ} {e : ε} :
    (x >>= f) = Except.error e ↔
      x = Except.error e ∨ ∃ a, x = Except.ok a ∧ f a = Except.error e := by
  cases x with
  | error e' => simp
  | ok a => simp

/-- Two continuations may be exchanged when they agree on the result. -/
theorem bind_congr_of_eq_ok {x : Except ε σ} {f g : σ → Except ε τ}
    (h : ∀ a, x = Except.ok a → f a = g a) : x >>= f = x >>= g := by
  cases x with
  | error e => rfl
  | ok a => exact h a rfl

theorem map_bind {υ : Type v} (x : Except ε σ) (f : σ → Except ε τ) (g : τ → υ) :
    (x >>= f).map g = x >>= fun a => (f a).map g := by
  cases x with
  | error e => rfl
  | ok a => rfl

/-- **Loop rule over a list.** An invariant of the traversed part that every step establishes
again holds of the whole list, and the loop does not fail. -/
theorem foldlM_ok {f : σ → α → Except ε σ} {l : List α} {s : σ} (P : List α → σ → Prop)
    (h0 : P [] s)
    (hstep : ∀ (done : List α) (x : α) (rest : List α) (t : σ), l = done ++ x :: rest → P done t →
      ∃ t', f t x = Except.ok t' ∧ P (done ++ [x]) t') :
    ∃ t, l.foldlM f s = Except.ok t ∧ P l t := by
  suffices key : ∀ (rest done : List α) (t : σ), l = done ++ rest → P done t →
      ∃ t', rest.foldlM f t = Except.ok t' ∧ P l t' from key l [] s rfl h0
  intro rest
  induction rest with
  | nil =>
    intro done t hl ht
    refine ⟨t, rfl, ?_⟩
    rw [hl, List.append_nil]
    exact ht
  | cons x rest ih =>
    intro done t hl ht
    obtain ⟨t', hf, ht'⟩ := hstep done x rest t hl ht
    obtain ⟨t'', hr, ht''⟩ := ih (done ++ [x]) t' (by simp [hl]) ht'
    refine ⟨t'', ?_, ht''⟩
    rw [List.foldlM_cons, hf, ok_bind, hr]

/-- **Loop rule over a counter.** -/
theorem foldlM_range_ok {f : σ → ℕ → Except ε σ} {n : ℕ} {s : σ} (P : ℕ → σ → Prop) (h0 : P 0 s)
    (hstep : ∀ (i : ℕ) (t : σ), i < n → P i t → ∃ t', f t i = Except.ok t' ∧ P (i + 1) t') :
    ∃ t, (List.range n).foldlM f s = Except.ok t ∧ P n t := by
  induction n with
  | zero => exact ⟨s, rfl, h0⟩
  | succ n ih =>
    obtain ⟨t, ht, hP⟩ := ih fun i t hi => hstep i t (Nat.lt_succ_of_lt hi)
    obtain ⟨t', hf, hP'⟩ := hstep n t (Nat.lt_succ_self n) hP
    refine ⟨t', ?_, hP'⟩
    rw [List.range_succ, List.foldlM_append, ht, ok_bind, List.foldlM_cons, hf, ok_bind]
    rfl

/-- What every successful step keeps is kept by a loop that succeeds. -/
theorem foldlM_invariant {f : σ → α → Except ε σ} {l : List α} {s t : σ} (P : σ → Prop)
    (hl : l.foldlM f s = Except.ok t) (h0 : P s)
    (hstep : ∀ s x t, f s x = Except.ok t → P s → P t) : P t := by
  induction l generalizing s with
  | nil =>
    obtain rfl : s = t := Except.ok.inj hl
    exact h0
  | cons x l ih =>
    rw [List.foldlM_cons, bind_eq_ok_iff] at hl
    obtain ⟨u, hu, hrest⟩ := hl
    exact ih hrest (hstep s x u hu h0)

/-- A loop over a counter whose step fails after a part that succeeds. -/
theorem foldlM_range_error {f : σ → ℕ → Except ε σ} {i n : ℕ} {s t : σ} {e : ε} (hi : i < n)
    (hpre : (List.range i).foldlM f s = Except.ok t) (hf : f t i = Except.error e) :
    (List.range n).foldlM f s = Except.error e := by
  obtain ⟨k, rfl⟩ := Nat.exists_eq_add_of_lt hi
  rw [Nat.add_assoc, List.range_add, List.foldlM_append, hpre, ok_bind, List.range_succ_eq_map,
    List.map_cons, List.foldlM_cons, Nat.add_zero, hf, error_bind]

/-! ### Programs -/

/-- Every command of the list is legal in the state in which it is run. -/
def LegalRun (legal : σ → α → Prop) (f : σ → α → Except ε σ) : σ → List α → Prop
  | _, [] => True
  | s, x :: l => legal s x ∧ ∀ t, f s x = Except.ok t → LegalRun legal f t l

namespace LegalRun

variable {legal : σ → α → Prop} {f : σ → α → Except ε σ} {s t : σ} {x : α} {l m : List α}

theorem cons (hx : legal s x) (hf : f s x = Except.ok t) (hl : LegalRun legal f t l) :
    LegalRun legal f s (x :: l) := by
  refine ⟨hx, fun u hu => ?_⟩
  rw [hf] at hu
  rwa [← Except.ok.inj hu]

theorem of_append (h : LegalRun legal f s (l ++ m)) : LegalRun legal f s l := by
  induction l generalizing s with
  | nil => trivial
  | cons x l ih => exact ⟨h.1, fun t ht => ih (h.2 t ht)⟩

/-- A command is legal in the state to which the commands in front of it lead. -/
theorem legal_of_append (h : LegalRun legal f s (l ++ x :: m)) (hf : l.foldlM f s = Except.ok t) :
    legal t x := by
  induction l generalizing s with
  | nil =>
    obtain rfl := Except.ok.inj hf
    exact h.1
  | cons y l ih =>
    rw [List.foldlM_cons] at hf
    obtain ⟨u, hu, hrest⟩ := bind_eq_ok_iff.mp hf
    exact ih (h.2 u hu) hrest

end LegalRun

/-- **Refinement of a program along its run.** The relation of the states may speak of the commands
that led to them. When every legal command, run on related states, succeeds and leads to related
states, so does every legal run. -/
theorem foldlM_simulates_run {f : σ → α → Except ε σ} {g : τ → α → τ} {legal : σ → α → Prop}
    {s : σ} {t : τ} {R : List α → σ → τ → Prop}
    (hstep : ∀ done u x, done.foldlM f s = Except.ok u → R done u (done.foldl g t) → legal u x →
      ∃ u', f u x = Except.ok u' ∧ R (done ++ [x]) u' (g (done.foldl g t) x))
    {l : List α} (hR : R [] s t) (hl : LegalRun legal f s l) :
    ∃ s', l.foldlM f s = Except.ok s' ∧ R l s' (l.foldl g t) := by
  induction l using List.reverseRecOn with
  | nil => exact ⟨s, rfl, hR⟩
  | append_singleton done x ih =>
    obtain ⟨u, hu, hRu⟩ := ih hl.of_append
    obtain ⟨u', hf, hR'⟩ := hstep done u x hu hRu (hl.legal_of_append hu)
    refine ⟨u', ?_, ?_⟩
    · rw [List.foldlM_append, hu, ok_bind, List.foldlM_cons, hf, ok_bind]
      rfl
    · rw [List.foldl_append]
      exact hR'

/-- **Refinement of a program.** When every legal command, run on related states, succeeds and leads
to related states, so does every legal run. -/
theorem foldlM_simulates {f : σ → α → Except ε σ} {g : τ → α → τ} {legal : σ → α → Prop}
    {R : σ → τ → Prop}
    (hstep : ∀ s t x, R s t → legal s x → ∃ s', f s x = Except.ok s' ∧ R s' (g t x))
    {l : List α} {s : σ} {t : τ} (hR : R s t) (hl : LegalRun legal f s l) :
    ∃ s', l.foldlM f s = Except.ok s' ∧ R s' (l.foldl g t) :=
  foldlM_simulates_run (R := fun _ => R) (fun _ u x _ hRu hx => hstep u _ x hRu hx) hR hl

end ExceptFold
