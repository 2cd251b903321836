import Mathlib.Data.List.Basic
import Mathlib.Data.List.Infix
import Mathlib.Tactic.Cases

/-!
# Shortest-match parsing

A decoder grows a token one letter at a time and looks it up after every letter; when the lookup
`find` succeeds it emits the symbol found and starts a new token. This file relates that loop
(`ShortestMatch.run`) to what it computes: `ShortestMatch.Parse find l out r` says that `l` is the
concatenation of minimal codewords of the symbols `out`, followed by a rest `r` none of whose
nonempty prefixes is a codeword. Every list has exactly one such parse, and it is the one that
the loop finds (`ShortestMatch.run_eq_iff`).

## Main definitions

* `ShortestMatch.step`, `ShortestMatch.run`: the loop.
* `ShortestMatch.Unmatched`, `ShortestMatch.Minimal`, `ShortestMatch.Parse`: the parse.
* `ShortestMatch.IsLookup`, `ShortestMatch.Spelling`: the parse of a list in terms of codewords.

## Main results

* `ShortestMatch.run_eq_iff`: the loop finds the parse.
* `ShortestMatch.Spelling.parse`, `ShortestMatch.Parse.spelling`: the parse in terms of codewords.
* `ShortestMatch.parse_flatMap`: the concatenation of minimal codewords is parsed.
* `ShortestMatch.exists_long_token_iff`: when the token outgrows every codeword.
-/

namespace ShortestMatch

variable {α β : Type*} (find : List β → Option α)

/-- One letter is appended to the token, and the token is looked up. -/
def step (p : List α × List β) (b : β) : List α × List β :=
  match find (p.2 ++ [b]) with
  | some a => (p.1 ++ [a], [])
  | none => (p.1, p.2 ++ [b])

/-- The symbols emitted on a list, and the token left at its end. -/
def run (l : List β) : List α × List β :=
  l.foldl (step find) ([], [])

/-- No nonempty prefix of the list is a codeword. -/
def Unmatched (r : List β) : Prop :=
  ∀ p, p ≠ [] → p <+: r → find p = none

/-- `c` is a codeword of `a`, and no shorter nonempty prefix of `c` is a codeword. -/
structure Minimal (c : List β) (a : α) : Prop where
  ne_nil : c ≠ []
  find_eq : find c = some a
  find_prefix : ∀ p, p ≠ [] → p <+: c → p ≠ c → find p = none

/-- `Parse find l out r`: the list `l` consists of minimal codewords of the symbols `out` and an
unmatched rest `r`. -/
inductive Parse : List β → List α → List β → Prop
  | stop {r : List β} (hr : Unmatched find r) : Parse r [] r
  | emit {c l r : List β} {a : α} {out : List α} (hc : Minimal find c a) (hl : Parse l out r) :
      Parse (c ++ l) (a :: out) r

variable {find}

theorem run_append_singleton (l : List β) (b : β) :
    run find (l ++ [b]) = step find (run find l) b := by
  rw [run, List.foldl_append]
  rfl

theorem unmatched_nil : Unmatched find [] :=
  fun _ hp hpre => absurd (List.prefix_nil.mp hpre) hp

theorem Unmatched.of_prefix {r r' : List β} (h : Unmatched find r) (hr : r' <+: r) :
    Unmatched find r' :=
  fun p hp hpre => h p hp (hpre.trans hr)

/-- The last letter of a minimal codeword completes it. -/
theorem minimal_append_singleton {r : List β} {b : β} {a : α} (hr : Unmatched find r)
    (hf : find (r ++ [b]) = some a) : Minimal find (r ++ [b]) a where
  ne_nil := by simp
  find_eq := hf
  find_prefix p hp hpre hne := by
    rcases List.prefix_concat_iff.mp hpre with h | h
    · exact absurd h hne
    · exact hr p hp h

theorem unmatched_append_singleton {r : List β} {b : β} (hr : Unmatched find r)
    (hf : find (r ++ [b]) = none) : Unmatched find (r ++ [b]) := by
  intro p hp hpre
  rcases List.prefix_concat_iff.mp hpre with h | h
  · rw [h, hf]
  · exact hr p hp h

/-- One more letter that completes a codeword. -/
theorem Parse.append_of_find_eq_some {l r : List β} {out : List α} (h : Parse find l out r) {b : β}
    {a : α} (hf : find (r ++ [b]) = some a) : Parse find (l ++ [b]) (out ++ [a]) [] := by
  induction h with
  | stop hr =>
    have hp := Parse.emit (minimal_append_singleton hr hf) (Parse.stop unmatched_nil)
    rwa [List.append_nil] at hp
  | emit hc _ ih =>
    rw [List.append_assoc, List.cons_append]
    exact Parse.emit hc (ih hf)

/-- One more letter that completes no codeword. -/
theorem Parse.append_of_find_eq_none {l r : List β} {out : List α} (h : Parse find l out r) {b : β}
    (hf : find (r ++ [b]) = none) : Parse find (l ++ [b]) out (r ++ [b]) := by
  induction h with
  | stop hr => exact Parse.stop (unmatched_append_singleton hr hf)
  | emit hc _ ih =>
    rw [List.append_assoc]
    exact Parse.emit hc (ih hf)

/-- **The loop finds a parse.** -/
theorem run_parse (l : List β) : Parse find l (run find l).1 (run find l).2 := by
  induction l using List.reverseRecOn with
  | nil => exact Parse.stop unmatched_nil
  | append_singleton l b ih =>
    rw [run_append_singleton, step]
    cases hf : find ((run find l).2 ++ [b]) with
    | some a => exact ih.append_of_find_eq_some hf
    | none => exact ih.append_of_find_eq_none hf

/-- Two minimal codewords in front of one list are equal. -/
theorem Minimal.eq_of_append_eq {c c' l l' : List β} {a a' : α} (hc : Minimal find c a)
    (hc' : Minimal find c' a') (h : c ++ l = c' ++ l') : c = c' ∧ a = a' := by
  have hcc : c = c' := by
    by_contra hne
    have hp : c <+: c' ++ l' := h ▸ List.prefix_append _ _
    rcases List.prefix_or_prefix_of_prefix hp (List.prefix_append c' l') with hpre | hpre
    · exact absurd (hc'.find_prefix c hc.ne_nil hpre hne) (by simp [hc.find_eq])
    · exact absurd (hc.find_prefix c' hc'.ne_nil hpre (Ne.symm hne)) (by simp [hc'.find_eq])
  subst hcc
  exact ⟨rfl, Option.some.inj (hc.find_eq.symm.trans hc'.find_eq)⟩

/-- **A list has only one parse.** -/
theorem Parse.unique {l r r' : List β} {out out' : List α} (h : Parse find l out r)
    (h' : Parse find l out' r') : out = out' ∧ r = r' := by
  induction h generalizing out' r' with
  | stop hr =>
    cases h' with
    | stop _ => exact ⟨rfl, rfl⟩
    | emit hc _ =>
      exact absurd (hr _ hc.ne_nil (List.prefix_append _ _)) (by simp [hc.find_eq])
  | @emit c l r a out hc _ ih =>
    generalize hL : c ++ l = L at h'
    cases h' with
    | stop hr =>
      refine absurd (hr c hc.ne_nil ?_) (by simp [hc.find_eq])
      rw [← hL]
      exact List.prefix_append _ _
    | emit hc' hl' =>
      obtain ⟨rfl, rfl⟩ := hc.eq_of_append_eq hc' hL
      obtain rfl := List.append_cancel_left hL
      obtain ⟨rfl, rfl⟩ := ih hl'
      exact ⟨rfl, rfl⟩

/-- **The loop computes the parse.** -/
theorem run_eq_iff {l r : List β} {out : List α} :
    run find l = (out, r) ↔ Parse find l out r := by
  constructor
  · intro h
    have hp : Parse find l (run find l).1 (run find l).2 := run_parse l
    rwa [h] at hp
  · intro h
    obtain ⟨h₁, h₂⟩ := h.unique (run_parse l)
    exact (Prod.ext h₁ h₂).symm

/-- The rest is no longer than the list. -/
theorem Parse.length_le {l r : List β} {out : List α} (h : Parse find l out r) :
    r.length ≤ l.length := by
  induction h with
  | stop _ => exact le_rfl
  | emit _ _ ih =>
    rw [List.length_append]
    exact ih.trans (Nat.le_add_left _ _)

theorem length_run_le (l : List β) : (run find l).2.length ≤ l.length :=
  (run_parse l).length_le

/-- The concatenation of minimal codewords, followed by an unmatched rest, is parsed into their
symbols. -/
theorem parse_flatMap {code : α → List β} {w : List α} (hw : ∀ a ∈ w, Minimal find (code a) a)
    {r : List β} (hr : Unmatched find r) : Parse find (w.flatMap code ++ r) w r := by
  induction w with
  | nil => exact Parse.stop hr
  | cons a w ih =>
    rw [List.flatMap_cons, List.append_assoc]
    exact Parse.emit (hw a List.mem_cons_self)
      (ih fun b hb => hw b (List.mem_cons_of_mem _ hb))

/-- The symbols emitted on the beginning of a list are the first ones emitted on the list. -/
theorem run_prefix_append (l m : List β) : (run find l).1 <+: (run find (l ++ m)).1 := by
  induction m using List.reverseRecOn with
  | nil => rw [List.append_nil]
  | append_singleton m b ih =>
    rw [← List.append_assoc, run_append_singleton, step]
    cases find ((run find (l ++ m)).2 ++ [b]) with
    | some a => exact ih.trans (List.prefix_append _ _)
    | none => exact ih

/-- A list that begins with minimal codewords is parsed into symbols that begin with theirs. -/
theorem prefix_run_flatMap {code : α → List β} {w : List α}
    (hw : ∀ a ∈ w, Minimal find (code a) a) (m : List β) :
    w <+: (run find (w.flatMap code ++ m)).1 := by
  have hp : Parse find (w.flatMap code ++ []) w [] := parse_flatMap hw unmatched_nil
  have hrun := run_eq_iff.mpr hp
  have hpre : (run find (w.flatMap code)).1 <+: _ := run_prefix_append (w.flatMap code) m
  rw [List.append_nil] at hrun
  rwa [hrun] at hpre

/-! ### Spellings -/

/-- `find` is a lookup in the codewords of the symbols with `C`. -/
structure IsLookup (find : List β → Option α) (code : α → List β) (C : α → Prop) : Prop where
  code_eq : ∀ {c a}, find c = some a → code a = c ∧ C a
  find_ne_none : ∀ {a}, C a → find (code a) ≠ none

/-- The list `l` consists of codewords of the symbols `w`, none of which begins with another
codeword, and of a rest `r` that begins with no codeword. Only the codewords of the symbols with `C`
count. -/
structure Spelling (code : α → List β) (C : α → Prop) (l : List β) (w : List α) (r : List β) :
    Prop where
  eq_append : l = w.flatMap code ++ r
  usable : ∀ a ∈ w, code a ≠ [] ∧ C a
  shortest : ∀ a ∈ w, ∀ b, C b → code b ≠ [] → code b <+: code a → code b = code a
  unmatched : ∀ b, C b → code b ≠ [] → ¬ code b <+: r

namespace IsLookup

variable {code : α → List β} {C : α → Prop} (hl : IsLookup find code C)

include hl

theorem unmatched_iff {r : List β} :
    Unmatched find r ↔ ∀ b, C b → code b ≠ [] → ¬ code b <+: r := by
  constructor
  · exact fun hr b hC hne hpre => hl.find_ne_none hC (hr _ hne hpre)
  · intro hr p hp hpre
    cases hf : find p with
    | none => rfl
    | some b =>
      obtain ⟨rfl, hC⟩ := hl.code_eq hf
      exact absurd hpre (hr b hC hp)

theorem minimal {a : α} (hC : C a) (hne : code a ≠ [])
    (h : ∀ b, C b → code b ≠ [] → code b <+: code a → code b = code a) :
    Minimal find (code a) ((find (code a)).getD a) where
  ne_nil := hne
  find_eq := by
    obtain ⟨b, hb⟩ := Option.ne_none_iff_exists'.mp (hl.find_ne_none hC)
    rw [hb, Option.getD_some]
  find_prefix p hp hpre hpne := by
    cases hf : find p with
    | none => rfl
    | some b =>
      obtain ⟨rfl, hCb⟩ := hl.code_eq hf
      exact absurd (h b hCb hp hpre) hpne

end IsLookup

/-- **A spelling is parsed** into the first symbols that have its codewords. -/
theorem Spelling.parse {code : α → List β} {C : α → Prop} (hl : IsLookup find code C)
    {l r : List β} {w : List α} (h : Spelling code C l w r) :
    Parse find l (w.map fun a => (find (code a)).getD a) r := by
  obtain ⟨rfl, husable, hshortest, hun⟩ := h
  induction w with
  | nil => exact Parse.stop (hl.unmatched_iff.mpr hun)
  | cons a w ih =>
    obtain ⟨⟨hne, hC⟩, husable⟩ := List.forall_mem_cons.mp husable
    obtain ⟨hmin, hshortest⟩ := List.forall_mem_cons.mp hshortest
    rw [List.flatMap_cons, List.append_assoc, List.map_cons]
    exact Parse.emit (hl.minimal hC hne hmin) (ih husable hshortest)

/-- **A parse is a spelling.** -/
theorem Parse.spelling {code : α → List β} {C : α → Prop} (hl : IsLookup find code C)
    {l r : List β} {out : List α} (h : Parse find l out r) : Spelling code C l out r := by
  induction h with
  | stop hr =>
    exact ⟨rfl, fun _ ha => absurd ha List.not_mem_nil, fun _ ha => absurd ha List.not_mem_nil,
      hl.unmatched_iff.mp hr⟩
  | emit hc _ ih =>
    obtain ⟨rfl, hC⟩ := hl.code_eq hc.find_eq
    refine ⟨?_, List.forall_mem_cons.mpr ⟨⟨hc.ne_nil, hC⟩, ih.usable⟩,
      List.forall_mem_cons.mpr ⟨?_, ih.shortest⟩, ih.unmatched⟩
    · rw [List.flatMap_cons, List.append_assoc, ← ih.eq_append]
    · intro b hCb hb hpre
      by_contra hne
      exact hl.find_ne_none hCb (hc.find_prefix _ hb hpre hne)

/-! ### Tokens that outgrow every codeword -/

/-- On an unmatched list the token is the whole list. -/
theorem run_unmatched {r : List β} (hr : Unmatched find r) : run find r = ([], r) :=
  run_eq_iff.mpr (Parse.stop hr)

/-- A minimal codeword in front leaves the same last token. -/
theorem run_minimal_append {c : List β} {a : α} (hc : Minimal find c a) (l : List β) :
    run find (c ++ l) = (a :: (run find l).1, (run find l).2) :=
  run_eq_iff.mpr (Parse.emit hc (run_parse l))

/-- **When the token outgrows every codeword.** If no codeword is longer than `n`, the token has
`n` letters at some point before the end exactly when the unmatched rest is longer than `n`. -/
theorem exists_long_token_iff {n : ℕ} (hn : ∀ c a, find c = some a → c.length ≤ n)
    {l r : List β} {out : List α} (h : Parse find l out r) :
    (∃ i < l.length, n ≤ (run find (l.take i)).2.length) ↔ n < r.length := by
  induction h with
  | @stop r hr =>
    have htok (i : ℕ) : run find (r.take i) = ([], r.take i) :=
      run_unmatched (hr.of_prefix (List.take_prefix i r))
    constructor
    · rintro ⟨i, hi, hlen⟩
      rw [htok, List.length_take] at hlen
      omega
    · intro hlt
      refine ⟨n, hlt, ?_⟩
      rw [htok, List.length_take]
      omega
  | @emit c l r a out hc _ ih =>
    rw [← ih]
    constructor
    · rintro ⟨i, hi, hlen⟩
      rw [List.take_append] at hlen
      rcases lt_or_ge i c.length with hic | hic
      · -- Inside the first codeword the token is a proper prefix of it.
        have hun : Unmatched find (c.take i) := fun p hp hpre =>
          hc.find_prefix p hp (hpre.trans (List.take_prefix i c)) (by
            rintro rfl
            have := hpre.length_le
            rw [List.length_take] at this
            omega)
        rw [Nat.sub_eq_zero_of_le hic.le, List.take_zero, List.append_nil,
          run_unmatched hun, List.length_take] at hlen
        have := hn c a hc.find_eq
        omega
      · rw [List.take_of_length_le hic, run_minimal_append hc] at hlen
        exact ⟨i - c.length, by rw [List.length_append] at hi; omega, hlen⟩
    · rintro ⟨i, hi, hlen⟩
      refine ⟨c.length + i, by rw [List.length_append]; omega, ?_⟩
      rw [List.take_length_add_append, run_minimal_append hc]
      exact hlen

end ShortestMatch
