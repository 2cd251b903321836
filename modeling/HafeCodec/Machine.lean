import HafeCodec.Library.ExceptFold
import Mathlib.Data.UInt

/-!
# Outcomes, memory and machine integers

A function of the source that may throw, abort or leave defined behaviour is a computation in
`Outcome`. An access outside a vector or a buffer ends in `Fault.undefined`, so that a computation
that succeeds has made none. A loop that the source runs until a condition holds is bounded by a
counter where its termination is not evident from the code; `Fault.loopBound` says that the bound
was reached, which is not a behaviour of the program, and the results about the loop exclude it.

Integers of type `uint64_t` are natural numbers, reduced by `u64` where the arithmetic of the
source can wrap.

## Main definitions

* `Fault`, `Outcome`, `Build`.
* `load`, `store`, `memcpy`, `memcmp`, `resize`: accesses to vectors and buffers.
* `u64`, `u64Pred`.
-/

namespace HafeCodec

/-- The ways in which a computation does not return. -/
inductive Fault
  /-- `throw std::runtime_error{what}`. -/
  | runtimeError (what : String)
  /-- `std::ios_base::failure`, thrown by a stream whose exceptions are enabled. -/
  | iosFailure
  /-- `assert(expr)` failed. -/
  | assertion (expr : String)
  /-- Undefined behaviour. -/
  | undefined
  /-- The bound of a loop of the model was reached. -/
  | loopBound
  deriving DecidableEq, Repr

/-- The computation ended by an exception. -/
def Fault.IsException (f : Fault) : Prop :=
  f = .iosFailure ∨ ∃ what, f = .runtimeError what

instance decidableEqExcept {ε α : Type} [DecidableEq ε] [DecidableEq α] :
    DecidableEq (Except ε α)
  | .error e, .error f => decidable_of_iff (e = f) ⟨congrArg _, Except.error.inj⟩
  | .ok a, .ok b => decidable_of_iff (a = b) ⟨congrArg _, Except.ok.inj⟩
  | .error _, .ok _ => isFalse nofun
  | .ok _, .error _ => isFalse nofun

/-- The outcome of a computation. -/
abbrev Outcome : Type → Type :=
  Except Fault

/-- Assertions are checked in the debug build and removed when `NDEBUG` is defined. The only one
that is modelled is that on the length of the token in the decoder. The others are left out in both
builds: so `assert(bits)` in `bytes_required`, by which the debug build aborts on a stream with an
entry of length zero or with zero bits, where an exception is thrown here. -/
inductive Build
  | debug
  | ndebug
  deriving DecidableEq, Repr

/-- `assert(cond)`. -/
def Build.assert (build : Build) (cond : Bool) (expr : String) : Outcome Unit :=
  if build = .debug ∧ cond = false then .error (.assertion expr) else .ok ()

/-- Arithmetic modulo `2^64`. -/
def u64 (n : ℕ) : ℕ :=
  n % 2 ^ 64

/-- `n - 1` modulo `2^64`. -/
def u64Pred (n : ℕ) : ℕ :=
  if n = 0 then 2 ^ 64 - 1 else n - 1

theorem u64_of_lt {n : ℕ} (h : n < 2 ^ 64) : u64 n = n :=
  Nat.mod_eq_of_lt h

variable {α : Type}

/-- `v[i]` read. -/
def load (v : List α) (i : ℕ) : Outcome α :=
  match v[i]? with
  | some x => .ok x
  | none => .error .undefined

/-- `v[i] = x`. -/
def store (v : List α) (i : ℕ) (x : α) : Outcome (List α) :=
  if i < v.length then .ok (v.set i x) else .error .undefined

/-- `memcpy(dst + off, src, n)`. -/
def memcpy (dst : List α) (off : ℕ) (src : List α) (n : ℕ) : Outcome (List α) :=
  if off + n ≤ dst.length ∧ n ≤ src.length then
    .ok (dst.take off ++ src.take n ++ dst.drop (off + n))
  else .error .undefined

/-- `memcmp(u, v, n) == 0`. -/
def memcmp [DecidableEq α] (u v : List α) (n : ℕ) : Outcome Bool :=
  if n ≤ u.length ∧ n ≤ v.length then .ok (decide (u.take n = v.take n)) else .error .undefined

/-- `v.resize(n)`, the new elements being `x`. -/
def resize (v : List α) (n : ℕ) (x : α) : List α :=
  v.take n ++ List.replicate (n - v.length) x

theorem load_eq_ok {v : List α} {i : ℕ} {x : α} (h : v[i]? = some x) : load v i = .ok x := by
  rw [load, h]

theorem store_eq_ok {v : List α} {i : ℕ} (h : i < v.length) (x : α) :
    store v i x = .ok (v.set i x) :=
  if_pos h

theorem memcpy_eq_ok {dst src : List α} {off n : ℕ} (hd : off + n ≤ dst.length)
    (hs : n ≤ src.length) :
    memcpy dst off src n = .ok (dst.take off ++ src.take n ++ dst.drop (off + n)) :=
  if_pos ⟨hd, hs⟩

theorem memcmp_eq_ok [DecidableEq α] {u v : List α} {n : ℕ} (hu : n ≤ u.length)
    (hv : n ≤ v.length) : memcmp u v n = .ok (decide (u.take n = v.take n)) :=
  if_pos ⟨hu, hv⟩

@[simp] theorem length_resize (v : List α) (n : ℕ) (x : α) : (resize v n x).length = n := by
  rw [resize, List.length_append, List.length_take, List.length_replicate]
  omega

end HafeCodec
