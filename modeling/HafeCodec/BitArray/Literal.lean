import HafeCodec.BitArray.Program

/-!
# Literals of bit arrays

A literal is a string with one character for every bit. Every character other than `0` stands for a
set bit, so that the string of an array is a literal of an array with the same bits, and a literal
comes back as a string if it has no other characters than `0` and `1` (`BitArray.ofLiteral_str`).

## Main definitions

* `BitArray.ofLiteral`, `BitArray.literalBit`, `BitArray.bitChar`.

## Main results

* `BitArray.exists_ofLiteral`.
* `BitArray.ofLiteral_str`.
-/

namespace HafeCodec

namespace BitArray

variable {a : BitArray} {l : List Bool}

/-- The bit that a character of a literal stands for, `!!(s[i] - '0')`. -/
def literalBit (c : UInt8) : Bool :=
  c != 48

/-- `operator ""_vbit(const char *s, size_t len)`. -/
def ofLiteral (s : List UInt8) : Outcome BitArray := do
  let bits ← ofLength 1
  s.foldlM (fun bits c => bits.pushBack (literalBit c)) bits

/-- The character that `str()` writes for a bit. -/
def bitChar (b : Bool) : UInt8 :=
  UInt8.ofNat (b.toNat + 48)

theorem literalBit_bitChar (b : Bool) : literalBit (bitChar b) = b := by
  cases b <;> rfl

theorem bitChar_literalBit {c : UInt8} (hc : c = 48 ∨ c = 49) : bitChar (literalBit c) = c := by
  rcases hc with rfl | rfl <;> rfl

/-- **The array of a literal**, as long as its capacity does not wrap. -/
theorem exists_ofLiteral {s : List UInt8} (hs : s.length + 8 < 2 ^ 64) :
    ∃ a, ofLiteral s = .ok a ∧ a.Represents (s.map literalBit) := by
  obtain ⟨bits, hbits, hrep⟩ := exists_ofLength Nat.one_pos (show 1 ≤ 2 ^ 63 by decide)
  have hstep (done : List UInt8) (c : UInt8) (rest : List UInt8) (bits : BitArray)
      (hl : s = done ++ c :: rest) (hrep : bits.Represents (done.map literalBit)) :
      ∃ bits', bits.pushBack (literalBit c) = .ok bits' ∧
        bits'.Represents ((done ++ [c]).map literalBit) := by
    have hlen := congrArg List.length hl
    rw [List.length_append, List.length_cons] at hlen
    rw [List.map_append, List.map_singleton]
    refine hrep.pushBack ?_ (literalBit c)
    rw [List.length_map]
    omega
  rw [ofLiteral, hbits, ExceptFold.ok_bind]
  exact ExceptFold.foldlM_ok (fun done bits => Represents bits (done.map literalBit)) hrep
    hstep

/-- **Literals and strings.** The string of an array is a literal of an array with the same bits,
and the string of the array of a literal is the literal if it consists of zeros and ones. -/
theorem ofLiteral_str :
    (∀ (a : BitArray) (l : List Bool), a.Represents l → l.length + 8 < 2 ^ 64 →
      ∃ s b, a.str = .ok s ∧ ofLiteral s = .ok b ∧ b.Represents l) ∧
    ∀ s : List UInt8, s.length + 8 < 2 ^ 64 →
      ∃ a, ofLiteral s = .ok a ∧ a.bitLength = s.length ∧
        (a.str = .ok s ↔ ∀ c ∈ s, c = 48 ∨ c = 49) := by
  constructor
  · intro a l h hl
    obtain ⟨b, hb, hrep⟩ := exists_ofLiteral (s := l.map bitChar) (by rwa [List.length_map])
    have hmap : (l.map bitChar).map literalBit = l := by
      rw [List.map_map]
      exact (List.map_congr_left fun b _ => literalBit_bitChar b).trans (List.map_id l)
    exact ⟨_, b, h.str_eq, hb, hmap ▸ hrep⟩
  · intro s hs
    obtain ⟨a, ha, hrep⟩ := exists_ofLiteral hs
    refine ⟨a, ha, hrep.bitIdx_eq.trans (List.length_map _), ?_⟩
    have hstr : a.str = .ok (s.map (bitChar ∘ literalBit)) := by
      rw [← List.map_map]
      exact hrep.str_eq
    rw [hstr]
    constructor
    · intro heq c hc
      have hmap := Except.ok.inj heq
      obtain ⟨i, hi, rfl⟩ := List.getElem_of_mem hc
      have hchar := List.getElem_of_eq hmap (by rwa [List.length_map])
      rw [List.getElem_map] at hchar
      rw [← hchar, Function.comp_apply]
      cases literalBit s[i]
      · exact Or.inl rfl
      · exact Or.inr rfl
    · intro hchars
      refine congrArg Except.ok ?_
      exact (List.map_congr_left fun c hc => bitChar_literalBit (hchars c hc)).trans (List.map_id s)

end BitArray

end HafeCodec
