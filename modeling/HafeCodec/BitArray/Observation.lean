import HafeCodec.BitArray.Bits

/-!
# What can be observed of a bit array

A caller sees the length of an array and the bits below it, read one by one. `BitArray.Shows a l`
says that these are the bits `l`, and that reading them makes no access outside of the vector. The
last bit and the string of an array are functions of what it shows, whatever is found in its unused
bits.

## Main definitions

* `BitArray.Shows`.
* `BitArray.SameBits`: two arrays of one length with the same bit at every index.

## Main results

* `BitArray.InBounds.shows_iff`, `BitArray.InBounds.sameBits_iff`.
* `BitArray.Shows.back_eq`, `BitArray.Shows.str_eq`.
* `BitArray.sameBits_iff`: two arrays with the same bits show the same list.
-/

namespace HafeCodec

namespace BitArray

variable {a o : BitArray} {l l' : List Bool}

/-- The array has the length of `l` and the bits of `l`, all of them inside of the vector. -/
structure Shows (a : BitArray) (l : List Bool) : Prop where
  bitLength_eq : a.bitLength = l.length
  get_eq : ∀ {i b}, l[i]? = some b → a.get i = .ok b

theorem InBounds.shows (h : a.InBounds) : a.Shows a.bits where
  bitLength_eq := h.length_bits.symm
  get_eq := get_eq_ok

theorem Shows.unique (h : a.Shows l) (h' : a.Shows l') : l = l' := by
  have hlen : l.length = l'.length := h.bitLength_eq.symm.trans h'.bitLength_eq
  refine List.ext_getElem hlen fun i hi hi' => ?_
  have hget := h.get_eq (List.getElem?_eq_getElem hi)
  rw [h'.get_eq (List.getElem?_eq_getElem hi')] at hget
  exact (Except.ok.inj hget).symm

theorem InBounds.shows_iff (h : a.InBounds) : a.Shows l ↔ a.bits = l := by
  constructor
  · exact fun hl => h.shows.unique hl
  · rintro rfl
    exact h.shows

theorem Readable.shows_iff (h : a.Readable) : a.Shows l ↔ a.bits = l :=
  h.inBounds.shows_iff

theorem Holds.shows (h : a.Holds l) (hl : l.length + 7 < 2 ^ 64) : a.Shows l :=
  (h.readable hl).shows_iff.mpr h.bits_eq

/-- **The last bit.** -/
theorem Shows.back_eq (h : a.Shows l) (hne : l ≠ []) : a.back = .ok (l.getLast hne) := by
  have hlen : a.bitIdx = l.length := h.bitLength_eq
  have hpos := List.length_pos_iff.mpr hne
  have hidx : a.lastBitIdx = l.length - 1 := by
    rw [lastBitIdx, hlen, if_pos hpos.ne']
  refine h.get_eq ?_
  rw [hidx, ← List.getLast?_eq_getElem?, List.getLast?_eq_some_getLast hne]

/-- **The string of the bits.** -/
theorem Shows.str_eq (h : a.Shows l) :
    a.str = .ok (l.map fun b => UInt8.ofNat (b.toNat + 48)) := by
  set digit := fun b : Bool => UInt8.ofNat (b.toNat + 48)
  have hstep (i : ℕ) (oss : List UInt8) (hi : i < a.bitLength)
      (hoss : oss = (l.take i).map digit) :
      ∃ oss', (do
          let bit ← a.get i
          return oss ++ [digit bit] : Outcome (List UInt8)) = .ok oss' ∧
        oss' = (l.take (i + 1)).map digit := by
    rw [h.bitLength_eq] at hi
    refine ⟨oss ++ [digit l[i]], by rw [h.get_eq (List.getElem?_eq_getElem hi)]; rfl, ?_⟩
    rw [hoss, ← List.take_concat_get' _ _ hi, List.map_append, List.map_singleton]
  obtain ⟨oss, hloop, rfl⟩ := ExceptFold.foldlM_range_ok (s := [])
    (fun i oss => oss = (l.take i).map digit) rfl hstep
  rw [h.bitLength_eq, List.take_length] at hloop
  rw [str, h.bitLength_eq]
  exact hloop

/-! ### Two arrays -/

/-- The arrays have the same length and the same bit at every index below it. -/
def SameBits (a o : BitArray) : Prop :=
  a.bitLength = o.bitLength ∧ ∀ i < a.bitLength, ∃ b, a.get i = .ok b ∧ o.get i = .ok b

/-- Two arrays have the same bits exactly when they show the same list. -/
theorem sameBits_iff : SameBits a o ↔ ∃ l, a.Shows l ∧ o.Shows l := by
  constructor
  · rintro ⟨hlen, hget⟩
    choose! f hf using hget
    have hf' {i : ℕ} {b : Bool} (hb : ((List.range a.bitLength).map f)[i]? = some b) :
        i < a.bitLength ∧ f i = b := by
      rw [List.getElem?_map, Option.map_eq_some_iff] at hb
      obtain ⟨j, hj, rfl⟩ := hb
      obtain ⟨hi, rfl⟩ := List.getElem?_eq_some_iff.mp hj
      rw [List.length_range] at hi
      exact ⟨hi, by rw [List.getElem_range]⟩
    refine ⟨(List.range a.bitLength).map f, ⟨by simp, fun hb => ?_⟩, ⟨by simp [hlen], fun hb => ?_⟩⟩
    · obtain ⟨hi, rfl⟩ := hf' hb
      exact (hf _ hi).1
    · obtain ⟨hi, rfl⟩ := hf' hb
      exact (hf _ hi).2
  · rintro ⟨l, ha, ho⟩
    refine ⟨ha.bitLength_eq.trans ho.bitLength_eq.symm, fun i hi => ?_⟩
    rw [ha.bitLength_eq] at hi
    have hb := List.getElem?_eq_getElem hi
    exact ⟨l[i], ha.get_eq hb, ho.get_eq hb⟩

theorem InBounds.sameBits_iff (ha : a.InBounds) (ho : o.InBounds) :
    SameBits a o ↔ a.bits = o.bits := by
  rw [BitArray.sameBits_iff]
  constructor
  · rintro ⟨l, hal, hol⟩
    rw [ha.shows_iff.mp hal, ho.shows_iff.mp hol]
  · exact fun h => ⟨a.bits, ha.shows, h ▸ ho.shows⟩

end BitArray

end HafeCodec
