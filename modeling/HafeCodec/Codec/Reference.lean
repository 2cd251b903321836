import HafeCodec.Codec.Decoder
import HafeCodec.Library.ReferenceParser

/-!
# The decoder as a reference parser

The string put out by the decoder is the one that the reference parser finds in the bits of the
array: the symbol whose codeword is the shortest nonempty one in front of the bits is emitted, the
lowest if there are several, and the codeword removed, until no codeword is in front of the bits.
This holds of every table with codewords of at most 255 bits that are padded with zeros, whether or
not it comes from a tree, in the build without assertions. In a table without a codeword that begins
with another one, the concatenation of codewords is decoded.

## Main definitions

* `SymbolTable.reference`: the reference parser on a table.

## Main results

* `Decoder.decode_eq_reference`.
-/

open PrefixCode ReferenceParser ShortestMatch

namespace HafeCodec

namespace SymbolTable

variable {st : SymbolTable}

/-- The symbols whose codewords are found in front of the bits, the shortest one first. -/
def reference (st : SymbolTable) (l : List Bool) : List UInt8 :=
  ReferenceParser.reference st.code symbols l

/-- Where all codewords are padded with zeros, the lookup finds the first symbol with a codeword. -/
theorem lookup_eq_firstWith (hpad : ∀ s, (st s).ZeroPadded) :
    st.lookup = firstWith st.code symbols := by
  funext c
  refine List.find?_congr fun s _ => decide_eq_decide.mpr ?_
  exact and_iff_left (hpad s)

end SymbolTable

namespace Decoder

open BitArray

variable {st : SymbolTable} {encoded : BitArray}

/-- **Decoding is the shortest-match parse.** Without assertions, the decoder returns the string
found by the reference parser; in a table without a nonempty codeword that is a prefix of another
one, it returns the string whose codewords the bits are. -/
theorem decode_eq_reference (hst : ∀ s, (st s).Readable)
    (hshort : ∀ s, (st s).bitLength ≤ HuffmanCode.maxLength) (hpad : ∀ s, (st s).ZeroPadded)
    (he : encoded.InBounds) :
    decode .ndebug st encoded = .ok (st.reference encoded.bits) ∧
      (IsPrefixFree st.code {s | st.code s ≠ []} → ∀ w : List UInt8, (∀ s ∈ w, st.code s ≠ []) →
        encoded.bits = w.flatMap st.code → decode .ndebug st encoded = .ok w) := by
  have hlen (s : UInt8) : (st.code s).length ≤ HuffmanCode.maxLength :=
    (hst s).length_bits.trans_le (hshort s)
  constructor
  · obtain ⟨r, hr⟩ := exists_parse_reference st.code symbols encoded.bits
    rw [← SymbolTable.lookup_eq_firstWith hpad] at hr
    rw [decode_eq_of_parse .ndebug hst hlen he hr]
    exact if_neg fun h => Build.noConfusion h.1
  · intro hfree w hw hbits
    exact decode_flatMap .ndebug hst hlen he
      (fun s hs => SymbolTable.minimal hfree (fun _ => id) (hpad s) (hw s hs)) hbits

theorem decode_eq_reference_tableAb :
    decode .ndebug .tableAb ⟨[64], 3, 8⟩ =
        .ok (SymbolTable.reference .tableAb (bits ⟨[64], 3, 8⟩)) ∧
      decode .ndebug .tableAb ⟨[64], 3, 8⟩ = .ok [97, 98, 97] := by
  obtain ⟨hparse, hcodes⟩ := decode_eq_reference
    (fun s => (SymbolTable.wellFormed_tableAb s).readable)
    (fun s => (SymbolTable.bitLength_tableAb_le s).trans (by decide))
    SymbolTable.zeroPadded_tableAb (show InBounds ⟨[64], 3, 8⟩ from ⟨by decide, by decide⟩)
  refine ⟨hparse, hcodes (fun s hs t _ => SymbolTable.eq_of_prefix_tableAb hs) _ ?_ rfl⟩
  simp [SymbolTable.code_tableAb]

end Decoder

end HafeCodec
