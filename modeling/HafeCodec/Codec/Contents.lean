import HafeCodec.Codec.Compression
import HafeCodec.Format.Canonical

/-!
# What decompression depends on

Decompression depends on the codewords of the table, on whether their padding is zero, and on the
bits of the bit stream. Nothing else of a file matters: not the reserved bytes, not the order of the
entries or those hidden by later ones, not the bits behind the bit stream and not the bytes behind
the file (`decompress_congr`). In particular a file and its normal form are decompressed alike.

## Main results

* `decompress_congr`, `decompress_sorted`.
-/

open ShortestMatch

namespace HafeCodec

variable {a a' : Archive}

/-- The lookup depends on the codewords and on whether their padding is zero. -/
theorem Archive.lookup_eq
    (hcode : ∀ s, a'.symbolTable.code s = a.symbolTable.code s)
    (hz : ∀ s, (a'.symbolTable s).ZeroPadded ↔ (a.symbolTable s).ZeroPadded) :
    a'.symbolTable.lookup = a.symbolTable.lookup := by
  refine funext fun l => SymbolTable.lookup_congr fun s => ?_
  rw [hcode, hz]

/-- Decompression depends on the lookup and on the bits of the bit stream. -/
theorem Archive.decompress_eq_of_lookup (hlookup : a'.symbolTable.lookup = a.symbolTable.lookup)
    (hbits : a'.bitStream.bits = a.bitStream.bits) (build : Build) (exceptions exceptions' : Bool)
    (rest rest' : List UInt8) :
    decompress build exceptions' (a'.bytes ++ rest') =
      decompress build exceptions (a.bytes ++ rest) := by
  rw [a.decompress_eq_decode, a'.decompress_eq_decode]
  exact Decoder.decode_congr build (fun s => (a.wellFormed_symbolTable s).readable)
    (fun s => (a'.wellFormed_symbolTable s).readable) a.length_code_le a'.length_code_le
    a.wellFormed_bitStream.readable.inBounds a'.wellFormed_bitStream.readable.inBounds hlookup hbits

/-- **What decompression depends on.** Two files whose tables have the same codewords, padded with
zeros for the same symbols, and whose bit streams have the same bits are decompressed with the same
outcome, whatever follows them. -/
theorem decompress_congr (hcode : ∀ s, a'.symbolTable.code s = a.symbolTable.code s)
    (hz : ∀ s, (a'.symbolTable s).ZeroPadded ↔ (a.symbolTable s).ZeroPadded)
    (hbits : a'.bitStream.bits = a.bitStream.bits) (build : Build) (exceptions exceptions' : Bool)
    (rest rest' : List UInt8) :
    decompress build exceptions' (a'.bytes ++ rest') =
      decompress build exceptions (a.bytes ++ rest) :=
  Archive.decompress_eq_of_lookup (Archive.lookup_eq hcode hz) hbits build exceptions exceptions'
    rest rest'

/-- The file of the letter `a` with other reserved bytes. -/
def Archive.fileA' : Archive :=
  { Archive.fileA 0 with
    reserved := List.replicate 16 0
    length_reserved := List.length_replicate }

theorem decompress_congr_fileA :
    decompress .debug true (Archive.fileA'.bytes ++ [1, 2]) =
      decompress .debug false ((Archive.fileA 0).bytes ++ []) :=
  decompress_congr (fun _ => rfl) (fun _ => Iff.rfl) rfl .debug false true [] [1, 2]

/-- **A file and its normal form** are decompressed alike. -/
theorem decompress_sorted (a : Archive) (build : Build) (exceptions : Bool)
    (rest : List UInt8) : decompress build exceptions (a.sorted.bytes ++ rest) =
      decompress build exceptions (a.bytes ++ rest) := by
  have hlookup := congrArg SymbolTable.lookup a.symbolTable_sorted
  exact Archive.decompress_eq_of_lookup hlookup rfl build exceptions exceptions rest rest

end HafeCodec
