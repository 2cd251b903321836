import HafeCodec.Codec.Decoder
import HafeCodec.Codec.Encoder
import HafeCodec.Format.Writer

/-!
# Compression and decompression

A string is compressed by encoding it with the table built from it and writing the table and the
bits; it is decompressed by reading them and decoding the bits with the table read. A file keeps the
codewords of a table together with the zeros that pad them, so the lookup of the table read is that
of the table written (`SymbolTable.lookup_stored`), and decompression gives back the string
(`decompress_compress`).

## Main definitions

* `Encoder.hafe`, `Decoder.ofHafe`.
* `compress`, `decompress`.

## Main results

* `Encoder.exists_new`: the encoder on a string.
* `Encoder.Encoded.storable_hafe`: what it makes can be written.
* `decompress_compress`.
-/

open ShortestMatch

namespace HafeCodec

/-- `hafe()`. -/
def Encoder.hafe (e : Encoder) : Hafe :=
  Hafe.ofParts e.symbolTable e.bitstream

/-- `Decoder(const Hafe &to_decode)`. -/
def Decoder.ofHafe (build : Build) (toDecode : Hafe) : Outcome Decoder :=
  Decoder.new build toDecode.symbolTable toDecode.bitStream

/-- The bytes written for a string. -/
def compress (Q : PriorityQueue) (past : UInt32) (str : List UInt8) : Outcome (List UInt8) := do
  let encoder ← Encoder.new Q past str
  encoder.hafe.write

/-- The string decoded from a file. The flag says whether the exceptions of the stream are enabled
beforehand. -/
def decompress (build : Build) (exceptions : Bool) (bytes : List UInt8) :
    Outcome (List UInt8) := do
  let (hafe, _) ← Hafe.read (IStream.ofBytes bytes exceptions)
  let decoder ← Decoder.ofHafe build hafe
  return decoder.str

/-- **The lookup of a table that was stored** is the lookup of the table when all codewords are
padded with zeros. -/
theorem SymbolTable.lookup_stored {st : SymbolTable} (hst : ∀ s, (st s).Readable)
    (hz : ∀ s, (st s).ZeroPadded) : st.stored.lookup = st.lookup := by
  refine funext fun l => lookup_congr fun s => ?_
  rw [code_stored (hst s)]
  exact and_congr_right fun _ => iff_of_true (zeroPadded_stored (hst s) (hz s)) (hz s)

namespace Encoder

/-- What the encoder has made of a string. -/
structure Encoded (str : List UInt8) (e : Encoder) : Prop where
  readable : ∀ s, (e.symbolTable s).Readable
  zeroPadded : ∀ s, (e.symbolTable s).ZeroPadded
  bitLength_le : ∀ s, (e.symbolTable s).bitLength ≤ 255
  wellFormed : e.bitstream.WellFormed
  bitLength_pos : 0 < e.bitstream.bitLength
  decode_eq : ∀ build, Decoder.decode build e.symbolTable e.bitstream = .ok str

variable {str : List UInt8}

/-- **The encoder on a string.** -/
theorem exists_new (Q : PriorityQueue) (past : UInt32) (hpos : 1 ≤ str.length)
    (hlt : str.length ≤ 2 ^ 32 - 2) : ∃ e, new Q past str = .ok e ∧ Encoded str e := by
  obtain ⟨h, tree, st, hh, htree, hst, hc, hne, hcount⟩ := exists_table Q past hpos hlt
  have hread (s : UInt8) : (st s).Readable := hc.readable hne htree s
  have hlen (s : UInt8) : (st s).bitLength ≤ 255 := (hc.bitLength_le hne htree s).trans (by decide)
  have htotal := sum_bitLength_le hc hne htree hcount
  have hu : u64 (str.length * 8) = str.length * 8 := u64_of_lt (by omega)
  have h0 : u64 (str.length * 8) ≠ 0 := by omega
  obtain ⟨bits, he, hholds, hsize⟩ := exists_encodeFast hread hlen h0 (by omega)
  have hwf : bits.WellFormed := hholds.wellFormed (by omega)
  have hoccurs (s : UInt8) (hs : s ∈ str) : h.frequency s ≠ 0 := frequency_ne_zero hcount hs
  refine ⟨⟨h, st, bits, str.length⟩, ?_, hread, fun s => ?_, hlen, hwf, ?_, fun build => ?_⟩
  · rw [new, hh, ExceptFold.ok_bind, htree, ExceptFold.ok_bind, hst, ExceptFold.ok_bind, he]
    rfl
  · exact (hc.clean s).zeroPadded (by
      rw [hc.clean.length_code]
      exact (Nat.add_le_add_right (hlen s) 7).trans_lt (by decide))
  · -- The first byte of the string has a codeword.
    obtain ⟨s, hs⟩ := List.exists_mem_of_length_pos hpos
    have hcode := (hc.code_ne_nil_iff hne htree s).mpr (hoccurs s hs)
    change 0 < bits.bitIdx
    rw [hholds.bitIdx_eq, List.length_pos_iff]
    exact fun hnil => hcode (List.flatMap_eq_nil_iff.mp hnil s hs)
  · rw [hc.decode_eq hne htree build hwf hholds.bits_eq]
    exact congrArg Except.ok
      (List.filter_eq_self.mpr fun s hs => decide_eq_true (hoccurs s hs))

theorem Encoded.storable_hafe {e : Encoder} (he : Encoded str e) : Hafe.Storable e.hafe :=
  ⟨List.length_replicate, he.readable, he.bitLength_le, he.wellFormed.readable, rfl,
    he.bitLength_pos⟩

end Encoder

/-- **Decompression inverts compression.** A string of at least one and at most `2^32 - 2` bytes is
compressed without an exception, and the bytes written are decompressed to the string, in both
builds and whatever the priority queue does with nodes of equal frequency. -/
theorem decompress_compress (Q : PriorityQueue) (past : UInt32) (build : Build) (exceptions : Bool)
    {str : List UInt8} (hpos : 1 ≤ str.length) (hlt : str.length ≤ 2 ^ 32 - 2) :
    ∃ bytes, compress Q past str = .ok bytes ∧ decompress build exceptions bytes = .ok str := by
  obtain ⟨e, hnew, he⟩ := Encoder.exists_new Q past hpos hlt
  obtain ⟨a, hw, -, -, -, htable, hlen, hbytes⟩ := he.storable_hafe.exists_write
  have hlookup : a.symbolTable.lookup = e.symbolTable.lookup := by
    rw [htable]
    exact SymbolTable.lookup_stored he.readable he.zeroPadded
  have hbits : a.bitStream.bits = e.bitstream.bits := by
    rw [a.bits_bitStream, hlen, hbytes]
    exact he.wellFormed.readable.take_unpack_effectiveBytes
  have hdecode : Decoder.decode build a.symbolTable a.bitStream = .ok str := by
    rw [← he.decode_eq build]
    exact Decoder.decode_congr build he.readable (fun s => (a.wellFormed_symbolTable s).readable)
      (fun s => (he.readable s).length_bits.trans_le (he.bitLength_le s)) a.length_code_le
      he.wellFormed.readable.inBounds a.wellFormed_bitStream.readable.inBounds hlookup hbits
  have hread := Hafe.read_bytes a [] exceptions
  rw [List.append_nil] at hread
  refine ⟨a.bytes, by rw [compress, hnew, ExceptFold.ok_bind, hw], ?_⟩
  rw [decompress, hread, ExceptFold.ok_bind]
  change (Decoder.new build a.symbolTable a.bitStream >>= fun d => pure d.str) = _
  rw [Decoder.new, hdecode]
  rfl

theorem decompress_compress_aab :
    ∃ bytes, compress (MinQueue.sortedList _) 0 [97, 97, 98] = .ok bytes ∧
      decompress .debug false bytes = .ok [97, 97, 98] :=
  decompress_compress (MinQueue.sortedList _) 0 .debug false (by decide) (by decide)

end HafeCodec
