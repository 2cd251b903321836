import HafeCodec.Library.BitString
import HafeCodec.Table.SymbolTable

/-!
# The file format

A `Hafe` file is a magic number, sixteen reserved bytes, the symbol table preceded by its size in
bytes, and the bit stream preceded by its size in bits. Empty rows of the table are not stored. The
reader of the table turns on the exceptions of the stream and then reads entries until their number
of bytes is the size announced.

Input streams are the bytes left to read with the two flags on which `read` depends; output streams
are byte sequences whose writes succeed. The integers of the file are little endian.

## Main definitions

* `IStream`, `IStream.read`.
* `Hafe`, `Hafe.ofParts`, `Hafe.read`, `Hafe.write`.
* `Hafe.readNextEntry`, `Hafe.readEntries`, `Hafe.readSymbolTable`.
* `Hafe.calcSymbolTableDiskSize`, `Hafe.writeEntry`, `Hafe.writeSymbolTable`.
-/

open BitString

namespace HafeCodec

/-! ### Input streams -/

/-- A `std::istream`: the bytes left, whether exceptions are enabled, and whether a read failed. -/
structure IStream where
  rest : List UInt8
  exceptions : Bool
  fail : Bool
  deriving DecidableEq, Repr

namespace IStream

/-- A stream from which nothing has been read. -/
def ofBytes (bytes : List UInt8) (exceptions : Bool) : IStream :=
  { rest := bytes, exceptions := exceptions, fail := false }

/-- `is.read(..., n)`, which is `none` when the stream converts to `false` afterwards. -/
def read (is : IStream) (n : ℕ) : Outcome (Option (List UInt8) × IStream) :=
  if is.fail = false ∧ n ≤ is.rest.length then
    .ok (some (is.rest.take n), { is with rest := is.rest.drop n })
  else if is.exceptions then .error .iosFailure
  else .ok (none, { is with fail := true })

/-- Reading one byte into an integer. -/
def readByte (is : IStream) : Outcome (Option UInt8 × IStream) := do
  let (bytes, is) ← is.read 1
  return (bytes.map fun v => v.headD 0, is)

/-- `if (!is.read(..., n)) throw std::runtime_error{what}`. -/
def readOrThrow (is : IStream) (n : ℕ) (what : String) : Outcome (List UInt8 × IStream) := do
  match ← is.read n with
  | (some bytes, is) => return (bytes, is)
  | (none, _) => throw (.runtimeError what)

/-- `is.exceptions(ios_base::badbit | ios_base::failbit | ios_base::eofbit)`. -/
def enableExceptions (is : IStream) : Outcome IStream :=
  if is.fail then .error .iosFailure else .ok { is with exceptions := true }

end IStream

/-! ### Archives in memory -/

/-- The members of a `Hafe`. The sizes are kept as numbers. -/
structure Hafe where
  /-- `m_reserved`. -/
  reserved : List UInt8
  /-- `m_symbol_table_disk_bsize`. -/
  symbolTableDiskBsize : ℕ
  symbolTable : SymbolTable
  /-- `m_bitstream_bitsz`. -/
  bitstreamBitsz : ℕ
  bitStream : BitArray

namespace Hafe

/-- `"\x4d\x61\x6e\x75"`. -/
def magic : List UInt8 :=
  [0x4d, 0x61, 0x6e, 0x75]

/-- `calc_symbol_table_disk_size(const SymbolTable &st)`, in 32-bit arithmetic. -/
def calcSymbolTableDiskSize (st : SymbolTable) : ℕ :=
  symbols.foldl (fun bsize sym =>
    if (st sym).empty then bsize else (bsize + 1 + 1 + (st sym).effectiveByteSize) % 2 ^ 32) 0

/-- `Hafe(const SymbolTable &st, const BitStream &bit_stream)`. -/
def ofParts (st : SymbolTable) (bitStream : BitArray) : Hafe where
  reserved := List.replicate 16 0x1d
  symbolTableDiskBsize := calcSymbolTableDiskSize st
  symbolTable := st
  bitstreamBitsz := bitStream.bitLength
  bitStream := bitStream

/-! ### Reading -/

/-- `read_next_entry`: the number of bytes read, which is `0` on failure, and the table. -/
def readNextEntry (map : SymbolTable) (is : IStream) : Outcome (ℕ × SymbolTable × IStream) := do
  let (sym, is) ← is.readByte
  match sym with
  | none => return (0, map, is)
  | some sym => do
    let (bitLength, is) ← is.readByte
    match bitLength with
    | none => return (0, map, is)
    | some bitLength => do
      let byteLength := BitArray.bytesRequired bitLength.toNat
      if byteLength = 0 then
        throw (.runtimeError "refuse to create a symbol table entry with size 0")
      else do
        let (bitStream, is) ← is.read byteLength
        match bitStream with
        | none => return (0, map, is)
        | some bitStream => do
          let code ← BitArray.ofVector bitStream bitLength.toNat
          return (1 + 1 + byteLength, Function.update map sym code, is)

/-- The loop of `read_symbol_table`. -/
def readEntries (bsize : ℕ) : ℕ → ℕ → SymbolTable → IStream → Outcome (SymbolTable × IStream)
  | 0, byteRead, table, is => if byteRead = bsize then .ok (table, is) else .error .loopBound
  | fuel + 1, byteRead, table, is =>
    if byteRead = bsize then .ok (table, is)
    else do
      let (n, table, is) ← readNextEntry table is
      if u64 (byteRead + n) = 0 then throw (.runtimeError "ooops read symbol table entry")
      else readEntries bsize fuel (u64 (byteRead + n)) table is

/-- `read_symbol_table(std::istream &is, uint32_t symbol_table_bsize)`, whose loop makes at most
`fuel` rounds. -/
def readSymbolTable (fuel : ℕ) (is : IStream) (symbolTableBsize : ℕ) :
    Outcome (SymbolTable × IStream) := do
  let table ← SymbolTable.new
  let is ← is.enableExceptions
  readEntries symbolTableBsize fuel 0 table is

/-- The test of the magic number in `read`. -/
def readMagic (is : IStream) : Outcome IStream := do
  let (m, is) ← is.readOrThrow 4 "missing or invalid magic number"
  if m ≠ magic then throw (.runtimeError "missing or invalid magic number")
  else return is

/-- `read(std::istream &is)` with a bound on the rounds of the table loop. -/
def readBounded (fuel : ℕ) (is : IStream) : Outcome (Hafe × IStream) := do
  let is ← readMagic is
  let (reserved, is) ← is.readOrThrow 16 "missing reserved bytes"
  let (tableSize, is) ← is.readOrThrow 4 "missing symbol table length"
  let (symbolTable, is) ← readSymbolTable fuel is (fromLE tableSize)
  let (bitsz, is) ← is.readOrThrow 8 "missing bitstream size in bits"
  let (bitStream, is) ←
    is.readOrThrow (BitArray.bytesRequired (fromLE bitsz)) "incomplete bitstream"
  let bits ← BitArray.ofVector bitStream (fromLE bitsz)
  return (⟨reserved, fromLE tableSize, symbolTable, fromLE bitsz, bits⟩, is)

/-- `read(std::istream &is)`. Every round of the table loop takes bytes off the stream. -/
def read (is : IStream) : Outcome (Hafe × IStream) :=
  readBounded (is.rest.length + 1) is

/-! ### Writing -/

/-- `write((char *)code.bitstream(), code.effective_byte_size())`. -/
def writeBits (code : BitArray) : Outcome (List UInt8) :=
  if code.effectiveByteSize ≤ code.vct.length then .ok (code.vct.take code.effectiveByteSize)
  else .error .undefined

/-- `write_entry`. -/
def writeEntry (sym : UInt8) (huffmanCode : BitArray) : Outcome (List UInt8) := do
  let code ← writeBits huffmanCode
  return sym :: HuffmanCode.length8 huffmanCode :: code

/-- `write_symbol_table(std::ostream &os, const SymbolTable &st)`. -/
def writeSymbolTable (st : SymbolTable) : Outcome (List UInt8) := do
  let entries ← symbols.foldlM (fun os sym =>
    if (st sym).empty then .ok os else do
      let entry ← writeEntry sym (st sym)
      return os ++ entry) []
  return toLE 4 (calcSymbolTableDiskSize st) ++ entries

/-- `write(std::ostream &os)`. -/
def write (h : Hafe) : Outcome (List UInt8) := do
  let table ← writeSymbolTable h.symbolTable
  let bits ← writeBits h.bitStream
  return magic ++ h.reserved ++ table ++ toLE 8 h.bitstreamBitsz ++ bits

end Hafe

end HafeCodec
