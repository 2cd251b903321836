import HafeCodec.BitArray.Byte
import HafeCodec.Machine

/-!
# The bit array

A `BitArray` is a vector of bytes with the index of the next bit to write and a capacity in bits.
The operations are those of the source, with every access to the vector checked: an access that
the source makes outside of `m_vct` is `Fault.undefined` here. The assertions of the class are left
out, as in the build with `NDEBUG`: those on an index, on an array that must not be empty, on two
operands that must be distinct, and on the argument of `bytes_required`, which must not be zero.

## Main definitions

* `BitArray`, `BitArray.ofLength`, `BitArray.ofPointer`, `BitArray.ofVector`.
* `BitArray.get`, `BitArray.put`, `BitArray.pushBack`, `BitArray.popBack`, `BitArray.clear`.
* `BitArray.back`, `BitArray.str`.
* `BitArray.copyAssign`, `BitArray.copy`, `BitArray.append`, `BitArray.equal`.
-/

namespace HafeCodec

/-- A vector of bytes used as an array of bits. -/
structure BitArray where
  /-- `m_vct`, the memory block. -/
  vct : List BitArray8
  /-- `m_bit_idx`, the index where the next bit is inserted. -/
  bitIdx : ℕ
  /-- `m_bit_capacity`. -/
  bitCapacity : ℕ
  deriving DecidableEq, Repr

namespace BitArray

/-- `ceil_div8(bits)`, that is `(bits + 7) >> 3` in 64-bit arithmetic. -/
def bytesRequired (bits : ℕ) : ℕ :=
  u64 (bits + 7) >>> 3

/-- `BitArray(uint64_t bit_length)`. The members are initialised before the length is tested. -/
def ofLength (bitLength : ℕ) : Outcome BitArray :=
  if bitLength = 0 then
    .error (.runtimeError
      "object creation will be result in bits(0) capacity which is not allowed")
  else .ok
    { vct := List.replicate (bytesRequired bitLength) 0
      bitIdx := 0
      bitCapacity := u64 (bytesRequired bitLength * 8) }

/-- `BitArray(BitArray8 *vct, uint64_t byte_length, uint64_t bit_length)`. -/
def ofPointer (vct : List BitArray8) (byteLength bitLength : ℕ) : Outcome BitArray :=
  if byteLength < bytesRequired bitLength then .error (.runtimeError "wait... what?")
  else if bytesRequired bitLength = 0 then
    .error (.runtimeError
      "object creation will be result in bits(0) capacity which is not allowed")
  else do
    let block ← memcpy (List.replicate (bytesRequired bitLength) 0) 0 vct (bytesRequired bitLength)
    return { vct := block, bitIdx := bitLength, bitCapacity := u64 (bytesRequired bitLength <<< 3) }

/-- `BitArray(std::vector<BitArray8> &&moveable_vector, uint64_t bit_length)`. -/
def ofVector (moveableVector : List BitArray8) (bitLength : ℕ) : Outcome BitArray :=
  if moveableVector.length = 0 then
    .error (.runtimeError
      "object creation could be result in bits(0) capacity which is not allowed")
  else if moveableVector.length < bytesRequired bitLength then
    .error (.runtimeError "internal error")
  else .ok
    { vct := moveableVector
      bitIdx := bitLength
      bitCapacity := u64 (moveableVector.length <<< 3) }

/-- `clear()`. -/
def clear (_ : BitArray) : BitArray :=
  { vct := resize [] 1 0, bitIdx := 0, bitCapacity := u64 (bytesRequired 1 * 8) }

variable (a o : BitArray)

def bitLength : ℕ :=
  a.bitIdx

def empty : Bool :=
  a.bitIdx == 0

/-- The number of bytes up to the one that stores the last bit. -/
def effectiveByteSize : ℕ :=
  if a.bitLength = 0 then 0 else bytesRequired a.bitLength

def lastElementByteIdx : ℕ :=
  a.effectiveByteSize - if a.effectiveByteSize ≠ 0 then 1 else 0

def lastBitIdx : ℕ :=
  a.bitIdx - if a.bitIdx ≠ 0 then 1 else 0

def hasPaddingBits : Bool :=
  a.bitIdx % 8 != 0

def paddingBits : ℕ :=
  if a.hasPaddingBits then 8 - a.bitIdx % 8 else 0

/-- `operator[](uint64_t i)`. -/
def get (i : ℕ) : Outcome Bool := do
  let byte ← load a.vct (i / 8)
  return byte.get (i % 8)

/-- `back()`. -/
def back : Outcome Bool :=
  a.get a.lastBitIdx

/-- `str()`, the characters `0` and `1` of the bits. -/
def str : Outcome (List UInt8) :=
  (List.range a.bitLength).foldlM (fun oss i => do
    let bit ← a.get i
    return oss ++ [UInt8.ofNat (bit.toNat + 48)]) []

/-- `operator()(uint64_t i, bool value)`, which does not look at the capacity. -/
def put (i : ℕ) (value : Bool) : Outcome BitArray := do
  let byte ← load a.vct (i / 8)
  let vct ← store a.vct (i / 8) (byte.assign (i % 8) value)
  return { a with vct := vct }

/-- A new byte is attached when the last free bit is about to be used. -/
def grow : BitArray :=
  if u64Pred a.bitCapacity ≤ a.bitIdx then
    { a with vct := a.vct ++ [0], bitCapacity := u64 ((a.vct.length + 1) <<< 3) }
  else a

/-- `push_back(bool value)`. -/
def pushBack (value : Bool) : Outcome BitArray := do
  let a' ← a.grow.put a.bitIdx value
  return { a' with bitIdx := u64 (a.bitIdx + 1) }

/-- `pop_back()`. -/
def popBack : BitArray :=
  { a with bitIdx := u64Pred a.bitIdx }

/-- `bit_length(uint64_t bit_length)`, the setter. -/
def setBitLength (bitLength : ℕ) : BitArray :=
  { a with bitIdx := bitLength }

/-- `back_byte()`. -/
def backByte : Outcome BitArray8 :=
  load a.vct a.lastElementByteIdx

/-- `back_byte_without_padding()`. -/
def backByteWithoutPadding : Outcome UInt8 := do
  let back ← a.backByte
  return if a.hasPaddingBits then back.takeFew (8 - a.paddingBits) else back

/-- `operator=(const BitArray &o)`. -/
def copyAssign : Outcome BitArray := do
  let vct ← memcpy (resize a.vct o.vct.length 0) 0 o.vct o.effectiveByteSize
  return { vct := vct, bitIdx := o.bitIdx, bitCapacity := o.bitCapacity }

/-- `BitArray(const BitArray &o)`. -/
def copy : Outcome BitArray :=
  copyAssign { vct := [], bitIdx := 0, bitCapacity := 0 } o

/-- `operator+=(const BitArray &o)`, for `o` distinct from the array itself. The block copy
compares a capacity in bits with a size in bytes. -/
def append : Outcome BitArray :=
  if o.bitLength = 0 then .ok a
  else if a.hasPaddingBits = false then do
    let sz := a.effectiveByteSize
    let oSz := o.effectiveByteSize
    let block := if a.bitCapacity < sz + oSz then resize a.vct (sz + oSz) 0 else a.vct
    let vct ← memcpy block sz o.vct oSz
    return { vct := vct, bitIdx := u64 (a.bitIdx + o.bitIdx), bitCapacity := u64 (8 * vct.length) }
  else
    (List.range o.bitLength).foldlM (fun a i => do a.pushBack (← o.get i)) a

/-- `operator==(const BitArray &o)`. When the last bytes differ the answer is whether the arrays
are nonempty. -/
def equal : Outcome Bool :=
  if a.bitLength ≠ o.bitLength then .ok false
  else do
    let back ← a.backByteWithoutPadding
    let oBack ← o.backByteWithoutPadding
    if back ≠ oBack then return a.bitLength != 0
    else if a.effectiveByteSize ≤ 1 then return true
    else memcmp a.vct o.vct (a.effectiveByteSize - 1)

end BitArray

/-- `HuffmanCode`, a bit array meant to hold one codeword. -/
abbrev HuffmanCode : Type :=
  BitArray

namespace HuffmanCode

/-- `MAX_LENGTH`. -/
def maxLength : ℕ :=
  255

/-- The length in eight bits, as `uint_fast8_t` or `uint8_t`. -/
def length8 (code : HuffmanCode) : UInt8 :=
  UInt8.ofNat code.bitLength

theorem toNat_length8 {code : HuffmanCode} (h : code.bitLength ≤ maxLength) :
    code.length8.toNat = code.bitLength := by
  rw [length8, UInt8.toNat_ofNat', Nat.mod_eq_of_lt (by rw [maxLength] at h; omega)]

/-- `HuffmanCode()`. -/
def new : Outcome HuffmanCode :=
  BitArray.ofLength maxLength

end HuffmanCode

end HafeCodec
