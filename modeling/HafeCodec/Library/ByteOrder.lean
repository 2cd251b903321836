import HafeCodec.Library.BitString

/-!
# Byte orders

A machine keeps a number of `k` bytes in memory in its own byte order. To exchange numbers, a
program fixes an order and converts between that order and the order of the machine, which is to
swap the bytes or to do nothing. What is found in memory after the conversion is the number in the
order fixed, whatever the machine (`ByteOrder.toBytes_convert`), and conversely
(`ByteOrder.convert_fromBytes`).

## Main definitions

* `ByteOrder`, `ByteOrder.toBytes`, `ByteOrder.fromBytes`.
* `byteSwap`, `ByteOrder.convert`.

## Main results

* `ByteOrder.fromBytes_toBytes`.
* `ByteOrder.toBytes_convert`, `ByteOrder.convert_fromBytes`, `ByteOrder.convert_convert`.
-/

open BitString

/-- The order of the bytes of a number in memory. -/
inductive ByteOrder
  | little
  | big
  deriving DecidableEq, Repr

/-- The number with its `k` low bytes in reverse order. -/
def byteSwap (k n : ℕ) : ℕ :=
  fromLE (toLE k n).reverse

namespace ByteOrder

/-- The `k` low bytes of a number in memory. -/
def toBytes : ByteOrder → ℕ → ℕ → List UInt8
  | little, k, n => toLE k n
  | big, k, n => (toLE k n).reverse

/-- The number in memory. -/
def fromBytes : ByteOrder → List UInt8 → ℕ
  | little, v => fromLE v
  | big, v => fromLE v.reverse

/-- The conversion of a number of `k` bytes between the order of the machine and another one. -/
def convert (host order : ByteOrder) (k n : ℕ) : ℕ :=
  if host = order then n else byteSwap k n

variable {host order : ByteOrder} {k n : ℕ} {v : List UInt8}

@[simp] theorem toBytes_little (k n : ℕ) : little.toBytes k n = toLE k n :=
  rfl

@[simp] theorem fromBytes_little (v : List UInt8) : little.fromBytes v = fromLE v :=
  rfl

theorem fromBytes_lt (o : ByteOrder) (v : List UInt8) : o.fromBytes v < 256 ^ v.length := by
  cases o with
  | little => exact fromLE_lt v
  | big =>
    have hlt := fromLE_lt v.reverse
    rwa [List.length_reverse] at hlt

theorem toLE_byteSwap (k n : ℕ) : toLE k (byteSwap k n) = (toLE k n).reverse := by
  have h := toLE_fromLE (toLE k n).reverse
  rwa [List.length_reverse, length_toLE] at h

/-- **A number converted is in memory in the order fixed.** -/
theorem toBytes_convert (host order : ByteOrder) (k n : ℕ) :
    host.toBytes k (host.convert order k n) = order.toBytes k n := by
  cases host <;> cases order <;> simp [toBytes, convert, toLE_byteSwap]

/-- **A number in memory, converted, is the number in the order fixed.** -/
theorem convert_fromBytes (host order : ByteOrder) (v : List UInt8) :
    host.convert order v.length (host.fromBytes v) = order.fromBytes v := by
  have h := toLE_fromLE v
  have h' := toLE_fromLE v.reverse
  rw [List.length_reverse] at h'
  cases host <;> cases order <;> simp [fromBytes, convert, byteSwap, h, h']

/-- Converting twice changes nothing. -/
theorem convert_convert (host order : ByteOrder) (h : n < 256 ^ k) :
    host.convert order k (host.convert order k n) = n := by
  rw [convert, convert]
  split_ifs
  · rfl
  · rw [byteSwap, toLE_byteSwap, List.reverse_reverse, fromLE_toLE h]

/-- What a machine finds in memory is what it has for the number in the order fixed. -/
theorem fromBytes_eq_convert (host order : ByteOrder) (h : v.length = k) :
    host.fromBytes v = host.convert order k (order.fromBytes v) := by
  subst h
  rw [← convert_fromBytes host order v, convert_convert host order (fromBytes_lt host v)]

end ByteOrder
