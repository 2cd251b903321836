import HafeCodec.Format.Entries

/-!
# The grammar of the file format

An `Archive` is a file as the format describes it: reserved bytes, a table of entries, and a bit
stream of at least one bit, with the conditions of the format as fields. The reader refines this
grammar: it succeeds exactly on the streams that begin with the bytes of an archive, returns its
contents, and leaves what follows (`Hafe.read_eq_ok_iff`).

## Main definitions

* `Archive`, `Archive.bytes`, `Archive.toHafe`.

## Main results

* `Hafe.read_eq_ok_iff`: the reader accepts the grammar.
* `Hafe.readBounded_eq_read`, `Hafe.fault_of_read`: the reader terminates, by returning or by an
  exception.
* `Archive.wellFormed_symbolTable`, `Archive.wellFormed_bitStream`: what is read is well formed.
-/

open BitString

namespace HafeCodec

open IStream

/-- A codeword that has no bits, as the table has for the symbols without an entry. -/
def HuffmanCode.blank : HuffmanCode :=
  ⟨List.replicate 32 0, 0, 256⟩

/-- A file as the format describes it. -/
structure Archive where
  reserved : List UInt8
  tableSize : ℕ
  entries : List Entry
  bitLength : ℕ
  bitBytes : List UInt8
  length_reserved : reserved.length = 16
  tableSize_lt : tableSize < 2 ^ 32
  counts : Counts tableSize 0 entries
  bitLength_pos : 0 < bitLength
  bitLength_lt : bitLength + 7 < 2 ^ 64
  length_bitBytes : bitBytes.length = (bitLength + 7) / 8

namespace Archive

variable (a : Archive)

/-- The bytes of a file. -/
def bytes : List UInt8 :=
  Hafe.magic ++ (a.reserved ++ (toLE 4 a.tableSize ++ (entryBytes a.entries ++
    (toLE 8 a.bitLength ++ a.bitBytes))))

/-- The table in memory. -/
def symbolTable : SymbolTable :=
  insertAll (fun _ => HuffmanCode.blank) a.entries

/-- The bit stream in memory. -/
def bitStream : BitArray :=
  ⟨a.bitBytes, a.bitLength, 8 * a.bitBytes.length⟩

/-- The contents in memory. -/
def toHafe : Hafe :=
  ⟨a.reserved, a.tableSize, a.symbolTable, a.bitLength, a.bitStream⟩

theorem wellFormed_bitStream : a.bitStream.WellFormed where
  capacity_eq := rfl
  capacity_lt := by
    have := a.length_bitBytes
    have := a.bitLength_lt
    change 8 * a.bitBytes.length < 2 ^ 64
    omega
  length_le := by
    have := a.length_bitBytes
    change a.bitLength ≤ 8 * a.bitBytes.length
    omega

/-- The vector constructor builds the bit stream. -/
theorem ofVector_eq : BitArray.ofVector a.bitBytes a.bitLength = .ok a.bitStream := by
  have hpos := a.bitLength_pos
  have hlen := a.length_bitBytes
  have hwf := a.wellFormed_bitStream
  exact BitArray.ofVector_eq_ok (by omega) a.bitLength_lt hwf.length_le hwf.capacity_lt

end Archive

/-- The vector constructor accepts the lengths of the format only. -/
theorem BitArray.length_of_ofVector {v : List UInt8} {n : ℕ} {a : BitArray} (hn : n < 2 ^ 64)
    (hv : v.length = bytesRequired n) (h : ofVector v n = .ok a) : 0 < n ∧ n + 7 < 2 ^ 64 := by
  have hne : v.length ≠ 0 := by
    intro h0
    rw [ofVector, if_pos h0] at h
    cases h
  rw [hv] at hne
  exact (bytesRequired_ne_zero_iff hn).mp hne

namespace Hafe

variable {l : List UInt8} {x : Bool} {fuel : ℕ} {h : Hafe} {is' : IStream}

theorem readMagic_eq_ok_iff :
    readMagic (ofBytes l x) = .ok is' ↔ ∃ w, l = magic ++ w ∧ is' = ofBytes w x := by
  constructor
  · intro hr
    obtain ⟨⟨m, is₁⟩, h₁, hr⟩ := ExceptFold.bind_eq_ok_iff.mp hr
    obtain ⟨w, rfl, -, rfl⟩ := readOrThrow_eq_ok_iff.mp h₁
    dsimp only at hr
    by_cases hm : m = magic
    · rw [if_neg (not_not.mpr hm)] at hr
      exact ⟨w, by rw [hm], (Except.ok.inj hr).symm⟩
    · rw [if_pos hm] at hr
      cases hr
  · rintro ⟨w, rfl, rfl⟩
    exact ExceptFold.bind_eq_ok_iff.mpr ⟨_, readOrThrow_eq_ok_iff.mpr ⟨w, rfl, rfl, rfl⟩, rfl⟩

theorem readSymbolTable_eq (l : List UInt8) (x : Bool) (bsize : ℕ) :
    readSymbolTable fuel (ofBytes l x) bsize =
      readEntries bsize fuel 0 (fun _ => HuffmanCode.blank) (ofBytes l true) :=
  rfl

/-- What the reader with enough rounds returns is the contents of an archive. -/
theorem exists_archive_of_readBounded (hfuel : l.length < fuel)
    (hr : readBounded fuel (ofBytes l x) = .ok (h, is')) :
    ∃ (a : Archive) (w : List UInt8), l = a.bytes ++ w ∧ h = a.toHafe ∧ is' = ofBytes w true := by
  obtain ⟨is₁, h₁, hr⟩ := ExceptFold.bind_eq_ok_iff.mp hr
  obtain ⟨l₁, rfl, rfl⟩ := readMagic_eq_ok_iff.mp h₁
  obtain ⟨⟨reserved, is₂⟩, h₂, hr⟩ := ExceptFold.bind_eq_ok_iff.mp hr
  obtain ⟨l₂, rfl, hreserved, rfl⟩ := readOrThrow_eq_ok_iff.mp h₂
  obtain ⟨⟨tableSize, is₃⟩, h₃, hr⟩ := ExceptFold.bind_eq_ok_iff.mp hr
  obtain ⟨l₃, rfl, htableSize, rfl⟩ := readOrThrow_eq_ok_iff.mp h₃
  obtain ⟨⟨table, is₄⟩, h₄, hr⟩ := ExceptFold.bind_eq_ok_iff.mp hr
  have hshort : l₃.length < fuel := by
    simp only [List.length_append] at hfuel
    omega
  rw [readSymbolTable_eq] at h₄
  obtain ⟨es, l₄, rfl, hcounts, rfl, rfl⟩ := (readEntries_eq_ok_iff hshort).mp h₄
  obtain ⟨⟨bitsz, is₅⟩, h₅, hr⟩ := ExceptFold.bind_eq_ok_iff.mp hr
  obtain ⟨l₅, rfl, hbitsz, rfl⟩ := readOrThrow_eq_ok_iff.mp h₅
  obtain ⟨⟨bitBytes, is₆⟩, h₆, hr⟩ := ExceptFold.bind_eq_ok_iff.mp hr
  obtain ⟨l₆, rfl, hbitBytes, rfl⟩ := readOrThrow_eq_ok_iff.mp h₆
  obtain ⟨bits, h₇, hr⟩ := ExceptFold.bind_eq_ok_iff.mp hr
  have htable := fromLE_lt tableSize
  have hbits := fromLE_lt bitsz
  rw [htableSize] at htable
  rw [hbitsz] at hbits
  obtain ⟨hpos, hlt⟩ := BitArray.length_of_ofVector hbits hbitBytes h₇
  rw [BitArray.bytesRequired_eq hlt] at hbitBytes
  let a : Archive := ⟨reserved, fromLE tableSize, es, fromLE bitsz, bitBytes, hreserved, htable,
    hcounts, hpos, hlt, hbitBytes⟩
  obtain ⟨rfl, rfl⟩ := Prod.mk.inj (Except.ok.inj hr)
  refine ⟨a, l₆, ?_, ?_, rfl⟩
  · have htoLE : toLE 4 (fromLE tableSize) = tableSize := htableSize ▸ toLE_fromLE tableSize
    have htoLE' : toLE 8 (fromLE bitsz) = bitsz := hbitsz ▸ toLE_fromLE bitsz
    simp only [a, Archive.bytes, htoLE, htoLE', List.append_assoc]
  · have hbitStream := a.ofVector_eq
    obtain rfl := Except.ok.inj (hbitStream.symm.trans h₇)
    rfl

/-- The reader with enough rounds returns the contents of an archive. -/
theorem readBounded_bytes {a : Archive} {w : List UInt8} (hfuel : (a.bytes ++ w).length < fuel) :
    readBounded fuel (ofBytes (a.bytes ++ w) x) = .ok (a.toHafe, ofBytes w true) := by
  have htable : fromLE (toLE 4 a.tableSize) = a.tableSize := fromLE_toLE a.tableSize_lt
  have hbits : fromLE (toLE 8 a.bitLength) = a.bitLength :=
    fromLE_toLE (by have := a.bitLength_lt; omega)
  simp only [Archive.bytes, List.append_assoc] at hfuel ⊢
  have hshort : (entryBytes a.entries ++ (toLE 8 a.bitLength ++ (a.bitBytes ++ w))).length <
      fuel := by
    simp only [List.length_append] at hfuel ⊢
    omega
  refine ExceptFold.bind_eq_ok_iff.mpr ⟨_, readMagic_eq_ok_iff.mpr ⟨_, rfl, rfl⟩, ?_⟩
  refine ExceptFold.bind_eq_ok_iff.mpr
    ⟨_, readOrThrow_eq_ok_iff.mpr ⟨_, rfl, a.length_reserved, rfl⟩, ?_⟩
  refine ExceptFold.bind_eq_ok_iff.mpr
    ⟨_, readOrThrow_eq_ok_iff.mpr ⟨_, rfl, length_toLE 4 _, rfl⟩, ?_⟩
  refine ExceptFold.bind_eq_ok_iff.mpr
    ⟨_, (readSymbolTable_eq _ _ _).trans ((readEntries_eq_ok_iff hshort).mpr
      ⟨a.entries, _, rfl, by rw [htable]; exact a.counts, rfl, rfl⟩), ?_⟩
  refine ExceptFold.bind_eq_ok_iff.mpr
    ⟨_, readOrThrow_eq_ok_iff.mpr ⟨_, rfl, length_toLE 8 _, rfl⟩, ?_⟩
  refine ExceptFold.bind_eq_ok_iff.mpr
    ⟨_, readOrThrow_eq_ok_iff.mpr ⟨_, rfl, ?_, rfl⟩, ?_⟩
  · rw [hbits, BitArray.bytesRequired_eq a.bitLength_lt, a.length_bitBytes]
  · rw [hbits, htable]
    exact ExceptFold.bind_eq_ok_iff.mpr ⟨_, a.ofVector_eq, rfl⟩

/-- The reader with enough rounds accepts the grammar. -/
theorem readBounded_eq_ok_iff (hfuel : l.length < fuel) :
    readBounded fuel (ofBytes l x) = .ok (h, is') ↔
      ∃ (a : Archive) (w : List UInt8), l = a.bytes ++ w ∧ h = a.toHafe ∧
        is' = ofBytes w true := by
  refine ⟨exists_archive_of_readBounded hfuel, ?_⟩
  rintro ⟨a, w, rfl, rfl, rfl⟩
  exact readBounded_bytes hfuel

/-- **The reader accepts the grammar**, returns the contents of the archive, and leaves what follows
it on the stream. -/
theorem read_eq_ok_iff :
    read (ofBytes l x) = .ok (h, is') ↔
      ∃ (a : Archive) (w : List UInt8), l = a.bytes ++ w ∧ h = a.toHafe ∧
        is' = ofBytes w true :=
  readBounded_eq_ok_iff (Nat.lt_succ_self l.length)

theorem read_bytes (a : Archive) (w : List UInt8) (x : Bool) :
    read (ofBytes (a.bytes ++ w) x) = .ok (a.toHafe, ofBytes w true) :=
  read_eq_ok_iff.mpr ⟨a, w, rfl, rfl, rfl⟩

/-- What a read does on the bytes left over by an earlier one. -/
private theorem length_readOrThrow {n : ℕ} {what : String} {v : List UInt8} {is₁ : IStream}
    (h₁ : (ofBytes l x).readOrThrow n what = .ok (v, is₁)) :
    ∃ w, is₁ = ofBytes w x ∧ w.length ≤ l.length := by
  obtain ⟨w, rfl, -, rfl⟩ := readOrThrow_eq_ok_iff.mp h₁
  exact ⟨w, rfl, by rw [List.length_append]; exact Nat.le_add_left _ _⟩

/-- **A reader that fails throws.** -/
theorem fault_of_readBounded (hfuel : l.length < fuel) {f : Fault}
    (hr : readBounded fuel (ofBytes l x) = .error f) : f.IsException := by
  have hthrow {l : List UInt8} {x : Bool} {n : ℕ} {what : String} {f : Fault}
      (h : (ofBytes l x).readOrThrow n what = .error f) : f.IsException :=
    (fault_of_readOrThrow h).imp_right fun h => ⟨what, h⟩
  rcases ExceptFold.bind_eq_error_iff.mp hr with h₁ | ⟨is₁, h₁, hr⟩
  · rcases ExceptFold.bind_eq_error_iff.mp h₁ with h₁ | ⟨⟨m, is₁⟩, -, h₁⟩
    · exact hthrow h₁
    · dsimp only at h₁
      split_ifs at h₁
      · exact Or.inr ⟨_, (Except.error.inj h₁).symm⟩
      · cases h₁
  obtain ⟨l₁, rfl, rfl⟩ := readMagic_eq_ok_iff.mp h₁
  rcases ExceptFold.bind_eq_error_iff.mp hr with h₂ | ⟨⟨reserved, is₂⟩, h₂, hr⟩
  · exact hthrow h₂
  obtain ⟨l₂, rfl, hle₂⟩ := length_readOrThrow h₂
  rcases ExceptFold.bind_eq_error_iff.mp hr with h₃ | ⟨⟨tableSize, is₃⟩, h₃, hr⟩
  · exact hthrow h₃
  obtain ⟨l₃, rfl, hle₃⟩ := length_readOrThrow h₃
  have hshort : l₃.length < fuel := by
    rw [List.length_append] at hfuel
    omega
  rcases ExceptFold.bind_eq_error_iff.mp hr with h₄ | ⟨⟨table, is₄⟩, h₄, hr⟩
  · rw [readSymbolTable_eq] at h₄
    exact fault_of_readEntries hshort h₄
  rw [readSymbolTable_eq] at h₄
  obtain ⟨es, l₄, rfl, -, rfl, rfl⟩ := (readEntries_eq_ok_iff hshort).mp h₄
  rcases ExceptFold.bind_eq_error_iff.mp hr with h₅ | ⟨⟨bitsz, is₅⟩, h₅, hr⟩
  · exact hthrow h₅
  obtain ⟨l₅, rfl, -⟩ := length_readOrThrow h₅
  rcases ExceptFold.bind_eq_error_iff.mp hr with h₆ | ⟨⟨bitBytes, is₆⟩, h₆, hr⟩
  · exact hthrow h₆
  rcases ExceptFold.bind_eq_error_iff.mp hr with h₇ | ⟨bits, -, h₇⟩
  · rw [BitArray.ofVector] at h₇
    split_ifs at h₇
    · exact Or.inr ⟨_, (Except.error.inj h₇).symm⟩
    · exact Or.inr ⟨_, (Except.error.inj h₇).symm⟩
  · cases h₇

theorem fault_of_read {f : Fault} (hr : read (ofBytes l x) = .error f) : f.IsException :=
  fault_of_readBounded (Nat.lt_succ_self l.length) hr

end Hafe

/-! ### The contents of an archive -/

namespace Archive

variable (a : Archive)

theorem row_cases (s : UInt8) :
    a.symbolTable s = HuffmanCode.blank ∨ ∃ e ∈ a.entries, a.symbolTable s = e.huffmanCode :=
  insertAll_cases _ _ s

theorem wellFormed_blank : HuffmanCode.blank.WellFormed :=
  ⟨rfl, by decide, by decide⟩

theorem wellFormed_symbolTable (s : UInt8) : (a.symbolTable s).WellFormed := by
  rcases a.row_cases s with h | ⟨e, -, h⟩
  · rw [h]
    exact wellFormed_blank
  · rw [h]
    exact e.wellFormed_huffmanCode

/-- No codeword read has more than 255 bits. -/
theorem bitLength_symbolTable_le (s : UInt8) :
    (a.symbolTable s).bitLength ≤ HuffmanCode.maxLength := by
  rcases a.row_cases s with h | ⟨e, -, h⟩
  · rw [h]
    exact Nat.zero_le _
  · rw [h]
    exact Nat.le_of_lt_succ e.length.toNat_lt

theorem length_code_le (s : UInt8) : (a.symbolTable.code s).length ≤ HuffmanCode.maxLength := by
  rw [SymbolTable.code, (a.wellFormed_symbolTable s).readable.length_bits]
  exact a.bitLength_symbolTable_le s

theorem bits_bitStream : a.bitStream.bits = (unpack a.bitBytes).take a.bitLength :=
  rfl

theorem length_entryBytes_singleton_lt (e : Entry) : (entryBytes [e]).length < 2 ^ 32 := by
  have hle := e.code_length_le
  have hlen : (entryBytes [e]).length = e.size :=
    (length_entryBytes_cons e []).trans (Nat.add_zero _)
  rw [hlen, Entry.size]
  omega

/-- A file with a single entry and the single bit `0`. -/
def ofEntry (e : Entry) : Archive where
  reserved := List.replicate 16 0x1d
  tableSize := (entryBytes [e]).length
  entries := [e]
  bitLength := 1
  bitBytes := [0]
  length_reserved := rfl
  tableSize_lt := length_entryBytes_singleton_lt e
  counts := by
    have hlt := length_entryBytes_singleton_lt e
    exact (counts_iff (by omega)).mpr (Nat.zero_add _)
  bitLength_pos := Nat.zero_lt_one
  bitLength_lt := by decide
  length_bitBytes := rfl

/-- The row of the symbol with the entry, and the blank rows. -/
theorem symbolTable_ofEntry (e : Entry) (s : UInt8) :
    (ofEntry e).symbolTable s = if s = e.symbol then e.huffmanCode else HuffmanCode.blank := by
  change e.insert (fun _ => HuffmanCode.blank) s = _
  rw [Entry.insert, Function.update_apply]

theorem code_ofEntry (e : Entry) (s : UInt8) :
    (ofEntry e).symbolTable.code s = if s = e.symbol then e.bits else [] := by
  rw [SymbolTable.code, symbolTable_ofEntry]
  split_ifs
  · rfl
  · rfl

/-- The entry of the symbol `a` with one bit, stored in the byte given. -/
def entryA (code : UInt8) : Entry :=
  ⟨97, 1, [code], by decide, rfl⟩

/-- A file with this entry and the single bit `0`. -/
def fileA (code : UInt8) : Archive :=
  ofEntry (entryA code)

end Archive

end HafeCodec
