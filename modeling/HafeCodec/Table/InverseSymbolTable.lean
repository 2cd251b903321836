import HafeCodec.BitArray.Comparison
import HafeCodec.BitArray.Observation
import HafeCodec.Library.ShortestMatch
import HafeCodec.Table.SymbolTable

/-!
# The inverse symbol table

The inverse table spreads the nonempty codewords over 256 buckets. The bucket of a codeword depends
on its length and on its last byte, in which the unused bits are not masked; the comparison within
a bucket therefore only ever meets codewords whose last byte is that of the token. A lookup finds
the first symbol whose codeword has the bytes of the token (`InverseSymbolTable.find_eq`), so a
token padded with zeros is found exactly when its bits are those of a codeword that is padded with
zeros itself (`InverseSymbolTable.find_eq_lookup`).

## Main definitions

* `InverseSymbolTable`, `InverseSymbolTable.ofTable`, `InverseSymbolTable.find`.
* `SymbolTable.lookup`: the symbol found for a sequence of bits.

## Main results

* `InverseSymbolTable.ofTable_eq`: the contents of the buckets.
* `InverseSymbolTable.find_eq`, `InverseSymbolTable.find_eq_lookup`.
* `InverseSymbolTable.find_exact`.
* `SymbolTable.isLookup`, `SymbolTable.lookup_code`.
-/

namespace HafeCodec

/-- The pairs of a codeword and its symbol in one bucket. -/
abbrev Bucket : Type :=
  List (HuffmanCode × UInt8)

/-- `m_buckets`, an array of `BUCKET_SIZE` buckets. -/
structure InverseSymbolTable where
  buckets : Fin 256 → Bucket

namespace InverseSymbolTable

open BitArray

/-- `prefix_code_hash(const BitArray &prefix_code)`. -/
def prefixCodeHash (prefixCode : BitArray) : Outcome ℕ := do
  let back ← prefixCode.backByte
  return back.toNat ^^^ prefixCode.bitLength

/-- `insert_unique(const HuffmanCode &huffman_code, uint8_t symbol)`. -/
def insertUnique (t : InverseSymbolTable) (huffmanCode : HuffmanCode) (symbol : UInt8) :
    Outcome InverseSymbolTable := do
  let idx := Fin.ofNat 256 (← prefixCodeHash huffmanCode)
  let code ← huffmanCode.copy
  return ⟨Function.update t.buckets idx (t.buckets idx ++ [(code, symbol)])⟩

/-- `InverseSymbolTable(std::shared_ptr<std::vector<HuffmanCode>>)`. -/
def ofTable (symbolTable : SymbolTable) : Outcome InverseSymbolTable :=
  symbols.foldlM (fun t i =>
    if (symbolTable i).empty then .ok t else t.insertUnique (symbolTable i) i) ⟨fun _ => []⟩

/-- The loop of `find` over one bucket. -/
def scan (bitSequence : BitArray) : Bucket → Outcome (Option UInt8)
  | [] => .ok none
  | pair :: bucket => do
    if ← bitSequence.equal pair.1 then return some pair.2 else scan bitSequence bucket

/-- `find(const BitArray &bit_sequence)`. -/
def find (t : InverseSymbolTable) (bitSequence : BitArray) : Outcome (Option UInt8) := do
  let idx := Fin.ofNat 256 (← prefixCodeHash bitSequence)
  scan bitSequence (t.buckets idx)

/-- The bucket of a nonempty array. -/
def slot (a : BitArray) : Fin 256 :=
  Fin.ofNat 256 (a.lastByte.toNat ^^^ a.bitIdx)

theorem prefixCodeHash_eq {a : BitArray} (ha : a.Readable) (h0 : a.bitIdx ≠ 0) :
    prefixCodeHash a = .ok (a.lastByte.toNat ^^^ a.bitIdx) := by
  rw [prefixCodeHash, ha.backByte_eq h0]
  rfl

/-- Within a bucket, arrays of one length have the same last byte. -/
theorem lastByte_eq_of_slot_eq {a o : BitArray} (hlen : a.bitIdx = o.bitIdx)
    (h : slot a = slot o) : a.lastByte = o.lastByte := by
  have hmod := congrArg Fin.val h
  rw [slot, slot, Fin.val_ofNat, Fin.val_ofNat, hlen, show 256 = 2 ^ 8 from rfl,
    Nat.xor_mod_two_pow, Nat.xor_mod_two_pow, Nat.mod_eq_of_lt a.lastByte.toNat_lt,
    Nat.mod_eq_of_lt o.lastByte.toNat_lt] at hmod
  have hxor := congrArg (fun n => n ^^^ o.bitIdx % 2 ^ 8) hmod
  simp only [Nat.xor_assoc, Nat.xor_self, Nat.xor_zero] at hxor
  exact UInt8.toNat_inj.mp hxor

/-- Two arrays with the same bytes and length. -/
def Matches (token a : BitArray) : Prop :=
  a.bitIdx = token.bitIdx ∧ a.effectiveBytes = token.effectiveBytes

instance (token a : BitArray) : Decidable (Matches token a) :=
  inferInstanceAs (Decidable (_ ∧ _))

theorem Matches.slot_eq {token a : BitArray} (h : Matches token a) : slot a = slot token := by
  rw [slot, slot, lastByte, lastByte, h.1, h.2]

/-- The copies of the nonempty codewords of some symbols that fall into one bucket. -/
def bucketOf (st : SymbolTable) (l : List UInt8) (i : Fin 256) : Bucket :=
  (l.filter fun s => (st s).empty = false ∧ slot (st s) = i).map fun s => ((st s).copied, s)

variable {st : SymbolTable}

/-- A nonempty codeword is appended to its bucket. -/
theorem insertUnique_eq (t : InverseSymbolTable) {a : HuffmanCode} (ha : a.Readable)
    (h0 : a.bitIdx ≠ 0) (s : UInt8) :
    t.insertUnique a s =
      .ok ⟨Function.update t.buckets (slot a) (t.buckets (slot a) ++ [(a.copied, s)])⟩ := by
  rw [insertUnique, prefixCodeHash_eq ha h0, ExceptFold.ok_bind, ha.copy_eq]
  rfl

theorem bucketOf_append_singleton (l : List UInt8) (s : UInt8) (i : Fin 256) :
    bucketOf st (l ++ [s]) i =
      if (st s).empty = false ∧ slot (st s) = i then bucketOf st l i ++ [((st s).copied, s)]
      else bucketOf st l i := by
  rw [bucketOf, List.filter_append, List.map_append, List.filter_singleton]
  by_cases h : (st s).empty = false ∧ slot (st s) = i
  · rw [if_pos h, decide_eq_true h]
    rfl
  · rw [if_neg h, decide_eq_false h]
    exact List.append_nil _

/-- One step of the constructor. -/
private theorem bucketOf_step (hst : ∀ s, (st s).Readable) (l : List UInt8) (s : UInt8) :
    (if (st s).empty then .ok ⟨bucketOf st l⟩
      else insertUnique ⟨bucketOf st l⟩ (st s) s : Outcome InverseSymbolTable) =
      .ok ⟨bucketOf st (l ++ [s])⟩ := by
  cases hs : (st s).empty with
  | true =>
    refine congrArg (fun f => Except.ok (InverseSymbolTable.mk f)) (funext fun i => ?_)
    rw [bucketOf_append_singleton, if_neg (by simp [hs])]
  | false =>
    have h0 : (st s).bitIdx ≠ 0 := by simpa [empty] using hs
    rw [if_neg Bool.false_ne_true, insertUnique_eq _ (hst s) h0]
    refine congrArg (fun f => Except.ok (InverseSymbolTable.mk f)) (funext fun i => ?_)
    rw [bucketOf_append_singleton, Function.update_apply]
    by_cases hi : i = slot (st s)
    · rw [if_pos hi, if_pos ⟨hs, hi.symm⟩, hi]
    · rw [if_neg hi, if_neg fun h => hi h.2.symm]

/-- **The contents of the buckets.** -/
theorem ofTable_eq (hst : ∀ s, (st s).Readable) : ofTable st = .ok ⟨bucketOf st symbols⟩ := by
  obtain ⟨t, ht, rfl⟩ := ExceptFold.foldlM_ok (l := symbols)
    (f := fun (t : InverseSymbolTable) i =>
      if (st i).empty then .ok t else t.insertUnique (st i) i)
    (fun done t => t = ⟨bucketOf st done⟩) rfl
    (fun done s _ t _ ht => ⟨_, ht ▸ bucketOf_step hst done s, rfl⟩)
  exact ht

/-- The scan of a bucket finds the first codeword with the bytes of the token. -/
theorem scan_eq {token : BitArray} (ht : token.Readable) (h0 : token.bitIdx ≠ 0)
    (hst : ∀ s, (st s).Readable) (l : List UInt8) (hl : ∀ s ∈ l, slot (st s) = slot token) :
    scan token (l.map fun s => ((st s).copied, s)) =
      .ok (l.find? fun s => Matches token (st s)) := by
  induction l with
  | nil => rfl
  | cons s l ih =>
    have heq : token.equal (st s).copied = .ok (decide (Matches token (st s))) := by
      by_cases hlen : (st s).bitIdx = token.bitIdx
      · have hlast := lastByte_eq_of_slot_eq hlen (hl s List.mem_cons_self)
        rw [equal_eq ht (hst s).copied h0 hlen.symm ((hst s).lastByte_copied.trans hlast).symm,
          (hst s).effectiveBytes_copied]
        exact congrArg Except.ok (decide_eq_decide.mpr ⟨fun h => ⟨hlen, h.symm⟩, fun h => h.2.symm⟩)
      · rw [equal_of_ne (o := (st s).copied) (Ne.symm hlen)]
        exact congrArg Except.ok (decide_eq_false fun h => hlen h.1).symm
    rw [List.map_cons, scan, heq, ExceptFold.ok_bind,
      ih fun t ht => hl t (List.mem_cons_of_mem _ ht), List.find?_cons]
    cases decide (Matches token (st s))
    · rfl
    · rfl

/-- **A lookup finds the first symbol** whose codeword has the bytes of the token. -/
theorem find_eq {token : BitArray} (ht : token.Readable) (h0 : token.bitIdx ≠ 0)
    (hst : ∀ s, (st s).Readable) :
    find ⟨bucketOf st symbols⟩ token = .ok (symbols.find? fun s => Matches token (st s)) := by
  rw [find, prefixCodeHash_eq ht h0, ExceptFold.ok_bind]
  refine (scan_eq ht h0 hst _ fun s hs => ?_).trans ?_
  · exact (of_decide_eq_true (List.mem_filter.mp hs).2).2
  · rw [List.find?_filter]
    refine congrArg (fun p => Except.ok (List.find? p symbols)) (funext fun s => ?_)
    rw [Bool.eq_iff_iff, decide_eq_true_iff, decide_eq_true_iff, decide_eq_true_iff]
    refine ⟨And.right, fun h => ⟨⟨?_, h.slot_eq⟩, h⟩⟩
    rw [empty, h.1, beq_eq_false_iff_ne]
    exact h0

end InverseSymbolTable

namespace SymbolTable

open BitArray

instance (a : BitArray) : Decidable a.ZeroPadded :=
  inferInstanceAs (Decidable (_ = _))

/-- The first symbol whose codeword is `l` and is padded with zeros. -/
def lookup (st : SymbolTable) (l : List Bool) : Option UInt8 :=
  symbols.find? fun s => st.code s = l ∧ (st s).ZeroPadded

variable {st : SymbolTable} {l : List Bool} {s : UInt8}

theorem code_of_lookup (h : st.lookup l = some s) : st.code s = l ∧ (st s).ZeroPadded := by
  rw [lookup] at h
  have hs := List.find?_some h
  exact of_decide_eq_true hs

theorem lookup_congr {st' : SymbolTable}
    (h : ∀ s, st'.code s = l ∧ (st' s).ZeroPadded ↔ st.code s = l ∧ (st s).ZeroPadded) :
    st'.lookup l = st.lookup l :=
  congrArg (fun p => List.find? p symbols) (funext fun s => decide_eq_decide.mpr (h s))

theorem lookup_eq_none_iff :
    st.lookup l = none ↔ ∀ s, st.code s = l → ¬ (st s).ZeroPadded := by
  rw [lookup, List.find?_eq_none]
  constructor
  · exact fun h s hs hz => h s (mem_symbols s) (decide_eq_true ⟨hs, hz⟩)
  · exact fun h s _ hs => h s (of_decide_eq_true hs).1 (of_decide_eq_true hs).2

/-- The lookup is a lookup in the codewords that are padded with zeros. -/
theorem isLookup (st : SymbolTable) :
    ShortestMatch.IsLookup st.lookup st.code fun s => (st s).ZeroPadded where
  code_eq := code_of_lookup
  find_ne_none hz h := lookup_eq_none_iff.mp h _ rfl hz

/-- A codeword padded with zeros is found when no other symbol has it. -/
theorem lookup_code (hz : (st s).ZeroPadded) (hs : ∀ t, st.code t = st.code s → t = s) :
    st.lookup (st.code s) = some s := by
  cases hl : st.lookup (st.code s) with
  | none => exact absurd hz (lookup_eq_none_iff.mp hl s rfl)
  | some t => rw [hs t (code_of_lookup hl).1]

end SymbolTable

namespace InverseSymbolTable

open BitArray

variable {st : SymbolTable}

/-- A token of another length than every codeword is not found. -/
theorem find_eq_none {token : BitArray} {b : BitArray8} (hb : token.backByte = .ok b)
    (hlen : ∀ s, (st s).bitIdx ≠ token.bitIdx) :
    find ⟨bucketOf st symbols⟩ token = .ok none := by
  have hscan (l : List UInt8) : scan token (l.map fun s => ((st s).copied, s)) = .ok none := by
    induction l with
    | nil => rfl
    | cons s l ih =>
      rw [List.map_cons, scan, equal_of_ne (o := (st s).copied) (hlen s).symm]
      exact ih
  rw [find, prefixCodeHash, hb, ExceptFold.ok_bind, ExceptFold.pure_eq_ok, ExceptFold.ok_bind]
  exact hscan _

/-- **A lookup of a token padded with zeros** is a lookup of its bits. A token whose number of bytes
wraps is longer than every codeword. -/
theorem find_eq_lookup {token : BitArray} (ht : token.InBounds) (h0 : token.bitIdx ≠ 0)
    (hz : token.Readable → token.ZeroPadded) (hst : ∀ s, (st s).Readable)
    (hshort : ∀ s, (st.code s).length ≤ HuffmanCode.maxLength) :
    find ⟨bucketOf st symbols⟩ token = .ok (st.lookup token.bits) := by
  by_cases hwrap : token.bitIdx + 7 < 2 ^ 64
  · have hr := ht.readable hwrap
    rw [find_eq hr h0 hst, SymbolTable.lookup]
    refine congrArg (fun p => Except.ok (List.find? p symbols)) (funext fun s => ?_)
    exact decide_eq_decide.mpr (effectiveBytes_eq_iff (hst s) hr (hz hr))
  · have hlt := ht.length_lt
    have hle := ht.length_le
    have hbits := ht.length_bits
    have hlen (s : UInt8) : (st s).bitIdx < token.bitIdx := by
      have hs := hshort s
      rw [SymbolTable.code, (hst s).length_bits, HuffmanCode.maxLength] at hs
      omega
    have hnone : st.lookup token.bits = none := by
      refine SymbolTable.lookup_eq_none_iff.mpr fun s hs _ => (hlen s).ne ?_
      rw [← (hst s).length_bits, ← hbits, ← hs, SymbolTable.code]
    have hback : token.backByte = .ok token.vct[0] := by
      rw [backByte, lastElementByteIdx_eq_zero hlt (Nat.le_of_not_lt hwrap)]
      exact load_eq_ok (List.getElem?_eq_getElem (by omega))
    rw [hnone, find_eq_none hback fun s => (hlen s).ne]

/-- **The inverse lookup is exact.** In a table whose nonempty codewords are distinct and padded
with zeros, a nonempty token padded with zeros is found exactly when it is bit for bit the codeword
of a symbol, and this symbol is the one returned. -/
theorem find_exact {token : BitArray} (hst : ∀ s, (st s).Readable)
    (hshort : ∀ s, (st s).bitLength ≤ HuffmanCode.maxLength) (hpad : ∀ s, (st s).ZeroPadded)
    (hdistinct : ∀ s t, st.code s ≠ [] → st.code s = st.code t → s = t) (ht : token.InBounds)
    (h0 : token.bitLength ≠ 0) (hz : token.ZeroPadded) :
    ∃ codes, ofTable st = .ok codes ∧ ∃ found, codes.find token = .ok found ∧
      (∀ s, found = some s ↔ SameBits (st s) token) ∧
      (found = none ↔ ∀ s, ¬ SameBits (st s) token) := by
  have hsame (s : UInt8) : SameBits (st s) token ↔ st.code s = token.bits :=
    (hst s).inBounds.sameBits_iff ht
  have hne : token.bits ≠ [] :=
    List.ne_nil_of_length_pos (ht.length_bits ▸ Nat.pos_of_ne_zero h0)
  refine ⟨_, ofTable_eq hst, st.lookup token.bits,
    find_eq_lookup ht h0 (fun _ => hz) hst fun s => (hst s).length_bits.trans_le (hshort s),
    fun s => ?_, ?_⟩
  · rw [hsame]
    constructor
    · exact fun h => (SymbolTable.code_of_lookup h).1
    · intro h
      rw [← h] at hne ⊢
      exact SymbolTable.lookup_code (hpad s) fun t hts => (hdistinct s t hne hts.symm).symm
  · rw [SymbolTable.lookup_eq_none_iff]
    exact forall_congr' fun s => by rw [hsame, imp_not_comm, imp_iff_right (hpad s)]

theorem find_exact_tableAb :
    ∃ codes, ofTable SymbolTable.tableAb = .ok codes ∧ ∃ found,
      codes.find ⟨[128], 1, 8⟩ = .ok found ∧
      (∀ s, found = some s ↔ SameBits (SymbolTable.tableAb s) ⟨[128], 1, 8⟩) ∧
      (found = none ↔ ∀ s, ¬ SameBits (SymbolTable.tableAb s) ⟨[128], 1, 8⟩) :=
  find_exact (fun s => (SymbolTable.wellFormed_tableAb s).readable)
    (fun s => (SymbolTable.bitLength_tableAb_le s).trans (by decide))
    SymbolTable.zeroPadded_tableAb
    (fun _ _ hs hst => SymbolTable.eq_of_prefix_tableAb hs (hst ▸ List.prefix_refl _))
    ⟨by decide, by decide⟩ (by decide) rfl

end InverseSymbolTable

end HafeCodec
