import HafeCodec.Format.Writer

/-!
# Files read and written again

A stream begins with at most one file (`Archive.eq_of_append_eq`), but one table has many files: its
entries may stand in any order, and an entry hides the earlier ones of its symbol. What was read and
is written again is a normal form of the file, with one entry for every symbol, in increasing order
(`Hafe.write_read`). It has the same table and the same bits, so that writing it again changes
nothing more; and it is the file itself exactly when the entries of the file were in order.

## Main definitions

* `lastEntry`, `sortEntries`.
* `Archive.sorted`: the normal form of a file.

## Main results

* `Archive.eq_of_append_eq`: the format is self-delimiting.
* `Archive.symbolTable_sorted`, `Archive.sorted_eq_iff`.
* `Hafe.write_read`.
-/

open BitString

namespace HafeCodec

/-! ### A stream begins with at most one file -/

/-- **The format is self-delimiting**: a file is determined by the bytes with which it begins a
stream. -/
theorem Archive.eq_of_append_eq {a a' : Archive} {w w' : List UInt8}
    (h : a.bytes ++ w = a'.bytes ++ w') : a = a' ∧ w = w' := by
  obtain ⟨reserved, tableSize, entries, bitLength, bitBytes, hres, hsize, hcounts, hpos, hlt,
    hlen⟩ := a
  obtain ⟨reserved', tableSize', entries', bitLength', bitBytes', hres', hsize', hcounts', hpos',
    hlt', hlen'⟩ := a'
  simp only [bytes, List.append_assoc] at h
  have h₁ := List.append_cancel_left h
  obtain ⟨rfl, h₂⟩ := List.append_inj h₁ (hres.trans hres'.symm)
  obtain ⟨htable, h₃⟩ := List.append_inj h₂ (by rw [length_toLE, length_toLE])
  obtain rfl : tableSize = tableSize' := by
    rw [← fromLE_toLE (k := 4) hsize, htable, fromLE_toLE hsize']
  obtain ⟨rfl, h₄⟩ := hcounts.eq_of_append_eq hcounts' h₃
  obtain ⟨hbits, h₅⟩ := List.append_inj h₄ (by rw [length_toLE, length_toLE])
  obtain rfl : bitLength = bitLength' := by
    rw [← fromLE_toLE (k := 8) (show bitLength < _ by omega), hbits,
      fromLE_toLE (show bitLength' < _ by omega)]
  obtain ⟨rfl, rfl⟩ := List.append_inj h₅ (hlen.trans hlen'.symm)
  exact ⟨rfl, rfl⟩

/-! ### The entries that count -/

/-- The last entry of a symbol. -/
def lastEntry : List Entry → UInt8 → Option Entry
  | [], _ => none
  | e :: es, s => (lastEntry es s).or (if e.symbol = s then some e else none)

/-- The last entries of all symbols in increasing order. -/
def sortEntries (es : List Entry) : List Entry :=
  symbols.filterMap (lastEntry es)

variable {es : List Entry} {s : UInt8} {e : Entry}

theorem lastEntry_eq_some (h : lastEntry es s = some e) : e ∈ es ∧ e.symbol = s := by
  induction es with
  | nil => cases h
  | cons e' es ih =>
    rw [lastEntry, Option.or_eq_some_iff] at h
    rcases h with h | ⟨-, h⟩
    · exact ⟨List.mem_cons_of_mem _ (ih h).1, (ih h).2⟩
    · split_ifs at h with hs
      obtain rfl := Option.some.inj h
      exact ⟨List.mem_cons_self, hs⟩

/-- **The row of a symbol** is that of its last entry. -/
theorem insertAll_apply (table : SymbolTable) (es : List Entry) (s : UInt8) :
    insertAll table es s = ((lastEntry es s).map Entry.huffmanCode).getD (table s) := by
  induction es generalizing table with
  | nil => rfl
  | cons e es ih =>
    rw [insertAll_cons, ih, lastEntry]
    cases lastEntry es s with
    | some e' => rfl
    | none =>
      rw [Option.map_none, Option.getD_none, Option.none_or, Entry.insert, Function.update_apply]
      by_cases hs : s = e.symbol
      · rw [if_pos hs, if_pos hs.symm]
        rfl
      · rw [if_neg hs, if_neg (Ne.symm hs)]
        rfl

/-- In a list of entries with different symbols every entry is the last one of its symbol. -/
theorem lastEntry_of_mem (hes : es.Pairwise fun e e' => e.symbol ≠ e'.symbol) (he : e ∈ es) :
    lastEntry es e.symbol = some e := by
  induction es with
  | nil => exact absurd he List.not_mem_nil
  | cons e' es ih =>
    obtain ⟨hne, hes⟩ := List.pairwise_cons.mp hes
    rw [lastEntry]
    rcases List.mem_cons.mp he with rfl | he
    · have hnone : lastEntry es e.symbol = none := by
        cases hl : lastEntry es e.symbol with
        | none => rfl
        | some e' =>
          obtain ⟨hmem, hsym⟩ := lastEntry_eq_some hl
          exact absurd hsym.symm (hne e' hmem)
      rw [hnone, if_pos rfl]
      rfl
    · rw [ih hes he]
      rfl

theorem mem_sortEntries : e ∈ sortEntries es ↔ lastEntry es e.symbol = some e := by
  rw [sortEntries, List.mem_filterMap]
  constructor
  · rintro ⟨s, -, hs⟩
    obtain ⟨-, rfl⟩ := lastEntry_eq_some hs
    exact hs
  · exact fun he => ⟨e.symbol, mem_symbols _, he⟩

/-- The entries are sorted. -/
theorem pairwise_sortEntries (es : List Entry) :
    (sortEntries es).Pairwise fun e e' => e.symbol < e'.symbol := by
  rw [sortEntries, List.pairwise_filterMap]
  refine pairwise_lt_symbols.imp fun {s t} hlt e he e' he' => ?_
  rw [(lastEntry_eq_some he).2, (lastEntry_eq_some he').2]
  exact hlt

theorem lastEntry_sortEntries (es : List Entry) (s : UInt8) :
    lastEntry (sortEntries es) s = lastEntry es s := by
  have hne := (pairwise_sortEntries es).imp fun {e e'} h => UInt8.ne_of_lt h
  refine Option.ext fun e => ⟨fun h => ?_, fun h => ?_⟩
  · obtain ⟨he, rfl⟩ := lastEntry_eq_some h
    exact mem_sortEntries.mp he
  · obtain ⟨-, rfl⟩ := lastEntry_eq_some h
    exact lastEntry_of_mem hne (mem_sortEntries.mpr h)

/-- Sorted entries stay as they are. -/
theorem sortEntries_eq_self_iff :
    sortEntries es = es ↔ es.Pairwise fun e e' => e.symbol < e'.symbol := by
  constructor
  · intro h
    rw [← h]
    exact pairwise_sortEntries es
  · intro h
    have hsorted := pairwise_sortEntries es
    have hne := h.imp fun {e e'} hlt => UInt8.ne_of_lt hlt
    have hnodup {l : List Entry} (hl : l.Pairwise fun e e' => e.symbol < e'.symbol) : l.Nodup :=
      hl.imp fun {e e'} hlt => by
        rintro rfl
        exact UInt8.lt_irrefl _ hlt
    have hperm : (sortEntries es).Perm es :=
      (List.perm_ext_iff_of_nodup (hnodup hsorted) (hnodup h)).mpr fun e =>
        mem_sortEntries.trans
          ⟨fun he => (lastEntry_eq_some he).1, fun he => lastEntry_of_mem hne he⟩
    refine hperm.eq_of_pairwise (fun e e' _ _ hlt hgt => ?_) hsorted h
    exact absurd hgt (UInt8.lt_asymm hlt)

/-! ### The normal form of a file -/

/-- The bytes of one row. -/
theorem row_of_eq_huffmanCode {st : SymbolTable} (h : st e.symbol = e.huffmanCode) :
    Hafe.row st e.symbol = e.bytes := by
  have hread := e.wellFormed_huffmanCode.readable
  have hne : e.huffmanCode.empty = false :=
    beq_eq_false_iff_ne.mpr (Nat.pos_iff_ne_zero.mp e.length_pos)
  have hlen : HuffmanCode.length8 e.huffmanCode = e.length := UInt8.ofNat_toNat
  have hsize : e.huffmanCode.effectiveByteSize = e.code.length :=
    hread.effectiveByteSize_eq.trans e.length_code.symm
  have hbytes : e.huffmanCode.effectiveBytes = e.code := by
    rw [BitArray.effectiveBytes, hsize]
    exact List.take_length
  rw [Hafe.row, h, hne, if_neg Bool.false_ne_true, hlen, hbytes, Entry.bytes]

/-- **The rows of a table of entries** are the bytes of its sorted entries. -/
theorem rows_insertAll (es : List Entry) :
    Hafe.rows (insertAll (fun _ => HuffmanCode.blank) es) = entryBytes (sortEntries es) := by
  rw [Hafe.rows, entryBytes, sortEntries]
  induction symbols with
  | nil => rfl
  | cons s l ih =>
    have hrow := insertAll_apply (fun _ => HuffmanCode.blank) es s
    rw [List.flatMap_cons, ih]
    cases hl : lastEntry es s with
    | none =>
      rw [hl] at hrow
      rw [List.filterMap_cons_none hl, Hafe.row, hrow]
      rfl
    | some e =>
      obtain ⟨-, rfl⟩ := lastEntry_eq_some hl
      rw [hl] at hrow
      rw [List.filterMap_cons_some hl, row_of_eq_huffmanCode hrow]
      rfl

namespace Archive

variable (a : Archive)

theorem storable : Hafe.Storable a.toHafe :=
  ⟨a.length_reserved, fun s => (a.wellFormed_symbolTable s).readable, a.bitLength_symbolTable_le,
    a.wellFormed_bitStream.readable, rfl, a.bitLength_pos⟩

theorem length_sortEntries_lt : (entryBytes (sortEntries a.entries)).length < 2 ^ 32 := by
  have hlt := Hafe.length_rows_lt a.storable.readable a.storable.bitLength_le
  rwa [← rows_insertAll]

/-- **The normal form of a file**: its table has one entry for every symbol, in increasing
order. -/
def sorted : Archive where
  reserved := a.reserved
  tableSize := (entryBytes (sortEntries a.entries)).length
  entries := sortEntries a.entries
  bitLength := a.bitLength
  bitBytes := a.bitBytes
  length_reserved := a.length_reserved
  tableSize_lt := a.length_sortEntries_lt
  counts := by
    have hlt := a.length_sortEntries_lt
    exact (counts_iff (by omega)).mpr (Nat.zero_add _)
  bitLength_pos := a.bitLength_pos
  bitLength_lt := a.bitLength_lt
  length_bitBytes := a.length_bitBytes

/-- The normal form has the same table. -/
theorem symbolTable_sorted : a.sorted.symbolTable = a.symbolTable := by
  funext s
  rw [symbolTable, symbolTable, insertAll_apply, insertAll_apply, sorted, lastEntry_sortEntries]

theorem effectiveBytes_bitStream : a.bitStream.effectiveBytes = a.bitBytes := by
  have hsize : a.bitStream.effectiveByteSize = a.bitBytes.length :=
    a.wellFormed_bitStream.readable.effectiveByteSize_eq.trans a.length_bitBytes.symm
  rw [BitArray.effectiveBytes, hsize]
  exact List.take_length

/-- The contents of a file are written as its normal form. -/
theorem write_toHafe : Hafe.write a.toHafe = .ok a.sorted.bytes := by
  have hs := a.storable
  have hrows : Hafe.rows a.toHafe.symbolTable = entryBytes (sortEntries a.entries) :=
    rows_insertAll a.entries
  rw [Hafe.write_eq (fun s => (hs.readable s).effectiveByteSize_le)
    hs.readable_bitStream.effectiveByteSize_le, Hafe.fileBytes, hrows,
    Nat.mod_eq_of_lt a.length_sortEntries_lt, toHafe, effectiveBytes_bitStream]
  rfl

/-- A file is its own normal form exactly when its entries are sorted. -/
theorem sorted_eq_iff :
    a.sorted = a ↔ a.entries.Pairwise fun e e' => e.symbol < e'.symbol := by
  rw [← sortEntries_eq_self_iff]
  refine ⟨fun h => congrArg entries h, fun h => ?_⟩
  have hlt := a.length_sortEntries_lt
  have hsize : (entryBytes (sortEntries a.entries)).length = a.tableSize := by
    rw [h] at hlt ⊢
    have hcounts := (counts_iff (show 0 + _ < 2 ^ 64 by omega)).mp a.counts
    omega
  obtain ⟨reserved, tableSize, entries, bitLength, bitBytes, _⟩ := a
  dsimp only at h hsize
  subst hsize
  simp only [sorted, h]

end Archive

namespace Hafe

open IStream

/-- **Reading and writing again.** What was read is written as a file with the same contents: it is
read back, in front of any bytes, with the same reserved bytes, table and bits, and writing it again
changes nothing. It is the file that was read exactly when the entries of that file were sorted and
their symbols different. -/
theorem write_read {l : List UInt8} {x : Bool} {h : Hafe} {is' : IStream}
    (hr : read (ofBytes l x) = .ok (h, is')) :
    ∃ (a : Archive) (bytes : List UInt8), l = a.bytes ++ is'.rest ∧ write h = .ok bytes ∧
      (∀ rest y, ∃ h', read (ofBytes (bytes ++ rest) y) = .ok (h', ofBytes rest true) ∧
        h'.reserved = h.reserved ∧ h'.symbolTable = h.symbolTable ∧
        h'.bitStream = h.bitStream ∧ write h' = .ok bytes) ∧
      (bytes = a.bytes ↔ a.entries.Pairwise fun e e' => e.symbol < e'.symbol) := by
  obtain ⟨a, w, rfl, rfl, rfl⟩ := read_eq_ok_iff.mp hr
  have hsorted : a.sorted.sorted = a.sorted :=
    a.sorted.sorted_eq_iff.mpr (pairwise_sortEntries a.entries)
  refine ⟨a, a.sorted.bytes, rfl, a.write_toHafe, fun rest y => ?_, ?_⟩
  · refine ⟨a.sorted.toHafe, read_bytes a.sorted rest y, rfl, a.symbolTable_sorted, rfl, ?_⟩
    rw [a.sorted.write_toHafe, hsorted]
  · rw [← a.sorted_eq_iff]
    refine ⟨fun heq => ?_, fun heq => congrArg Archive.bytes heq⟩
    exact (Archive.eq_of_append_eq (congrArg (· ++ []) heq)).1

theorem write_read_fileA :
    ∃ (a : Archive) (bytes : List UInt8), (Archive.fileA 0).bytes ++ [1] = a.bytes ++ [1] ∧
      write (Archive.fileA 0).toHafe = .ok bytes ∧
      (∀ rest y, ∃ h', read (ofBytes (bytes ++ rest) y) = .ok (h', ofBytes rest true) ∧
        h'.reserved = (Archive.fileA 0).reserved ∧
        h'.symbolTable = (Archive.fileA 0).symbolTable ∧
        h'.bitStream = (Archive.fileA 0).bitStream ∧ write h' = .ok bytes) ∧
      (bytes = a.bytes ↔ a.entries.Pairwise fun e e' => e.symbol < e'.symbol) :=
  write_read (read_bytes (Archive.fileA 0) [1] false)

end Hafe

end HafeCodec
