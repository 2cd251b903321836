import HafeCodec.Codec.Rest

/-!
# The padding of the codewords in a file

The bits behind the codeword in the last byte of an entry are kept in the table, and the inverse
table compares whole bytes. A codeword whose padding is not zero is therefore never found, unless it
has no padding at all. So the padding has no effect on what is decoded exactly when the codewords
that the decoder meets are whole bytes (`Hafe.paddingIgnored_iff`): a codeword of another length is
found if it is padded with zeros, and lost if it is padded with ones.

## Main definitions

* `Entry.Agrees`: two entries differ in the padding only.
* `Hafe.PaddingVariant`: two files differ in the padding of the entries only.
* `Hafe.PaddingIgnored`: all variants of a file are read and decompressed to the same string.

## Main results

* `Archive.zeroPadded_iff_of_repadded`: the codewords padded with zeros when all
  padding is replaced.
* `Hafe.paddingIgnored_iff`.
-/

open BitString ShortestMatch

namespace HafeCodec

/-! ### Entries that differ in the padding -/

namespace Entry

/-- The entries differ in the padding only. -/
structure Agrees (e e' : Entry) : Prop where
  symbol_eq : e'.symbol = e.symbol
  length_eq : e'.length = e.length
  bits_eq : e'.bits = e.bits

/-- The entries differ in the padding only, and the padding of the second has the bits `v`. -/
structure Repadded (v : Bool) (e e' : Entry) : Prop extends Agrees e e' where
  unpack_eq : unpack e'.code =
    e'.bits ++ List.replicate (8 * e'.code.length - e'.length.toNat) v

variable {e e' : Entry} {v : Bool}

theorem Agrees.size_eq (h : e.Agrees e') : e'.size = e.size := by
  rw [size, size, e'.length_code, e.length_code, h.length_eq]

/-- The padding can be replaced. -/
theorem exists_repadded (v : Bool) (e : Entry) : ∃ e', e.Repadded v e' := by
  have hcode := e.length_code
  have hbits : e.bits.length = e.length.toNat := by
    rw [bits, List.length_take, length_unpack]
    omega
  obtain ⟨code, hlen, hunpack⟩ := exists_unpack
    (l := e.bits ++ List.replicate (8 * e.code.length - e.length.toNat) v) (n := e.code.length) (by
      rw [List.length_append, List.length_replicate, hbits]
      omega)
  have htake : (unpack code).take e.length.toNat = e.bits := by
    rw [hunpack, ← hbits, List.take_left]
  refine ⟨⟨e.symbol, e.length, code, e.length_ne_zero, hlen.trans hcode⟩, ⟨rfl, rfl, htake⟩, ?_⟩
  change unpack code = (unpack code).take e.length.toNat ++
    List.replicate (8 * code.length - e.length.toNat) v
  rw [htake, hunpack, hlen]

/-- A codeword padded with `v` is padded with zeros if `v` is zero or there is no padding. -/
theorem Repadded.zeroPadded_iff (h : e.Repadded v e') :
    e'.huffmanCode.ZeroPadded ↔ v = false ∨ 8 ∣ e'.huffmanCode.bitLength := by
  have hcode := e'.length_code
  have hsize : e'.huffmanCode.effectiveByteSize = e'.code.length :=
    e'.wellFormed_huffmanCode.readable.effectiveByteSize_eq.trans hcode.symm
  have heff : e'.huffmanCode.effectiveBytes = e'.code := by
    rw [BitArray.effectiveBytes, hsize]
    exact List.take_length
  have hidx : e'.huffmanCode.bitIdx = e'.length.toNat := rfl
  rw [BitArray.ZeroPadded, heff, hsize, h.unpack_eq, e'.bits_huffmanCode, BitArray.bitLength, hidx,
    List.append_cancel_left_eq, List.replicate_inj, or_comm]
  refine ⟨fun hn => hn.2.imp id fun h0 => ?_, fun hn => ⟨rfl, hn.imp id fun h0 => ?_⟩⟩
  · omega
  · omega

end Entry

/-- The count does not depend on the padding. -/
theorem Counts.of_agrees {bsize b : ℕ} {es es' : List Entry} (h : Counts bsize b es)
    (hes : List.Forall₂ Entry.Agrees es es') : Counts bsize b es' := by
  induction hes generalizing b with
  | nil => exact h
  | @cons e e' es es' he _ ih =>
    obtain ⟨hne, hpos, hrest⟩ := h
    rw [Counts, he.size_eq]
    exact ⟨hne, hpos, ih hrest⟩

/-- Entries that correspond to each other give tables that do. -/
theorem insertAll_rel {R : HuffmanCode → HuffmanCode → Prop} {es es' : List Entry}
    (hes : List.Forall₂ (fun e e' => e'.symbol = e.symbol ∧ R e.huffmanCode e'.huffmanCode) es es')
    {table table' : SymbolTable} (ht : ∀ s, R (table s) (table' s)) (s : UInt8) :
    R (insertAll table es s) (insertAll table' es' s) := by
  induction hes generalizing table table' with
  | nil => exact ht s
  | @cons e e' es es' he _ ih =>
    rw [insertAll_cons, insertAll_cons]
    refine ih fun t => ?_
    rw [Entry.insert, Entry.insert, Function.update_apply, Function.update_apply, he.1]
    split_ifs
    · exact he.2
    · exact ht t

namespace Archive

variable (a : Archive)

/-- The file with other padding. -/
def withEntries {es : List Entry} (hes : List.Forall₂ Entry.Agrees a.entries es) : Archive :=
  { a with entries := es, counts := a.counts.of_agrees hes }

variable {a} {es : List Entry} (hes : List.Forall₂ Entry.Agrees a.entries es)

/-- The rows of the two tables correspond to each other as the entries do. -/
theorem symbolTable_rel {R : HuffmanCode → HuffmanCode → Prop}
    (hR : List.Forall₂ (fun e e' => e'.symbol = e.symbol ∧ R e.huffmanCode e'.huffmanCode)
      a.entries es) (hblank : R HuffmanCode.blank HuffmanCode.blank) (s : UInt8) :
    R (a.symbolTable s) ((a.withEntries hes).symbolTable s) :=
  insertAll_rel hR (fun _ => hblank) s

theorem code_withEntries (s : UInt8) :
    (a.withEntries hes).symbolTable.code s = a.symbolTable.code s :=
  symbolTable_rel (R := fun c c' => c'.bits = c.bits) hes
    (hes.imp fun _ _ he => ⟨he.symbol_eq, he.bits_eq⟩) rfl s

/-- **The codewords that are padded with zeros** when all padding has the bits `v`. -/
theorem zeroPadded_iff_of_repadded {v : Bool}
    (hes' : List.Forall₂ (Entry.Repadded v) a.entries es) (s : UInt8) :
    ((a.withEntries hes).symbolTable s).ZeroPadded ↔
      v = false ∨ 8 ∣ ((a.withEntries hes).symbolTable s).bitLength :=
  symbolTable_rel (R := fun _ c' => c'.ZeroPadded ↔ v = false ∨ 8 ∣ c'.bitLength) hes
    (hes'.imp fun _ _ he => ⟨he.symbol_eq, he.zeroPadded_iff⟩)
    (iff_of_true rfl (Or.inr (Nat.dvd_zero 8))) s

/-- The padding of all entries can be replaced. -/
theorem exists_repadded (v : Bool) (l : List Entry) :
    ∃ es, List.Forall₂ Entry.Agrees l es ∧ List.Forall₂ (Entry.Repadded v) l es := by
  induction l with
  | nil => exact ⟨[], .nil, .nil⟩
  | cons e l ih =>
    obtain ⟨e', he'⟩ := e.exists_repadded v
    obtain ⟨es, hes, hes'⟩ := ih
    exact ⟨e' :: es, .cons he'.toAgrees hes, .cons he' hes'⟩

/-- A codeword of whole bytes is found whatever the padding is. -/
theorem zeroPadded_of_dvd {s : UInt8} (h : 8 ∣ (a.symbolTable.code s).length) :
    (a.symbolTable s).ZeroPadded := by
  rw [SymbolTable.code, (a.readable_symbolTable s).length_bits] at h
  exact (a.readable_symbolTable s).zeroPadded h

/-- The lookup of whole bytes does not depend on the padding. -/
theorem lookup_withEntries {l : List Bool} (hl : 8 ∣ l.length) :
    (a.withEntries hes).symbolTable.lookup l = a.symbolTable.lookup l := by
  refine SymbolTable.lookup_congr fun s => ?_
  have hcode := code_withEntries hes s
  constructor
  · rintro ⟨hs, -⟩
    rw [hcode] at hs
    exact ⟨hs, zeroPadded_of_dvd (hs ▸ hl)⟩
  · rintro ⟨hs, -⟩
    rw [← hcode] at hs
    exact ⟨hs, zeroPadded_of_dvd (hs ▸ hl)⟩

/-- **Bits spelled by whole bytes** are parsed alike whatever the padding is. -/
theorem parse_withEntries {w : List UInt8} {r : List Bool}
    (hs : Spelling a.symbolTable.code (fun _ => True) a.bitStream.bits w r)
    (hw : ∀ s ∈ w, 8 ∣ (a.symbolTable.code s).length) :
    Parse (a.withEntries hes).symbolTable.lookup (a.withEntries hes).bitStream.bits
      (w.map fun s => (a.symbolTable.lookup (a.symbolTable.code s)).getD s) r := by
  have hcode : (a.withEntries hes).symbolTable.code = a.symbolTable.code :=
    funext (code_withEntries hes)
  have hs' : Spelling (a.withEntries hes).symbolTable.code
      (fun s => ((a.withEntries hes).symbolTable s).ZeroPadded)
      (a.withEntries hes).bitStream.bits w r := by
    rw [hcode]
    exact ⟨hs.eq_append,
      fun s hsw => ⟨(hs.usable s hsw).1, zeroPadded_of_dvd (by rw [hcode]; exact hw s hsw)⟩,
      fun s hsw t _ => hs.shortest s hsw t trivial, fun t _ => hs.unmatched t trivial⟩
  have hp := hs'.parse (SymbolTable.isLookup _)
  rw [hcode] at hp
  rwa [List.map_congr_left fun s hsw => by rw [lookup_withEntries hes (hw s hsw)]] at hp

end Archive

/-! ### Decompression -/

/-- **Decompression of a file** in terms of the parse. -/
theorem Archive.decompress_eq {a : Archive} (build : Build) (exceptions : Bool)
    (rest : List UInt8) {out : List UInt8} {r : List Bool}
    (hp : Parse a.symbolTable.lookup a.bitStream.bits out r) :
    decompress build exceptions (a.bytes ++ rest) =
      if build = .debug ∧ HuffmanCode.maxLength < r.length then
        .error (.assertion Decoder.tokenAssertion)
      else .ok out := by
  rw [decompress, Hafe.read_bytes, ExceptFold.ok_bind]
  change (Decoder.ofHafe build a.toHafe >>= fun d => pure d.str) = _
  rw [Archive.ofHafe_eq build hp]
  split_ifs
  · rfl
  · rfl

namespace Hafe

/-- The streams begin with files that differ in the padding of the entries only. -/
def PaddingVariant (x y : List UInt8) : Prop :=
  ∃ (a : Archive) (es : List Entry) (rest : List UInt8), x = a.bytes ++ rest ∧
    List.Forall₂ Entry.Agrees a.entries es ∧
    y = magic ++ (a.reserved ++ (toLE 4 a.tableSize ++ (entryBytes es ++
      (toLE 8 a.bitLength ++ a.bitBytes)))) ++ rest

/-- All streams that differ in the padding only are read, and are decompressed to the same
string. -/
def PaddingIgnored (x : List UInt8) : Prop :=
  ∀ (y : List UInt8) (build : Build) (exceptions : Bool), PaddingVariant x y →
    (∃ h is', read (IStream.ofBytes y exceptions) = .ok (h, is')) ∧
      decompress build exceptions y = decompress build exceptions x

/-- When all variants of a file are decompressed to the same string, its codewords are whole
bytes. -/
private theorem exists_spelling_of_paddingIgnored {a : Archive} {rest : List UInt8}
    (h : PaddingIgnored (a.bytes ++ rest)) :
    ∃ w r, Spelling a.symbolTable.code (fun _ => True) a.bitStream.bits w r ∧
      ∀ s ∈ w, 8 ∣ (a.symbolTable.code s).length := by
  have hvariant {es : List Entry} (hes : List.Forall₂ Entry.Agrees a.entries es) :
      decompress .ndebug false ((a.withEntries hes).bytes ++ rest) =
        decompress .ndebug false (a.bytes ++ rest) :=
    (h _ .ndebug false ⟨a, es, rest, rfl, hes, rfl⟩).2
  have hparse {b : Archive} {out : List UInt8} {r : List Bool}
      (hp : Parse b.symbolTable.lookup b.bitStream.bits out r) :
      decompress .ndebug false (b.bytes ++ rest) = .ok out := by
    rw [b.decompress_eq .ndebug false rest hp, if_neg fun hd => Build.noConfusion hd.1]
  obtain ⟨es₀, hes₀, hzeros⟩ := Archive.exists_repadded false a.entries
  obtain ⟨es₁, hes₁, hones⟩ := Archive.exists_repadded true a.entries
  have hp₀ : Parse (a.withEntries hes₀).symbolTable.lookup a.bitStream.bits _ _ := run_parse _
  have hp₁ : Parse (a.withEntries hes₁).symbolTable.lookup a.bitStream.bits _ _ := run_parse _
  -- The symbols put out are the same, so those found with zeros are found with ones.
  have hout := Except.ok.inj ((hparse hp₀).symm.trans
    ((hvariant hes₀).trans ((hvariant hes₁).symm.trans (hparse hp₁))))
  have hs₀ := hp₀.spelling (SymbolTable.isLookup _)
  have hs₁ := hp₁.spelling (SymbolTable.isLookup _)
  have hzero (s : UInt8) : ((a.withEntries hes₀).symbolTable s).ZeroPadded :=
    (Archive.zeroPadded_iff_of_repadded hes₀ hzeros s).mpr (Or.inl rfl)
  have hcode : (a.withEntries hes₀).symbolTable.code = a.symbolTable.code :=
    funext (Archive.code_withEntries hes₀)
  rw [hcode] at hs₀
  refine ⟨_, _, ⟨hs₀.eq_append, fun s hs => ⟨(hs₀.usable s hs).1, trivial⟩,
    fun s hs t _ => hs₀.shortest s hs t (hzero t), fun t _ => hs₀.unmatched t (hzero t)⟩,
    fun s hs => ?_⟩
  rw [hout] at hs
  have hpadded := (Archive.zeroPadded_iff_of_repadded hes₁ hones s).mp (hs₁.usable s hs).2
  have hdvd := hpadded.resolve_left Bool.noConfusion
  rw [← Archive.code_withEntries hes₁, SymbolTable.code,
    ((a.withEntries hes₁).readable_symbolTable s).length_bits]
  exact hdvd

/-- **The padding is ignored** exactly when the bits of the file are spelled by codewords of whole
bytes, none of which begins with another codeword, and a rest that begins with no codeword. -/
theorem paddingIgnored_iff {x : List UInt8} {exceptions : Bool} {h : Hafe} {is' : IStream}
    (hr : read (IStream.ofBytes x exceptions) = .ok (h, is')) :
    PaddingIgnored x ↔
      ∃ w r, Spelling h.symbolTable.code (fun _ => True) h.bitStream.bits w r ∧
        ∀ s ∈ w, 8 ∣ (h.symbolTable.code s).length := by
  constructor
  · intro hignored
    obtain ⟨a, rest, rfl, rfl, -⟩ := read_eq_ok_iff.mp hr
    exact exists_spelling_of_paddingIgnored hignored
  · rintro ⟨w, r, hs, hw⟩ y build exceptions' ⟨a, es, rest, rfl, hes, rfl⟩
    rw [read_bytes] at hr
    obtain ⟨rfl, -⟩ := Prod.mk.inj (Except.ok.inj hr)
    have hrefl : List.Forall₂ Entry.Agrees a.entries a.entries :=
      List.forall₂_same.mpr fun e _ => ⟨rfl, rfl, rfl⟩
    have hp := Archive.parse_withEntries hrefl hs hw
    have hp' := Archive.parse_withEntries hes hs hw
    change (∃ h is', read (IStream.ofBytes ((a.withEntries hes).bytes ++ rest) exceptions') =
      .ok (h, is')) ∧ decompress build exceptions' ((a.withEntries hes).bytes ++ rest) = _
    refine ⟨⟨_, _, read_bytes _ rest exceptions'⟩, ?_⟩
    rw [Archive.decompress_eq build exceptions' rest hp']
    exact (Archive.decompress_eq build exceptions' rest hp).symm

theorem paddingIgnored_iff_fileA :
    PaddingIgnored ((Archive.fileA 0).bytes ++ []) ↔
      ∃ w r, Spelling (Archive.fileA 0).symbolTable.code (fun _ => True)
          (Archive.fileA 0).bitStream.bits w r ∧
        ∀ s ∈ w, 8 ∣ ((Archive.fileA 0).symbolTable.code s).length :=
  paddingIgnored_iff (read_bytes (Archive.fileA 0) [] false)

/-- **The padding matters** for a codeword of one bit: it is found when its byte is zero, and lost
when the other seven bits are ones. -/
theorem not_paddingIgnored_fileA :
    PaddingVariant (Archive.fileA 0).bytes (Archive.fileA 0x7f).bytes ∧
      (∀ build, decompress build false (Archive.fileA 0).bytes = .ok [97] ∧
        decompress build false (Archive.fileA 0x7f).bytes = .ok []) ∧
      ¬ PaddingIgnored (Archive.fileA 0).bytes := by
  have hcode (c s : UInt8) : (Archive.fileA c).symbolTable.code s =
      if s = 97 then (Archive.entryA c).bits else [] :=
    Archive.code_ofEntry (Archive.entryA c) s
  have hzero : ((Archive.fileA 0).symbolTable 97).ZeroPadded := rfl
  have hunique (s : UInt8) (hne : (Archive.fileA 0).symbolTable.code s ≠ []) : s = 97 := by
    by_contra hs
    exact hne ((hcode 0 s).trans (if_neg hs))
  have hmin := (SymbolTable.isLookup (Archive.fileA 0).symbolTable).minimal hzero (by decide)
    fun s _ hne _ => by rw [hunique s hne]
  rw [SymbolTable.lookup_code hzero fun s hs => hunique s (by rw [hs]; decide),
    Option.getD_some] at hmin
  have hp₀ : Parse (Archive.fileA 0).symbolTable.lookup (Archive.fileA 0).bitStream.bits [97] [] :=
    .emit hmin (.stop unmatched_nil)
  have hp₁ : Parse (Archive.fileA 0x7f).symbolTable.lookup (Archive.fileA 0x7f).bitStream.bits []
      [false] := by
    refine .stop ((SymbolTable.isLookup _).unmatched_iff.mpr fun s hz hne _ => ?_)
    rw [hcode] at hne
    split_ifs at hne with hs
    · rw [hs] at hz
      exact absurd hz (by decide)
    · exact hne rfl
  have hvariant : PaddingVariant (Archive.fileA 0).bytes (Archive.fileA 0x7f).bytes :=
    ⟨Archive.fileA 0, [Archive.entryA 0x7f], [], rfl, .cons ⟨rfl, rfl, rfl⟩ .nil, rfl⟩
  have hd₀ (build : Build) : decompress build false (Archive.fileA 0).bytes = .ok [97] :=
    (Archive.decompress_eq build false [] hp₀).trans (if_neg fun h => absurd h.2 (by decide))
  have hd₁ (build : Build) : decompress build false (Archive.fileA 0x7f).bytes = .ok [] :=
    (Archive.decompress_eq build false [] hp₁).trans (if_neg fun h => absurd h.2 (by decide))
  refine ⟨hvariant, fun build => ⟨hd₀ build, hd₁ build⟩, fun hignored => ?_⟩
  have heq := (hignored _ .ndebug false hvariant).2
  rw [hd₀, hd₁] at heq
  cases heq

end Hafe

end HafeCodec
