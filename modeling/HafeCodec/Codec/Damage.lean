import HafeCodec.Codec.Compression
import HafeCodec.Codec.Padding
import HafeCodec.Format.Acceptance
import HafeCodec.Format.Diagnosis

/-!
# Damaged files

Decompression of any bytes ends in a string or in an exception, and the debug build may also fail
an assertion: that of the decoder, or the one on a length of zero, which is not modelled and comes
before an exception. No stream of bytes leads to an access outside of a vector or to a loop without
end (`decompress_outcome`). The exception of the release build is that of the first defect of the
stream (`decompress_reports`). For the files that compression makes more can be said. Cut off
anywhere, such a file is rejected (`decompress_of_truncated`). With other bytes in the place of its
bit stream it is still decompressed, and the symbols in front of the first bit that differs are
those of the input (`decompress_of_damaged`).

## Main definitions

* `Archive.header`, `Archive.withBitBytes`.

## Main results

* `decompress_outcome`, `decompress_reports`.
* `decompress_of_truncated`, `decompress_of_damaged`.
-/

open BitString ShortestMatch

namespace HafeCodec

/-! ### Any stream of bytes -/

section

variable (build : Build) (exceptions : Bool) {l : List UInt8}

/-- Decompression returns exactly on the streams that begin with a file, whose bits are parsed into
the string and into a rest which has at most 255 bits in the debug build. -/
theorem decompress_eq_ok_iff {str : List UInt8} : decompress build exceptions l = .ok str ↔
    ∃ (a : Archive) (rest : List UInt8) (r : List Bool), l = a.bytes ++ rest ∧
      Parse a.symbolTable.lookup a.bitStream.bits str r ∧
      (build = .ndebug ∨ r.length ≤ HuffmanCode.maxLength) := by
  constructor
  · intro hd
    obtain ⟨⟨h, is'⟩, hr, -⟩ := ExceptFold.bind_eq_ok_iff.mp hd
    obtain ⟨a, rest, rfl, -, -⟩ := Hafe.read_eq_ok_iff.mp hr
    have hp : Parse a.symbolTable.lookup a.bitStream.bits _ _ := run_parse _
    rw [a.decompress_eq build exceptions rest hp] at hd
    split_ifs at hd with hlong
    obtain rfl := Except.ok.inj hd
    refine ⟨a, rest, _, rfl, hp, ?_⟩
    cases build with
    | ndebug => exact Or.inl rfl
    | debug => exact Or.inr (Nat.le_of_not_lt fun hlt => hlong ⟨rfl, hlt⟩)
  · rintro ⟨a, rest, r, rfl, hp, hr⟩
    rw [a.decompress_eq build exceptions rest hp, if_neg]
    rintro ⟨rfl, hlt⟩
    exact (hr.resolve_left Build.noConfusion).not_gt hlt

/-- Decompression fails when reading fails, or in the assertion of the debug build. -/
theorem decompress_eq_error_iff {f : Fault} : decompress build exceptions l = .error f ↔
    Hafe.read (IStream.ofBytes l exceptions) = .error f ∨
      (build = .debug ∧ f = .assertion Decoder.tokenAssertion ∧
        ∃ (a : Archive) (rest str : List UInt8) (r : List Bool), l = a.bytes ++ rest ∧
          Parse a.symbolTable.lookup a.bitStream.bits str r ∧
          HuffmanCode.maxLength < r.length) := by
  constructor
  · intro hd
    cases hr : Hafe.read (IStream.ofBytes l exceptions) with
    | error f' =>
      rw [decompress, hr] at hd
      exact Or.inl (congrArg Except.error (Except.error.inj hd))
    | ok p =>
      obtain ⟨h, is'⟩ := p
      obtain ⟨a, rest, rfl, -, -⟩ := Hafe.read_eq_ok_iff.mp hr
      have hp : Parse a.symbolTable.lookup a.bitStream.bits _ _ := run_parse _
      rw [a.decompress_eq build exceptions rest hp] at hd
      split_ifs at hd with hlong
      obtain rfl := Except.error.inj hd
      exact Or.inr ⟨hlong.1, rfl, a, rest, _, _, rfl, hp, hlong.2⟩
  · rintro (hr | ⟨rfl, rfl, a, rest, str, r, rfl, hp, hlong⟩)
    · rw [decompress, hr]
      rfl
    · rw [a.decompress_eq .debug exceptions rest hp, if_pos ⟨rfl, hlong⟩]

/-- **The outcome of decompression** on any stream of bytes. It returns exactly on the streams that
begin with a file, whose bits are parsed into the string and into a rest which has at most 255 bits
in the debug build; on a longer rest the assertion of the debug build fails. The release build
throws on all other streams. -/
theorem decompress_outcome (l : List UInt8) :
    (∀ str, decompress build exceptions l = .ok str ↔
      ∃ (a : Archive) (rest : List UInt8) (r : List Bool), l = a.bytes ++ rest ∧
        Parse a.symbolTable.lookup a.bitStream.bits str r ∧
        (build = .ndebug ∨ r.length ≤ HuffmanCode.maxLength)) ∧
      (decompress build exceptions l = .error (.assertion Decoder.tokenAssertion) ↔
        build = .debug ∧ ∃ (a : Archive) (rest str : List UInt8) (r : List Bool),
          l = a.bytes ++ rest ∧ Parse a.symbolTable.lookup a.bitStream.bits str r ∧
          HuffmanCode.maxLength < r.length) ∧
      ((∃ str, decompress .ndebug exceptions l = .ok str) ∨
        ∃ f, decompress .ndebug exceptions l = .error f ∧ f.IsException ∧
          ∀ (a : Archive) (rest : List UInt8), l ≠ a.bytes ++ rest) := by
  refine ⟨fun str => decompress_eq_ok_iff build exceptions, ?_, ?_⟩
  · rw [decompress_eq_error_iff]
    constructor
    · rintro (hr | ⟨hbuild, -, hlong⟩)
      · obtain hf | ⟨what, hf⟩ := Hafe.fault_of_read hr
        · cases hf
        · cases hf
      · exact ⟨hbuild, hlong⟩
    · exact fun h => Or.inr ⟨h.1, rfl, h.2⟩
  · cases hd : decompress .ndebug exceptions l with
    | ok str => exact Or.inl ⟨str, rfl⟩
    | error f =>
      obtain hr | ⟨hbuild, -⟩ := (decompress_eq_error_iff .ndebug exceptions).mp hd
      · refine Or.inr ⟨f, rfl, Hafe.fault_of_read hr, ?_⟩
        rintro a rest rfl
        rw [Hafe.read_bytes] at hr
        cases hr
      · cases hbuild

/-- **What decompression reports** on fewer than `2^64` bytes, in the release build: the exception
is that of the first defect of the stream, with one of five messages if it is not thrown by the
stream itself. -/
theorem decompress_reports (hl : l.length < 2 ^ 64) :
    (∀ f, decompress .ndebug exceptions l = .error f ↔ Defect exceptions l f) ∧
      ∀ what, decompress .ndebug exceptions l = .error (.runtimeError what) →
        what ∈ readerMessages := by
  have hreport (f : Fault) :
      decompress .ndebug exceptions l = .error f ↔ Defect exceptions l f := by
    rw [decompress_eq_error_iff, Hafe.read_eq_error_iff hl]
    exact or_iff_left fun h => Build.noConfusion h.1
  refine ⟨hreport, fun what h => ?_⟩
  obtain hf | ⟨what', hwhat, hf⟩ := ((hreport _).mp h).fault
  · cases hf
  · rwa [Fault.runtimeError.inj hf]

end

/-- A file that ends in its only entry: the stream throws although its exceptions were off. -/
theorem decompress_reports_entry : decompress .ndebug false
    (Hafe.magic ++ (List.replicate 16 0 ++ (toLE 4 3 ++ [97, 1]))) = .error .iosFailure := by
  refine ((decompress_reports false (by decide)).1 _).mpr ?_
  refine .table List.length_replicate (by decide) ⟨[], [97, 1], rfl, fun es' hes' => ?_, ?_⟩
  · rw [List.prefix_nil.mp hes']
    decide
  · exact .code (by decide) (by decide)

/-! ### Another bit stream -/

namespace Archive

variable (a : Archive)

/-- The bytes of a file in front of its bit stream. -/
def header : List UInt8 :=
  Hafe.magic ++ (a.reserved ++ (toLE 4 a.tableSize ++ (entryBytes a.entries ++
    toLE 8 a.bitLength)))

theorem bytes_eq : a.bytes = a.header ++ a.bitBytes := by
  simp only [bytes, header, List.append_assoc]

/-- The file with other bytes in the place of its bit stream. -/
def withBitBytes (v : List UInt8) (hv : v.length = a.bitBytes.length) : Archive where
  reserved := a.reserved
  tableSize := a.tableSize
  entries := a.entries
  bitLength := a.bitLength
  bitBytes := v
  length_reserved := a.length_reserved
  tableSize_lt := a.tableSize_lt
  counts := a.counts
  bitLength_pos := a.bitLength_pos
  bitLength_lt := a.bitLength_lt
  length_bitBytes := hv.trans a.length_bitBytes

variable {v : List UInt8} (hv : v.length = a.bitBytes.length)

theorem bytes_withBitBytes : (a.withBitBytes v hv).bytes = a.header ++ v :=
  (a.withBitBytes v hv).bytes_eq

end Archive

/-! ### Files cut off -/

section Compressed

variable {Q : PriorityQueue} {past : UInt32} {str bytes : List UInt8}

/-- **A compressed file that is cut off** is rejected with an exception, wherever it is cut off. -/
theorem decompress_of_truncated (hc : compress Q past str = .ok bytes) {p : List UInt8}
    (hp : p <+: bytes) (hne : p ≠ bytes) (build : Build) (exceptions : Bool) :
    ∃ f, decompress build exceptions p = .error f ∧ f.IsException := by
  obtain ⟨st, e, -, ht, -, he, hbits, -, hw⟩ := exists_table_of_compress hc
  have hlt : e.bitLength < 2 ^ 64 := he.readable.inBounds.length_lt
  have hrows := Hafe.length_rows_lt ht.readable fun s => (ht.bitLength_le s).trans (by decide)
  obtain ⟨f, hf, hex⟩ :=
    Hafe.exists_error_of_strict_prefix (.ofParts st hlt) hw hrows hp hne exceptions
  exact ⟨f, by rw [decompress, hf]; rfl, hex⟩

/-! ### Damaged bit streams -/

/-- Symbols whose codewords are found at the beginning of a bit stream are put out first. -/
theorem Encoder.Tabled.prefix_run {st : SymbolTable} (ht : Encoder.Tabled str st) {u : List UInt8}
    {l : List Bool} (hu : u <+: (str.filter fun s => Counted str s))
    (hl : u.flatMap st.code <+: l) : u <+: (run st.lookup l).1 := by
  obtain ⟨m, rfl⟩ := hl
  refine prefix_run_flatMap (fun s hs => ht.minimal ?_) m
  simpa using (List.mem_filter.mp (hu.subset hs)).2

/-- **A compressed file with another bit stream** is decompressed in both builds, if at least two
symbols are counted. The symbols whose codewords lie in front of the first difference of the bit
streams are those of the input. -/
theorem decompress_of_damaged (hc : compress Q past str = .ok bytes)
    (htwo : 2 ≤ (symbols.filter fun s => Counted str s).length) :
    ∃ (st : SymbolTable) (header stream : List UInt8), Encoder.tableOf Q past str = .ok st ∧
      bytes = header ++ stream ∧
      stream.length = ((str.map fun c => (st c).bitLength).sum + 7) / 8 ∧
      ∀ stream' : List UInt8, stream'.length = stream.length →
        ∃ w, (∀ build exceptions rest,
            decompress build exceptions (header ++ stream' ++ rest) = .ok w) ∧
          ∀ u, u <+: (str.filter fun s => Counted str s) →
            (unpack stream').take (u.flatMap st.code).length =
              (unpack stream).take (u.flatMap st.code).length → u <+: w := by
  obtain ⟨st, e, hst, ht, -, he, hbits, -, hw⟩ := exists_table_of_compress hc
  obtain ⟨a, hw', -, -, -, htable, hlen, hbytes⟩ := (ht.storable he hbits).exists_write
  obtain rfl := Except.ok.inj (hw'.symm.trans hw)
  have hidx : a.bitLength = e.bitIdx := hlen
  have hstream : a.bitBytes = e.effectiveBytes := hbytes
  have hlookup : a.symbolTable.lookup = st.lookup := by
    rw [htable]
    exact SymbolTable.lookup_stored ht.readable ht.zeroPadded
  refine ⟨st, a.header, a.bitBytes, hst, a.bytes_eq, ?_, fun stream' hlen' => ?_⟩
  · rw [a.length_bitBytes, hidx, ← Encoder.length_flatMap_code ht.readable, ← hbits,
      he.readable.length_bits]
  have hp : Parse st.lookup ((unpack stream').take a.bitLength) _ _ := run_parse _
  have hrest := ht.length_rest_le htwo hp
  refine ⟨(run st.lookup ((unpack stream').take a.bitLength)).1, fun build exceptions rest => ?_,
    fun u hu heq => ht.prefix_run hu ?_⟩
  · rw [← hlookup] at hp hrest ⊢
    rw [← a.bytes_withBitBytes hlen',
      (a.withBitBytes stream' hlen').decompress_eq build exceptions rest hp, if_neg]
    rintro ⟨-, hlong⟩
    exact absurd hlong (Nat.not_lt.mpr (hrest.trans (by decide)))
  -- The bits of the symbols are found at the beginning of both bit streams.
  have hpre : u.flatMap st.code <+: e.bits := by
    obtain ⟨v, hv⟩ := hu
    rw [hbits, ← ht.flatMap_code_filter str, ← hv, List.flatMap_append]
    exact List.prefix_append _ _
  have hsize : (u.flatMap st.code).length ≤ a.bitLength := by
    rw [hidx, ← he.readable.length_bits]
    exact hpre.length_le
  have htake : (unpack stream').take (u.flatMap st.code).length = u.flatMap st.code := by
    rw [heq, hstream, ← List.prefix_iff_eq_take.mp]
    rw [← he.readable.take_unpack_effectiveBytes] at hpre
    exact hpre.trans (List.take_prefix _ _)
  rw [← htake]
  exact List.take_prefix_take_left hsize

theorem decompress_of_damaged_aab :
    ∃ bytes, compress (MinQueue.sortedList _) 0 [97, 97, 98] = .ok bytes ∧
      ∃ (st : SymbolTable) (header stream : List UInt8),
        Encoder.tableOf (MinQueue.sortedList _) 0 [97, 97, 98] = .ok st ∧
        bytes = header ++ stream ∧
        stream.length = (([97, 97, 98].map fun c => (st c).bitLength).sum + 7) / 8 ∧
        ∀ stream' : List UInt8, stream'.length = stream.length →
          ∃ w, (∀ build exceptions rest,
              decompress build exceptions (header ++ stream' ++ rest) = .ok w) ∧
            ∀ u, u <+: ([97, 97, 98].filter fun s => Counted [97, 97, 98] s) →
              (unpack stream').take (u.flatMap st.code).length =
                (unpack stream).take (u.flatMap st.code).length → u <+: w := by
  obtain ⟨bytes, hc⟩ := exists_compress_aab
  exact ⟨bytes, hc, decompress_of_damaged hc (by decide +kernel)⟩

end Compressed

end HafeCodec
