import HafeCodec.Format.Archive

/-!
# What the reader reports

Every stream that the reader rejects has a first defect, which decides the exception thrown
(`Hafe.read_eq_error_iff`). Since reading the table enables the exceptions of the stream, a stream
that ends in the table or behind it is reported by the stream itself; the messages of the source for
an incomplete entry, for the missing size of the bit stream and for an incomplete bit stream are
never used (`Defect.fault`).

## Main definitions

* `EntryDefect`, `TableDefect`, `Defect`: the first defect of an entry, a table and a stream.
* `readerMessages`.

## Main results

* `Hafe.readNextEntry_eq_error_iff`, `Hafe.readEntries_eq_error_iff`.
* `Hafe.read_eq_error_iff`, `Defect.fault`.
-/

open BitString

namespace HafeCodec

open IStream

/-! ### Checked reads -/

/-- What is thrown when a stream ends too early: the stream throws if its exceptions are enabled,
and the reader otherwise. -/
def shortRead (x : Bool) (what : String) : Fault :=
  if x then .iosFailure else .runtimeError what

theorem IStream.readOrThrow_eq_error_iff {l : List UInt8} {x : Bool} {n : ℕ} {what : String}
    {f : Fault} : (ofBytes l x).readOrThrow n what = .error f ↔
      l.length < n ∧ f = shortRead x what := by
  rcases lt_or_ge l.length n with hlt | hge
  · have hread : (ofBytes l x).readOrThrow n what = .error (shortRead x what) := by
      rw [readOrThrow, read, if_neg fun hn => Nat.not_le.mpr hlt hn.2]
      cases x <;> rfl
    rw [hread, Except.error.injEq]
    exact ⟨fun h => ⟨hlt, h.symm⟩, fun h => h.2.symm⟩
  · obtain ⟨v, w, -, -, hok⟩ | ⟨hlt, -⟩ := readOrThrow_cases l x n what
    · rw [hok]
      constructor
      · intro h
        cases h
      · exact fun h => absurd hge (Nat.not_le.mpr h.1)
    · exact absurd hge (Nat.not_le.mpr hlt)

/-! ### The first defect -/

/-- The stream does not begin with an entry. -/
inductive EntryDefect : List UInt8 → Fault → Prop
  | header {l : List UInt8} (h : l.length < 2) : EntryDefect l .iosFailure
  | zero {sym : UInt8} {l : List UInt8} : EntryDefect (sym :: 0 :: l)
      (.runtimeError "refuse to create a symbol table entry with size 0")
  | code {sym len : UInt8} {l : List UInt8} (h0 : len ≠ 0)
      (h : l.length < (len.toNat + 7) / 8) : EntryDefect (sym :: len :: l) .iosFailure

/-- Behind some entries, before the count `b` has reached the size announced, the stream does not
go on with an entry. -/
def TableDefect (bsize b : ℕ) (l : List UInt8) (f : Fault) : Prop :=
  ∃ es w, l = entryBytes es ++ w ∧ (∀ es', es' <+: es → b + (entryBytes es').length ≠ bsize) ∧
    EntryDefect w f

/-- The first defect of a stream, in the order of the format. -/
inductive Defect (x : Bool) : List UInt8 → Fault → Prop
  | short {l} (h : l.length < 4) : Defect x l (shortRead x "missing or invalid magic number")
  | magic {m l} (hm : m.length = 4) (h : m ≠ Hafe.magic) :
      Defect x (m ++ l) (.runtimeError "missing or invalid magic number")
  | reserved {l} (h : l.length < 16) :
      Defect x (Hafe.magic ++ l) (shortRead x "missing reserved bytes")
  | tableSize {r l} (hr : r.length = 16) (h : l.length < 4) :
      Defect x (Hafe.magic ++ (r ++ l)) (shortRead x "missing symbol table length")
  | table {r n l f} (hr : r.length = 16) (hn : n < 2 ^ 32) (h : TableDefect n 0 l f) :
      Defect x (Hafe.magic ++ (r ++ (toLE 4 n ++ l))) f
  | bitsz {r n es l} (hr : r.length = 16) (hn : n < 2 ^ 32) (hes : (entryBytes es).length = n)
      (h : l.length < 8) :
      Defect x (Hafe.magic ++ (r ++ (toLE 4 n ++ (entryBytes es ++ l)))) .iosFailure
  | bitStream {r n es k l} (hr : r.length = 16) (hn : n < 2 ^ 32)
      (hes : (entryBytes es).length = n) (hk : 0 < k) (hlt : k + 7 < 2 ^ 64)
      (h : l.length < (k + 7) / 8) :
      Defect x (Hafe.magic ++ (r ++ (toLE 4 n ++ (entryBytes es ++ (toLE 8 k ++ l))))) .iosFailure
  | noBits {r n es k l} (hr : r.length = 16) (hn : n < 2 ^ 32)
      (hes : (entryBytes es).length = n) (hk : k < 2 ^ 64) (h : k = 0 ∨ 2 ^ 64 ≤ k + 7) :
      Defect x (Hafe.magic ++ (r ++ (toLE 4 n ++ (entryBytes es ++ (toLE 8 k ++ l)))))
        (.runtimeError "object creation could be result in bits(0) capacity which is not allowed")

/-- The messages of the reader that can be seen. -/
def readerMessages : List String :=
  ["missing or invalid magic number", "missing reserved bytes", "missing symbol table length",
    "refuse to create a symbol table entry with size 0",
    "object creation could be result in bits(0) capacity which is not allowed"]

theorem EntryDefect.fault {l : List UInt8} {f : Fault} (h : EntryDefect l f) :
    f = .iosFailure ∨ ∃ what ∈ readerMessages, f = .runtimeError what := by
  cases h with
  | header h => exact Or.inl rfl
  | zero => exact Or.inr ⟨_, by decide, rfl⟩
  | code h0 h => exact Or.inl rfl

theorem shortRead_fault (x : Bool) (what : String) (h : what ∈ readerMessages) :
    shortRead x what = .iosFailure ∨ ∃ what' ∈ readerMessages, shortRead x what =
      .runtimeError what' := by
  cases x with
  | true => exact Or.inl rfl
  | false => exact Or.inr ⟨what, h, rfl⟩

/-- Every defect is reported by the stream or by one of five messages. -/
theorem Defect.fault {x : Bool} {l : List UInt8} {f : Fault} (h : Defect x l f) :
    f = .iosFailure ∨ ∃ what ∈ readerMessages, f = .runtimeError what := by
  cases h with
  | short h => exact shortRead_fault x _ (by decide)
  | magic hm h => exact Or.inr ⟨_, by decide, rfl⟩
  | reserved h => exact shortRead_fault x _ (by decide)
  | tableSize hr h => exact shortRead_fault x _ (by decide)
  | table hr hn h =>
    obtain ⟨es, w, -, -, hd⟩ := h
    exact hd.fault
  | bitsz hr hn hes h => exact Or.inl rfl
  | bitStream hr hn hes hk hlt h => exact Or.inl rfl
  | noBits hr hn hes hk h => exact Or.inr ⟨_, by decide, rfl⟩

namespace Hafe

variable {l : List UInt8} {x : Bool} {f : Fault} {map table : SymbolTable} {bsize b fuel : ℕ}

/-! ### Entries -/

/-- A stream begins with an entry or has a defect. -/
theorem exists_entryDefect (h : ∀ (e : Entry) (w : List UInt8), l ≠ e.bytes ++ w) :
    ∃ f, EntryDefect l f := by
  match l with
  | [] => exact ⟨_, .header Nat.zero_lt_two⟩
  | [sym] => exact ⟨_, .header Nat.one_lt_two⟩
  | sym :: len :: l =>
    by_cases h0 : len = 0
    · rw [h0]
      exact ⟨_, .zero⟩
    refine ⟨_, .code h0 (Nat.lt_of_not_le fun hle => ?_)⟩
    refine h ⟨sym, len, l.take ((len.toNat + 7) / 8), h0, List.length_take_of_le hle⟩
      (l.drop ((len.toNat + 7) / 8)) ?_
    rw [Entry.bytes, List.cons_append, List.cons_append, List.take_append_drop]

theorem readNextEntry_of_entryDefect (map : SymbolTable) (h : EntryDefect l f) :
    readNextEntry map (ofBytes l true) = .error f := by
  cases h with
  | header h =>
    match l, h with
    | [], _ => rfl
    | [sym], _ => rfl
  | zero =>
    rw [readNextEntry, readByte_cons, ExceptFold.ok_bind]
    dsimp only
    rw [readByte_cons, ExceptFold.ok_bind]
    dsimp only
    rw [if_pos (by decide)]
    rfl
  | @code sym len l h0 h =>
    have hlt := len.toNat_lt
    have hlen : 0 < len.toNat := Nat.pos_of_ne_zero fun h => h0 (UInt8.toNat_inj.mp h)
    rw [readNextEntry, readByte_cons, ExceptFold.ok_bind]
    dsimp only
    rw [readByte_cons, ExceptFold.ok_bind]
    dsimp only
    rw [BitArray.bytesRequired_eq (by omega), if_neg (by omega), read_of_length_lt h]
    rfl

/-- **Reading one entry** fails exactly on the defects of an entry. -/
theorem readNextEntry_eq_error_iff :
    readNextEntry map (ofBytes l true) = .error f ↔ EntryDefect l f := by
  refine ⟨fun h => ?_, readNextEntry_of_entryDefect map⟩
  obtain ⟨e, w, -, hok⟩ | ⟨hnone, -⟩ := readNextEntry_cases map l
  · rw [hok] at h
    cases h
  · obtain ⟨f', hf'⟩ := exists_entryDefect hnone
    have h' := readNextEntry_of_entryDefect map hf'
    rw [h] at h'
    rwa [Except.error.inj h']

theorem not_entryDefect_append (e : Entry) (w : List UInt8) : ¬ EntryDefect (e.bytes ++ w) f := by
  intro h
  have hread := readNextEntry_of_entryDefect (fun _ => HuffmanCode.blank) h
  obtain ⟨e', w', -, hok⟩ | ⟨hnone, -⟩ :=
    readNextEntry_cases (fun _ => HuffmanCode.blank) (e.bytes ++ w)
  · rw [hok] at hread
    cases hread
  · exact hnone e w rfl

/-! ### The table -/

/-- The defect of a table that begins with an entry is one of the rest. -/
theorem tableDefect_append_iff {e : Entry} {w : List UInt8} (hb : b ≠ bsize) :
    TableDefect bsize b (e.bytes ++ w) f ↔ TableDefect bsize (b + e.size) w f := by
  constructor
  · rintro ⟨es, w', heq, hcount, hd⟩
    cases es with
    | nil => exact absurd (heq ▸ hd : EntryDefect (e.bytes ++ w) f) (not_entryDefect_append e w)
    | cons e' es =>
      rw [entryBytes_cons, List.append_assoc] at heq
      obtain ⟨rfl, rfl⟩ := Entry.eq_of_append_eq heq
      refine ⟨es, w', rfl, fun es' hes' => ?_, hd⟩
      have hne := hcount (e :: es') (List.cons_prefix_cons.mpr ⟨rfl, hes'⟩)
      rwa [length_entryBytes_cons, ← Nat.add_assoc] at hne
  · rintro ⟨es, w', rfl, hcount, hd⟩
    refine ⟨e :: es, w', by rw [entryBytes_cons, List.append_assoc], fun es' hes' => ?_, hd⟩
    cases es' with
    | nil => exact hb
    | cons e' es' =>
      obtain ⟨rfl, hpre⟩ := List.cons_prefix_cons.mp hes'
      rw [length_entryBytes_cons, ← Nat.add_assoc]
      exact hcount es' hpre

/-- **The table loop** fails exactly on the defects of a table. -/
theorem readEntries_eq_error_iff (hfuel : l.length < fuel) (hlt : b + l.length < 2 ^ 64) :
    readEntries bsize fuel b table (ofBytes l true) = .error f ↔ TableDefect bsize b l f := by
  induction fuel generalizing l b table with
  | zero => exact absurd hfuel (Nat.not_lt_zero _)
  | succ fuel ih =>
    rw [readEntries]
    by_cases hb : b = bsize
    · rw [if_pos hb]
      constructor
      · intro h
        cases h
      · rintro ⟨es, w, -, hcount, -⟩
        exact absurd hb (hcount [] List.nil_prefix)
    rw [if_neg hb]
    obtain ⟨e, w, rfl, hread⟩ | ⟨hnone, -⟩ := readNextEntry_cases table l
    · rw [List.length_append, e.length_bytes] at hfuel hlt
      have hpos : 0 < e.size := Nat.add_pos_left Nat.zero_lt_two _
      have hu : u64 (b + e.size) = b + e.size := u64_of_lt (by omega)
      rw [hread, ExceptFold.ok_bind]
      dsimp only
      rw [hu, if_neg (by omega), ih (by omega) (by omega), tableDefect_append_iff hb]
    · rw [ExceptFold.bind_eq_error_iff, readNextEntry_eq_error_iff]
      constructor
      · rintro (hd | ⟨⟨n, table', is'⟩, hok, -⟩)
        · refine ⟨[], l, rfl, fun es' hes' => ?_, hd⟩
          rw [List.prefix_nil.mp hes']
          exact hb
        · obtain ⟨f', hf'⟩ := exists_entryDefect hnone
          rw [readNextEntry_of_entryDefect table hf'] at hok
          cases hok
      · rintro ⟨es, w, rfl, -, hd⟩
        cases es with
        | nil => exact Or.inl hd
        | cons e es => exact absurd (List.append_assoc _ _ _) (hnone e (entryBytes es ++ w))

/-! ### The stream -/

theorem readMagic_eq_error_iff :
    readMagic (ofBytes l x) = .error f ↔
      (l.length < 4 ∧ f = shortRead x "missing or invalid magic number") ∨
      ∃ m w, l = m ++ w ∧ m.length = 4 ∧ m ≠ magic ∧
        f = .runtimeError "missing or invalid magic number" := by
  rw [readMagic, ExceptFold.bind_eq_error_iff, readOrThrow_eq_error_iff]
  refine or_congr Iff.rfl ⟨?_, ?_⟩
  · rintro ⟨⟨m, is⟩, hok, herr⟩
    obtain ⟨w, rfl, hm, rfl⟩ := readOrThrow_eq_ok_iff.mp hok
    dsimp only at herr
    split_ifs at herr with hne
    · exact ⟨m, w, rfl, hm, hne, (Except.error.inj herr).symm⟩
    · cases herr
  · rintro ⟨m, w, rfl, hm, hne, rfl⟩
    exact ⟨_, readOrThrow_eq_ok_iff.mpr ⟨w, rfl, hm, rfl⟩, if_pos hne⟩

/-- The vector constructor fails on the lengths whose number of bytes is zero. -/
theorem ofVector_eq_error_iff {v : List UInt8} {k : ℕ} (hk : k < 2 ^ 64)
    (hv : v.length = BitArray.bytesRequired k) : BitArray.ofVector v k = .error f ↔
      (k = 0 ∨ 2 ^ 64 ≤ k + 7) ∧ f = .runtimeError
        "object creation could be result in bits(0) capacity which is not allowed" := by
  have hiff := BitArray.bytesRequired_ne_zero_iff hk
  by_cases h0 : BitArray.bytesRequired k = 0
  · rw [BitArray.ofVector, if_pos (hv.trans h0), Except.error.injEq]
    have hnot : ¬ (0 < k ∧ k + 7 < 2 ^ 64) := fun h => hiff.mpr h h0
    exact ⟨fun h => ⟨by omega, h.symm⟩, fun h => h.2.symm⟩
  · obtain ⟨hpos, hlt⟩ := hiff.mp h0
    rw [BitArray.bytesRequired_eq hlt] at hv
    rw [BitArray.ofVector_eq_ok (by omega) hlt (by omega) (by omega)]
    constructor
    · intro h
      cases h
    · intro h
      omega

/-! A reader that fails behind a part that is read. -/

theorem bind_readMagic {α : Type} {w : List UInt8} {g : IStream → Outcome α}
    (hg : g (ofBytes w x) = .error f) :
    (readMagic (ofBytes (magic ++ w) x) >>= g) = .error f :=
  ExceptFold.bind_eq_error_iff.mpr (Or.inr ⟨_, readMagic_eq_ok_iff.mpr ⟨w, rfl, rfl⟩, hg⟩)

theorem bind_readOrThrow {α : Type} {v w : List UInt8} {n : ℕ} {what : String}
    {g : List UInt8 × IStream → Outcome α} (hv : v.length = n)
    (hg : g (v, ofBytes w x) = .error f) :
    ((ofBytes (v ++ w) x).readOrThrow n what >>= g) = .error f :=
  ExceptFold.bind_eq_error_iff.mpr
    (Or.inr ⟨_, readOrThrow_eq_ok_iff.mpr ⟨w, rfl, hv, rfl⟩, hg⟩)

theorem bind_shortRead {α : Type} {n : ℕ} {what : String}
    {g : List UInt8 × IStream → Outcome α} (h : l.length < n) :
    ((ofBytes l x).readOrThrow n what >>= g) = .error (shortRead x what) :=
  ExceptFold.bind_eq_error_iff.mpr (Or.inl (readOrThrow_eq_error_iff.mpr ⟨h, rfl⟩))

theorem bind_readSymbolTable {α : Type} {es : List Entry} {w : List UInt8} {n : ℕ}
    {g : SymbolTable × IStream → Outcome α} (hfuel : (entryBytes es ++ w).length < fuel)
    (hn : n < 2 ^ 32) (hes : (entryBytes es).length = n)
    (hg : g (insertAll (fun _ => HuffmanCode.blank) es, ofBytes w true) = .error f) :
    (readSymbolTable fuel (ofBytes (entryBytes es ++ w) x) (fromLE (toLE 4 n)) >>= g) =
      .error f := by
  have hcounts : Counts n 0 es := (counts_iff (by rw [hes]; omega)).mpr (by rw [hes]; omega)
  rw [readSymbolTable_eq, fromLE_toLE hn]
  exact ExceptFold.bind_eq_error_iff.mpr
    (Or.inr ⟨_, (readEntries_eq_ok_iff hfuel).mpr ⟨es, w, rfl, hcounts, rfl, rfl⟩, hg⟩)

/-- **The reader** with enough rounds fails exactly on the streams with a defect. -/
theorem readBounded_eq_error_iff (hfuel : l.length < fuel) (hlt : l.length < 2 ^ 64) :
    readBounded fuel (ofBytes l x) = .error f ↔ Defect x l f := by
  constructor
  · intro hr
    rcases ExceptFold.bind_eq_error_iff.mp hr with h₁ | ⟨is₁, h₁, hr⟩
    · obtain ⟨hshort, rfl⟩ | ⟨m, w, rfl, hm, hne, rfl⟩ := readMagic_eq_error_iff.mp h₁
      · exact .short hshort
      · exact .magic hm hne
    obtain ⟨l₁, rfl, rfl⟩ := readMagic_eq_ok_iff.mp h₁
    rcases ExceptFold.bind_eq_error_iff.mp hr with h₂ | ⟨⟨reserved, is₂⟩, h₂, hr⟩
    · obtain ⟨hshort, rfl⟩ := readOrThrow_eq_error_iff.mp h₂
      exact .reserved hshort
    obtain ⟨l₂, rfl, hreserved, rfl⟩ := readOrThrow_eq_ok_iff.mp h₂
    rcases ExceptFold.bind_eq_error_iff.mp hr with h₃ | ⟨⟨tableSize, is₃⟩, h₃, hr⟩
    · obtain ⟨hshort, rfl⟩ := readOrThrow_eq_error_iff.mp h₃
      exact .tableSize hreserved hshort
    obtain ⟨l₃, rfl, hsize, rfl⟩ := readOrThrow_eq_ok_iff.mp h₃
    obtain ⟨n, hn, rfl⟩ : ∃ n, n < 2 ^ 32 ∧ tableSize = toLE 4 n := by
      refine ⟨fromLE tableSize, ?_, (hsize ▸ toLE_fromLE tableSize).symm⟩
      have := fromLE_lt tableSize
      rwa [hsize] at this
    have hle : l₃.length < fuel ∧ l₃.length < 2 ^ 64 := by
      simp only [List.length_append] at hfuel hlt
      omega
    rcases ExceptFold.bind_eq_error_iff.mp hr with h₄ | ⟨⟨table, is₄⟩, h₄, hr⟩
    · rw [readSymbolTable_eq] at h₄
      rw [readEntries_eq_error_iff hle.1 (by omega), fromLE_toLE hn] at h₄
      exact .table hreserved hn h₄
    rw [readSymbolTable_eq] at h₄
    obtain ⟨es, l₄, rfl, hcounts, rfl, rfl⟩ := (readEntries_eq_ok_iff hle.1).mp h₄
    rw [fromLE_toLE hn, counts_iff (by rw [List.length_append] at hle; omega), Nat.zero_add]
      at hcounts
    rcases ExceptFold.bind_eq_error_iff.mp hr with h₅ | ⟨⟨bitsz, is₅⟩, h₅, hr⟩
    · obtain ⟨hshort, rfl⟩ := readOrThrow_eq_error_iff.mp h₅
      exact .bitsz hreserved hn hcounts hshort
    obtain ⟨l₅, rfl, hbitsz, rfl⟩ := readOrThrow_eq_ok_iff.mp h₅
    obtain ⟨k, hk, rfl⟩ : ∃ k, k < 2 ^ 64 ∧ bitsz = toLE 8 k := by
      refine ⟨fromLE bitsz, ?_, (hbitsz ▸ toLE_fromLE bitsz).symm⟩
      have := fromLE_lt bitsz
      rwa [hbitsz] at this
    dsimp only at hr
    rw [fromLE_toLE hk] at hr
    rcases ExceptFold.bind_eq_error_iff.mp hr with h₆ | ⟨⟨bitBytes, is₆⟩, h₆, hr⟩
    · obtain ⟨hshort, rfl⟩ := readOrThrow_eq_error_iff.mp h₆
      obtain ⟨hpos, hk7⟩ := (BitArray.bytesRequired_ne_zero_iff hk).mp (by omega)
      rw [BitArray.bytesRequired_eq hk7] at hshort
      exact .bitStream hreserved hn hcounts hpos hk7 hshort
    obtain ⟨l₆, rfl, hbitBytes, rfl⟩ := readOrThrow_eq_ok_iff.mp h₆
    rcases ExceptFold.bind_eq_error_iff.mp hr with h₇ | ⟨bits, -, h₇⟩
    · obtain ⟨hnone, rfl⟩ := (ofVector_eq_error_iff hk hbitBytes).mp h₇
      exact .noBits hreserved hn hcounts hk hnone
    · cases h₇
  · intro hd
    rw [readBounded]
    cases hd with
    | short h =>
      exact ExceptFold.bind_eq_error_iff.mpr
        (Or.inl (readMagic_eq_error_iff.mpr (Or.inl ⟨h, rfl⟩)))
    | magic hm h =>
      exact ExceptFold.bind_eq_error_iff.mpr
        (Or.inl (readMagic_eq_error_iff.mpr (Or.inr ⟨_, _, rfl, hm, h, rfl⟩)))
    | reserved h => exact bind_readMagic (bind_shortRead h)
    | tableSize hr h => exact bind_readMagic (bind_readOrThrow hr (bind_shortRead h))
    | @table r n l f hr hn h =>
      have hle : l.length < fuel ∧ l.length < 2 ^ 64 := by
        simp only [List.length_append] at hfuel hlt
        omega
      refine bind_readMagic (bind_readOrThrow hr (bind_readOrThrow (length_toLE 4 n) ?_))
      refine ExceptFold.bind_eq_error_iff.mpr (Or.inl ?_)
      rw [readSymbolTable_eq, fromLE_toLE hn]
      exact (readEntries_eq_error_iff hle.1 (by omega)).mpr h
    | @bitsz r n es l hr hn hes h =>
      have hle : (entryBytes es ++ l).length < fuel := by
        simp only [List.length_append] at hfuel ⊢
        omega
      exact bind_readMagic (bind_readOrThrow hr (bind_readOrThrow (length_toLE 4 n)
        (bind_readSymbolTable hle hn hes (bind_shortRead h))))
    | @bitStream r n es k l hr hn hes hk hk7 h =>
      have hle : (entryBytes es ++ (toLE 8 k ++ l)).length < fuel := by
        simp only [List.length_append] at hfuel ⊢
        omega
      have hshort : l.length < BitArray.bytesRequired (fromLE (toLE 8 k)) := by
        rwa [fromLE_toLE (by omega), BitArray.bytesRequired_eq hk7]
      exact bind_readMagic (bind_readOrThrow hr (bind_readOrThrow (length_toLE 4 n)
        (bind_readSymbolTable hle hn hes
          (bind_readOrThrow (length_toLE 8 k) (bind_shortRead hshort)))))
    | @noBits r n es k l hr hn hes hk h =>
      have hle : (entryBytes es ++ (toLE 8 k ++ l)).length < fuel := by
        simp only [List.length_append] at hfuel ⊢
        omega
      have hnil : ([] : List UInt8).length = BitArray.bytesRequired (fromLE (toLE 8 k)) := by
        by_contra hne
        have hpos := (BitArray.bytesRequired_ne_zero_iff hk).mp
          (by rwa [fromLE_toLE hk, eq_comm] at hne)
        omega
      refine bind_readMagic (bind_readOrThrow hr (bind_readOrThrow (length_toLE 4 n)
        (bind_readSymbolTable hle hn hes
          (bind_readOrThrow (length_toLE 8 k) (bind_readOrThrow (v := []) hnil ?_)))))
      refine ExceptFold.bind_eq_error_iff.mpr (Or.inl ?_)
      exact (ofVector_eq_error_iff ((fromLE_toLE hk).trans_lt hk) hnil).mpr
        ⟨by rwa [fromLE_toLE hk], rfl⟩

/-- **The reader** fails exactly on the streams with a defect, which decides the exception. -/
theorem read_eq_error_iff (hlt : l.length < 2 ^ 64) :
    read (ofBytes l x) = .error f ↔ Defect x l f :=
  readBounded_eq_error_iff (Nat.lt_succ_self l.length) hlt

end Hafe

end HafeCodec
