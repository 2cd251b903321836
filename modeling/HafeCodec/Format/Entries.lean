import HafeCodec.BitArray.Bits
import HafeCodec.Format.Hafe

/-!
# The entries of the stored table

The table of a file is a sequence of entries that are not empty. The reader takes them off the
stream one by one until its count of bytes equals the size announced; the count is kept modulo
`2^64`, and `Counts` says where it ends. Given enough rounds, the loop returns the table of the
entries that end there, and throws when the stream has none (`Hafe.readEntries_cases`). On fewer
than `2^64` bytes the count is the exact sum (`counts_iff`).

## Main definitions

* `Entry`, `Entry.bytes`, `Entry.insert`.
* `Counts`: the condition under which the table loop ends.
* `entryBytes`, `insertAll`.

## Main results

* `IStream.readOrThrow_cases`: what a checked read can do.
* `Hafe.readNextEntry_cases`: what reading one entry can do.
* `Hafe.readEntries_cases`, `Hafe.readEntries_eq_ok_iff`: what the table loop can do.
* `counts_iff`, `insertAll_eq`.
-/

open BitString

namespace HafeCodec

/-! ### Streams -/

namespace IStream

variable {l v w : List UInt8} {x : Bool} {n : ℕ} {what : String} {is' : IStream}

theorem read_append (v w : List UInt8) (x : Bool) :
    (ofBytes (v ++ w) x).read v.length = .ok (some v, ofBytes w x) := by
  rw [read, if_pos ⟨rfl, by rw [ofBytes, List.length_append]; exact Nat.le_add_right _ _⟩]
  simp only [ofBytes, List.take_left, List.drop_left]

theorem read_of_length_lt (h : l.length < n) : (ofBytes l true).read n = .error .iosFailure := by
  rw [read, if_neg fun hn => Nat.not_le.mpr h hn.2]
  rfl

theorem readByte_cons (b : UInt8) (w : List UInt8) (x : Bool) :
    (ofBytes (b :: w) x).readByte = .ok (some b, ofBytes w x) := by
  rw [readByte]
  exact congrArg (fun o => o >>= fun p => pure (p.1.map fun v => v.headD 0, p.2))
    (read_append [b] w x)

/-- **A checked read** takes the bytes off the stream, or throws when there are too few left. -/
theorem readOrThrow_cases (l : List UInt8) (x : Bool) (n : ℕ) (what : String) :
    (∃ v w, l = v ++ w ∧ v.length = n ∧
      (ofBytes l x).readOrThrow n what = .ok (v, ofBytes w x)) ∨
    l.length < n ∧ ∃ f, (ofBytes l x).readOrThrow n what = .error f ∧
      (f = .iosFailure ∨ f = .runtimeError what) := by
  rcases lt_or_ge l.length n with hlt | hge
  · refine Or.inr ⟨hlt, ?_⟩
    rw [readOrThrow, read, if_neg fun hn => Nat.not_le.mpr hlt hn.2]
    cases x with
    | true => exact ⟨_, rfl, Or.inl rfl⟩
    | false => exact ⟨_, rfl, Or.inr rfl⟩
  · refine Or.inl ⟨l.take n, l.drop n, (List.take_append_drop n l).symm,
      List.length_take_of_le hge, ?_⟩
    rw [readOrThrow, read, if_pos ⟨rfl, hge⟩]
    rfl

theorem readOrThrow_eq_ok_iff :
    (ofBytes l x).readOrThrow n what = .ok (v, is') ↔
      ∃ w, l = v ++ w ∧ v.length = n ∧ is' = ofBytes w x := by
  constructor
  · intro h
    obtain ⟨v', w, hl, hv, hok⟩ | ⟨-, f, herr, -⟩ := readOrThrow_cases l x n what
    · rw [hok] at h
      obtain ⟨rfl, rfl⟩ := Prod.mk.inj (Except.ok.inj h)
      exact ⟨w, hl, hv, rfl⟩
    · rw [herr] at h
      cases h
  · rintro ⟨w, rfl, rfl, rfl⟩
    rw [readOrThrow, read_append]
    rfl

/-- A checked read that fails throws. -/
theorem fault_of_readOrThrow {f : Fault} (h : (ofBytes l x).readOrThrow n what = .error f) :
    f = .iosFailure ∨ f = .runtimeError what := by
  obtain ⟨v', w, -, -, hok⟩ | ⟨-, f', herr, hf⟩ := readOrThrow_cases l x n what
  · rw [hok] at h
    cases h
  · rw [herr] at h
    rwa [← Except.error.inj h]

end IStream

open IStream

/-! ### Entries -/

/-- An entry of the stored table: a symbol, a length in bits that is not zero, and the bytes of the
codeword. -/
structure Entry where
  symbol : UInt8
  length : UInt8
  code : List UInt8
  length_ne_zero : length ≠ 0
  length_code : code.length = (length.toNat + 7) / 8

namespace Entry

variable (e : Entry)

/-- The bytes of an entry. -/
def bytes : List UInt8 :=
  e.symbol :: e.length :: e.code

/-- The number of bytes of an entry. -/
def size : ℕ :=
  2 + e.code.length

/-- The bits of the codeword, without the padding. -/
def bits : List Bool :=
  (unpack e.code).take e.length.toNat

/-- The codeword in memory. -/
def huffmanCode : HuffmanCode :=
  ⟨e.code, e.length.toNat, 8 * e.code.length⟩

/-- The table with the row of the entry replaced. -/
def insert (map : SymbolTable) : SymbolTable :=
  Function.update map e.symbol e.huffmanCode

theorem length_bytes : e.bytes.length = e.size := by
  rw [bytes, size, List.length_cons, List.length_cons]
  omega

theorem length_pos : 0 < e.length.toNat :=
  Nat.pos_of_ne_zero fun h => e.length_ne_zero (UInt8.toNat_inj.mp h)

theorem code_length_pos : 0 < e.code.length := by
  have := e.length_pos
  rw [e.length_code]
  omega

theorem code_length_le : e.code.length ≤ 32 := by
  have := e.length.toNat_lt
  rw [e.length_code]
  omega

theorem wellFormed_huffmanCode : e.huffmanCode.WellFormed where
  capacity_eq := rfl
  capacity_lt := by
    have := e.code_length_le
    change 8 * e.code.length < 2 ^ 64
    omega
  length_le := by
    have := e.length_code
    change e.length.toNat ≤ 8 * e.code.length
    omega

theorem bits_huffmanCode : e.huffmanCode.bits = e.bits :=
  rfl

/-- The vector constructor builds the codeword. -/
theorem ofVector_eq : BitArray.ofVector e.code e.length.toNat = .ok e.huffmanCode := by
  have hwf := e.wellFormed_huffmanCode
  exact BitArray.ofVector_eq_ok e.code_length_pos hwf.readable.length_lt hwf.length_le
    hwf.capacity_lt

end Entry

namespace Hafe

variable {l w : List UInt8} {map table table' : SymbolTable} {is' : IStream}

/-- **Reading one entry** either takes it off the stream and enters it into the table, or throws,
since the stream does not begin with an entry. -/
theorem readNextEntry_cases (map : SymbolTable) (l : List UInt8) :
    (∃ (e : Entry) (w : List UInt8), l = e.bytes ++ w ∧
      readNextEntry map (ofBytes l true) = .ok (e.size, e.insert map, ofBytes w true)) ∨
    (∀ (e : Entry) (w : List UInt8), l ≠ e.bytes ++ w) ∧
      ∃ f, readNextEntry map (ofBytes l true) = .error f ∧ (f = .iosFailure ∨
        f = .runtimeError "refuse to create a symbol table entry with size 0") := by
  match l with
  | [] =>
    refine Or.inr ⟨fun e w h => List.cons_ne_nil _ _ h.symm, _, rfl, Or.inl rfl⟩
  | [sym] =>
    refine Or.inr ⟨fun e w h => ?_, _, rfl, Or.inl rfl⟩
    exact List.cons_ne_nil _ _ (List.cons.inj h).2.symm
  | sym :: len :: l =>
    by_cases hzero : len = 0
    · subst hzero
      refine Or.inr ⟨fun e w h => ?_, _, ?_, Or.inr rfl⟩
      · exact e.length_ne_zero (List.cons.inj (List.cons.inj h).2).1.symm
      · rw [readNextEntry, readByte_cons, ExceptFold.ok_bind]
        dsimp only
        rw [readByte_cons, ExceptFold.ok_bind]
        dsimp only
        rw [if_pos (by decide)]
        rfl
    have hlt := len.toNat_lt
    have hlen : 0 < len.toNat := Nat.pos_of_ne_zero fun h => hzero (UInt8.toNat_inj.mp h)
    have hsize : BitArray.bytesRequired len.toNat = (len.toNat + 7) / 8 :=
      BitArray.bytesRequired_eq (by omega)
    have hne : ¬ (len.toNat + 7) / 8 = 0 := by omega
    rcases lt_or_ge l.length ((len.toNat + 7) / 8) with hshort | hge
    · refine Or.inr ⟨fun e w h => ?_, .iosFailure, ?_, Or.inl rfl⟩
      · have hl : l = e.code ++ w := (List.cons.inj (List.cons.inj h).2).2
        have hcode := e.length_code
        rw [← (List.cons.inj (List.cons.inj h).2).1] at hcode
        rw [hl, List.length_append] at hshort
        omega
      · rw [readNextEntry, readByte_cons, ExceptFold.ok_bind]
        dsimp only
        rw [readByte_cons, ExceptFold.ok_bind]
        dsimp only
        rw [hsize, if_neg hne, read_of_length_lt hshort]
        rfl
    · obtain ⟨code, w, rfl, hcode⟩ : ∃ code w, l = code ++ w ∧
          code.length = (len.toNat + 7) / 8 :=
        ⟨_, _, (List.take_append_drop _ l).symm, List.length_take_of_le hge⟩
      refine Or.inl ⟨⟨sym, len, code, hzero, hcode⟩, w, rfl, ?_⟩
      rw [readNextEntry, readByte_cons, ExceptFold.ok_bind]
      dsimp only
      rw [readByte_cons, ExceptFold.ok_bind]
      dsimp only
      rw [hsize, if_neg hne, ← hcode, read_append]
      dsimp only [ExceptFold.ok_bind]
      rw [Entry.ofVector_eq ⟨sym, len, code, hzero, hcode⟩]
      rfl

end Hafe

/-! ### Tables -/

/-- An entry is determined by the bytes with which it begins a stream. -/
theorem Entry.eq_of_append_eq {e e' : Entry} {w w' : List UInt8}
    (h : e.bytes ++ w = e'.bytes ++ w') : e = e' ∧ w = w' := by
  obtain ⟨sym, len, code, hlen, hcode⟩ := e
  obtain ⟨sym', len', code', hlen', hcode'⟩ := e'
  obtain ⟨rfl, h⟩ := List.cons.inj h
  obtain ⟨rfl, h⟩ := List.cons.inj h
  obtain ⟨rfl, rfl⟩ := List.append_inj h (hcode.trans hcode'.symm)
  exact ⟨rfl, rfl⟩

/-- The condition under which the table loop ends behind the entries, from the count `b`: the count
modulo `2^64` is `bsize` there and not before, and is never zero again. -/
def Counts (bsize : ℕ) : ℕ → List Entry → Prop
  | b, [] => b = bsize
  | b, e :: es => b ≠ bsize ∧ u64 (b + e.size) ≠ 0 ∧ Counts bsize (u64 (b + e.size)) es

/-- The bytes of the entries. -/
def entryBytes (es : List Entry) : List UInt8 :=
  es.flatMap Entry.bytes

@[simp] theorem entryBytes_cons (e : Entry) (es : List Entry) :
    entryBytes (e :: es) = e.bytes ++ entryBytes es :=
  List.flatMap_cons

/-- The entries of a table are determined by the bytes with which they begin a stream. -/
theorem Counts.eq_of_append_eq {bsize b : ℕ} {es es' : List Entry} {w w' : List UInt8}
    (h : Counts bsize b es) (h' : Counts bsize b es')
    (hl : entryBytes es ++ w = entryBytes es' ++ w') : es = es' ∧ w = w' := by
  induction es generalizing b es' with
  | nil =>
    cases es' with
    | nil => exact ⟨rfl, hl⟩
    | cons e' es' => exact absurd h h'.1
  | cons e es ih =>
    cases es' with
    | nil => exact absurd h' h.1
    | cons e' es' =>
      rw [entryBytes_cons, entryBytes_cons, List.append_assoc, List.append_assoc] at hl
      obtain ⟨rfl, hrest⟩ := Entry.eq_of_append_eq hl
      obtain ⟨rfl, rfl⟩ := ih h.2.2 h'.2.2 hrest
      exact ⟨rfl, rfl⟩

/-- The entries put into a table one after the other. -/
def insertAll (table : SymbolTable) (es : List Entry) : SymbolTable :=
  es.foldl (fun map e => e.insert map) table

namespace Hafe

variable {l w : List UInt8} {table table' : SymbolTable} {is' : IStream} {bsize b fuel : ℕ}

/-- **The table loop**, given enough rounds, reads the entries that end where the count does, or
throws when there are none. -/
theorem readEntries_cases (bsize b : ℕ) (table : SymbolTable) (hfuel : l.length < fuel) :
    (∃ es w, l = entryBytes es ++ w ∧ Counts bsize b es ∧
      readEntries bsize fuel b table (ofBytes l true) =
        .ok (insertAll table es, ofBytes w true)) ∨
    (∀ es w, l = entryBytes es ++ w → ¬ Counts bsize b es) ∧
      ∃ f, readEntries bsize fuel b table (ofBytes l true) = .error f ∧ f.IsException := by
  induction fuel generalizing l b table with
  | zero => exact absurd hfuel (Nat.not_lt_zero _)
  | succ fuel ih =>
    rw [readEntries]
    by_cases hb : b = bsize
    · exact Or.inl ⟨[], l, rfl, hb, if_pos hb⟩
    rw [if_neg hb]
    obtain ⟨e, w, rfl, hread⟩ | ⟨hnone, f, hread, hf⟩ := readNextEntry_cases table l
    · rw [hread, ExceptFold.ok_bind]
      dsimp only
      -- Every way to begin the stream with entries begins with the entry read.
      have hfirst (es : List Entry) (w' : List UInt8) (h : e.bytes ++ w = entryBytes es ++ w')
          (hc : Counts bsize b es) : ∃ es', es = e :: es' ∧ w = entryBytes es' ++ w' := by
        cases es with
        | nil => exact absurd hc hb
        | cons e' es' =>
          rw [entryBytes_cons, List.append_assoc] at h
          obtain ⟨rfl, hw⟩ := Entry.eq_of_append_eq h
          exact ⟨es', rfl, hw⟩
      by_cases hzero : u64 (b + e.size) = 0
      · refine Or.inr ⟨fun es w' h hc => ?_, _, by rw [if_pos hzero]; rfl, Or.inr ⟨_, rfl⟩⟩
        obtain ⟨es', rfl, -⟩ := hfirst es w' h hc
        exact hc.2.1 hzero
      · rw [if_neg hzero]
        have hshort : w.length < fuel := by
          rw [List.length_append, e.length_bytes, Entry.size] at hfuel
          omega
        obtain ⟨es, w', rfl, hc, hok⟩ | ⟨hnone, f, herr, hf⟩ :=
          ih (u64 (b + e.size)) (e.insert table) hshort
        · refine Or.inl ⟨e :: es, w', ?_, ⟨hb, hzero, hc⟩, hok⟩
          rw [entryBytes_cons, List.append_assoc]
        · refine Or.inr ⟨fun es w' h hc => ?_, f, herr, hf⟩
          obtain ⟨es', rfl, hw⟩ := hfirst es w' h hc
          exact hnone es' w' hw hc.2.2
    · refine Or.inr ⟨fun es w h hc => ?_, f, by rw [hread]; rfl, hf.imp_right fun h => ⟨_, h⟩⟩
      cases es with
      | nil => exact hb hc
      | cons e es =>
        rw [entryBytes_cons, List.append_assoc] at h
        exact hnone e _ h

theorem readEntries_eq_ok_iff (hfuel : l.length < fuel) :
    readEntries bsize fuel b table (ofBytes l true) = .ok (table', is') ↔
      ∃ es w, l = entryBytes es ++ w ∧ Counts bsize b es ∧ table' = insertAll table es ∧
        is' = ofBytes w true := by
  obtain ⟨es, w, rfl, hc, hok⟩ | ⟨hnone, f, herr, -⟩ := readEntries_cases bsize b table hfuel
  · rw [hok]
    constructor
    · intro h
      obtain ⟨rfl, rfl⟩ := Prod.mk.inj (Except.ok.inj h)
      exact ⟨es, w, rfl, hc, rfl, rfl⟩
    · rintro ⟨es', w', hl, hc', rfl, rfl⟩
      obtain ⟨rfl, rfl⟩ := hc.eq_of_append_eq hc' hl
      rfl
  · rw [herr]
    constructor
    · intro h
      cases h
    · rintro ⟨es, w, hl, hc, -, -⟩
      exact absurd hc (hnone es w hl)

theorem fault_of_readEntries {f : Fault} (hfuel : l.length < fuel)
    (h : readEntries bsize fuel b table (ofBytes l true) = .error f) : f.IsException := by
  obtain ⟨es, w, -, -, hok⟩ | ⟨-, f', herr, hf⟩ := readEntries_cases bsize b table hfuel
  · rw [hok] at h
    cases h
  · rw [herr] at h
    rwa [← Except.error.inj h]

end Hafe

/-! ### The count and the contents of a table -/

theorem length_entryBytes_cons (e : Entry) (es : List Entry) :
    (entryBytes (e :: es)).length = e.size + (entryBytes es).length := by
  rw [entryBytes_cons, List.length_append, e.length_bytes]

/-- **The count of a table that does not wrap** ends where the exact sum is the size announced. -/
theorem counts_iff {bsize b : ℕ} {es : List Entry} (h : b + (entryBytes es).length < 2 ^ 64) :
    Counts bsize b es ↔ b + (entryBytes es).length = bsize := by
  induction es generalizing b with
  | nil => exact Iff.rfl
  | cons e es ih =>
    rw [length_entryBytes_cons] at h
    have hsize : 0 < e.size := by
      rw [Entry.size]
      omega
    have hu : u64 (b + e.size) = b + e.size := u64_of_lt (by omega)
    rw [Counts, hu, ih (by omega), length_entryBytes_cons]
    omega

theorem insertAll_cons (table : SymbolTable) (e : Entry) (es : List Entry) :
    insertAll table (e :: es) = insertAll (e.insert table) es :=
  rfl

/-- Every row is an old one or that of an entry. -/
theorem insertAll_cases (table : SymbolTable) (es : List Entry) (s : UInt8) :
    insertAll table es s = table s ∨ ∃ e ∈ es, insertAll table es s = e.huffmanCode := by
  induction es generalizing table with
  | nil => exact Or.inl rfl
  | cons e es ih =>
    rcases ih (e.insert table) with h | ⟨e', he', h⟩
    · by_cases hs : s = e.symbol
      · refine Or.inr ⟨e, List.mem_cons_self, h.trans ?_⟩
        rw [hs]
        exact Function.update_self _ _ _
      · exact Or.inl (h.trans (Function.update_of_ne hs _ _))
    · exact Or.inr ⟨e', List.mem_cons_of_mem _ he', h⟩

end HafeCodec
