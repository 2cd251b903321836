import HafeCodec.Library.ShortestMatch
import HafeCodec.Table.Codewords
import HafeCodec.Table.InverseSymbolTable

/-!
# The decoder

The decoder moves the bits of the encoded array into a token one by one and looks the token up in
the inverse table after each; a symbol found is put out and the token is cleared. An assertion,
which is checked in the debug build only, bounds the token before a bit is added.

The loop refines `ShortestMatch.run` on the lookup of the table. It fails exactly when the
assertion is checked and the token gets too long before the end of the array
(`Decoder.decode_eq`); in terms of the parse, when the rest behind the last codeword found is longer
than any codeword (`Decoder.decode_eq_of_parse`). What is left in the token at the end is dropped.

## Main definitions

* `Decoder.step`, `Decoder.decode`.
* `Decoder`, `Decoder.new`.

## Main results

* `Decoder.decode_eq`, `Decoder.decode_eq_of_parse`.
* `Decoder.decode_flatMap`: the concatenation of minimal codewords is decoded.
* `SymbolTable.depth_bound`: the codewords of a histogram are short, and are decoded.
-/

open PrefixCode ShortestMatch

namespace HafeCodec

/-- The members `m_symbol_table`, `m_bitstream` and `m_str`. -/
structure Decoder where
  symbolTable : SymbolTable
  bitstream : BitArray
  str : List UInt8

namespace Decoder

open BitArray

/-- The text of the assertion in `decode`. -/
def tokenAssertion : String :=
  "token.bit_length() < HuffmanCode::MAX_LENGTH"

/-- The body of the loop of `decode`, on the string put out so far and the token. -/
def step (build : Build) (huffmanCodes : InverseSymbolTable) (encoded : BitArray)
    (p : List UInt8 × BitArray) (i : ℕ) : Outcome (List UInt8 × BitArray) := do
  build.assert (p.2.bitLength < HuffmanCode.maxLength) tokenAssertion
  let token ← p.2.pushBack (← encoded.get i)
  match ← huffmanCodes.find token with
  | some symbol => return (p.1 ++ [symbol], token.clear)
  | none => return (p.1, token)

/-- `decode(const SymbolTable &symbol_table, const BitArray &encoded)`. -/
def decode (build : Build) (symbolTable : SymbolTable) (encoded : BitArray) :
    Outcome (List UInt8) := do
  let huffmanCodes ← InverseSymbolTable.ofTable symbolTable
  let token ← BitArray.ofLength (1000 * 8 * 1)
  let p ← (List.range encoded.bitLength).foldlM (step build huffmanCodes encoded) ([], token)
  return p.1

/-- `Decoder(const SymbolTable &symbol_table, const BitStream &encoded)`. -/
def new (build : Build) (symbolTable : SymbolTable) (encoded : BitArray) : Outcome Decoder := do
  let str ← decode build symbolTable encoded
  return { symbolTable, bitstream := encoded, str }

variable {build : Build} {st : SymbolTable} {encoded : BitArray}

/-- The inverse table of `st`. -/
def inverse (st : SymbolTable) : InverseSymbolTable :=
  ⟨InverseSymbolTable.bucketOf st symbols⟩

/-- The token is too long for the assertion before bit `i`. -/
def TooLong (st : SymbolTable) (l : List Bool) (i : ℕ) : Prop :=
  HuffmanCode.maxLength ≤ (run st.lookup (l.take i)).2.length

/-! ### The loop -/

/-- One step looks up the token extended by one bit. -/
theorem exists_step (hst : ∀ s, (st s).Readable)
    (hshort : ∀ s, (st.code s).length ≤ HuffmanCode.maxLength) {out : List UInt8}
    {token : BitArray} {l : List Bool} (ht : token.HoldsWithin 1000 l) {i : ℕ} {b : Bool}
    (hb : encoded.bits[i]? = some b) (hl : l.length + 1 < 2 ^ 64)
    (hassert : build = .ndebug ∨ l.length < HuffmanCode.maxLength) :
    ∃ token', step build (inverse st) encoded (out, token) i =
        .ok ((ShortestMatch.step st.lookup (out, l) b).1, token') ∧
      token'.HoldsWithin 1000 (ShortestMatch.step st.lookup (out, l) b).2 := by
  have hok : build.assert (token.bitLength < HuffmanCode.maxLength) tokenAssertion = .ok () := by
    rw [Build.assert, bitLength, ht.bitIdx_eq]
    rcases hassert with rfl | hlt
    · exact if_neg fun h => Build.noConfusion h.1
    · exact if_neg fun h => absurd hlt (of_decide_eq_false h.2)
  obtain ⟨token', hpush, hholds⟩ := ht.pushBack (by decide) hl b
  have hlen : (l ++ [b]).length < 2 ^ 64 := by
    rwa [List.length_append, List.length_singleton]
  have h0 : token'.bitIdx ≠ 0 := by
    rw [hholds.bitIdx_eq, List.length_append, List.length_singleton]
    exact Nat.succ_ne_zero _
  have hfind := InverseSymbolTable.find_eq_lookup (hholds.inBounds hlen) h0
    (fun hr => hholds.zeroPadded (hholds.bitIdx_eq ▸ hr.length_lt)) hst hshort
  rw [hholds.bits_eq] at hfind
  rw [step, hok, ExceptFold.ok_bind, get_eq_ok hb, ExceptFold.ok_bind, hpush, ExceptFold.ok_bind,
    inverse, hfind, ExceptFold.ok_bind, ShortestMatch.step]
  cases st.lookup (l ++ [b]) with
  | some symbol => exact ⟨token'.clear, rfl, HoldsWithin.clear (by decide)⟩
  | none => exact ⟨token', rfl, hholds⟩

/-- A step with a token that is too long fails in the debug build. -/
theorem step_eq_assertion {out : List UInt8} {token : BitArray} {l : List Bool}
    (ht : token.HoldsWithin 1000 l) (hlong : HuffmanCode.maxLength ≤ l.length)
    (codes : InverseSymbolTable) (i : ℕ) :
    step .debug codes encoded (out, token) i = .error (.assertion tokenAssertion) := by
  have hfail : Build.debug.assert (token.bitLength < HuffmanCode.maxLength) tokenAssertion =
      .error (.assertion tokenAssertion) := by
    rw [Build.assert, bitLength, ht.bitIdx_eq]
    exact if_pos ⟨rfl, decide_eq_false (Nat.not_lt.mpr hlong)⟩
  rw [step, hfail]
  rfl

/-- **The loop up to bit `n`**, when the assertion does not fail. -/
theorem exists_foldlM_step (hst : ∀ s, (st s).Readable)
    (hshort : ∀ s, (st.code s).length ≤ HuffmanCode.maxLength) (he : encoded.InBounds)
    {token : BitArray} (ht : token.HoldsWithin 1000 []) {n : ℕ} (hn : n ≤ encoded.bits.length)
    (hassert : build = .ndebug ∨ ∀ i < n, ¬ TooLong st encoded.bits i) :
    ∃ token', (List.range n).foldlM (step build (inverse st) encoded) ([], token) =
        .ok ((run st.lookup (encoded.bits.take n)).1, token') ∧
      token'.HoldsWithin 1000 (run st.lookup (encoded.bits.take n)).2 := by
  have hlt := he.length_lt
  have hlen := he.length_bits
  obtain ⟨p, hp, hout, htoken⟩ := ExceptFold.foldlM_range_ok
    (f := step build (inverse st) encoded) (n := n) (s := ([], token))
    (fun i p => p.1 = (run st.lookup (encoded.bits.take i)).1 ∧
      p.2.HoldsWithin 1000 (run st.lookup (encoded.bits.take i)).2) ⟨rfl, ht⟩ (by
    rintro i ⟨out, token⟩ hi ⟨hout, htoken⟩
    have hib : i < encoded.bits.length := by omega
    have hrun : (run st.lookup (encoded.bits.take i)).2.length ≤ (encoded.bits.take i).length :=
      length_run_le _
    rw [List.length_take_of_le hib.le] at hrun
    obtain ⟨token', hstep, htoken'⟩ := exists_step hst hshort htoken (List.getElem?_eq_getElem hib)
      (by omega) (hassert.imp_right fun h => Nat.lt_of_not_le (h i hi))
    refine ⟨_, hstep, ?_⟩
    rw [← List.take_concat_get' _ _ hib, run_append_singleton, ← Prod.eta (run st.lookup _), ← hout]
    exact ⟨rfl, htoken'⟩)
  obtain ⟨out, token'⟩ := p
  exact ⟨token', by rw [hp, ← hout], htoken⟩

/-! ### The decoder -/

instance (st : SymbolTable) (l : List Bool) (i : ℕ) : Decidable (TooLong st l i) :=
  inferInstanceAs (Decidable (_ ≤ _))

/-- **The decoder computes the shortest-match parse**, unless the assertion is checked and fails. -/
theorem decode_eq (build : Build) (hst : ∀ s, (st s).Readable)
    (hshort : ∀ s, (st.code s).length ≤ HuffmanCode.maxLength) (he : encoded.InBounds) :
    decode build st encoded =
      if build = .debug ∧ ∃ i < encoded.bits.length, TooLong st encoded.bits i then
        .error (.assertion tokenAssertion)
      else .ok (run st.lookup encoded.bits).1 := by
  obtain ⟨token, htoken, hzero, hsize⟩ := Holds.ofLength (n := 1000 * 8 * 1) (by decide) (by decide)
  have hwithin : token.HoldsWithin 1000 [] :=
    ⟨hzero, by rw [hsize]; decide, by rw [hsize]; decide⟩
  have hlen : encoded.bitLength = encoded.bits.length := he.length_bits.symm
  rw [decode, InverseSymbolTable.ofTable_eq hst, ExceptFold.ok_bind, htoken, ExceptFold.ok_bind,
    hlen]
  split_ifs with hbad
  · -- The loop runs up to the first token that is too long.
    obtain ⟨rfl, hex⟩ := hbad
    obtain ⟨hlt, hlong⟩ := Nat.find_spec hex
    have hmin (j : ℕ) (hj : j < Nat.find hex) : ¬ TooLong st encoded.bits j :=
      fun h => Nat.find_min hex hj ⟨hj.trans hlt, h⟩
    obtain ⟨token', hloop, htoken'⟩ := exists_foldlM_step hst hshort he hwithin hlt.le (Or.inr hmin)
    have herr := ExceptFold.foldlM_range_error hlt hloop
      (step_eq_assertion htoken' hlong (inverse st) _)
    rw [inverse] at herr
    rw [herr]
    rfl
  · have hassert : build = .ndebug ∨ ∀ i < encoded.bits.length, ¬ TooLong st encoded.bits i := by
      cases build with
      | ndebug => exact Or.inl rfl
      | debug => exact Or.inr fun i hi hlong => hbad ⟨rfl, i, hi, hlong⟩
    obtain ⟨token', hloop, -⟩ := exists_foldlM_step hst hshort he hwithin le_rfl hassert
    rw [inverse] at hloop
    rw [hloop, List.take_length]
    rfl

/-- The result depends on the lookup and on the bits only. -/
theorem decode_congr (build : Build) {st' : SymbolTable} {encoded' : BitArray}
    (hst : ∀ s, (st s).Readable) (hst' : ∀ s, (st' s).Readable)
    (hshort : ∀ s, (st.code s).length ≤ HuffmanCode.maxLength)
    (hshort' : ∀ s, (st'.code s).length ≤ HuffmanCode.maxLength) (he : encoded.InBounds)
    (he' : encoded'.InBounds) (hlookup : st'.lookup = st.lookup)
    (hbits : encoded'.bits = encoded.bits) :
    decode build st' encoded' = decode build st encoded := by
  have hlong (i : ℕ) : TooLong st' encoded.bits i ↔ TooLong st encoded.bits i := by
    rw [TooLong, TooLong, hlookup]
  simp only [decode_eq build hst hshort he, decode_eq build hst' hshort' he', hbits, hlookup, hlong]

/-- No codeword found is longer than the codewords of the table. -/
theorem length_le_of_lookup {n : ℕ} (hshort : ∀ s, (st.code s).length ≤ n) (c : List Bool)
    (a : UInt8) (h : st.lookup c = some a) : c.length ≤ n :=
  (SymbolTable.code_of_lookup h).1 ▸ hshort a

/-- **The decoder in terms of the parse.** The assertion fails when the rest behind the last
codeword is longer than 255 bits. -/
theorem decode_eq_of_parse (build : Build) (hst : ∀ s, (st s).Readable)
    (hshort : ∀ s, (st.code s).length ≤ HuffmanCode.maxLength) (he : encoded.InBounds)
    {out : List UInt8} {r : List Bool} (hp : Parse st.lookup encoded.bits out r) :
    decode build st encoded =
      if build = .debug ∧ HuffmanCode.maxLength < r.length then
        .error (.assertion tokenAssertion)
      else .ok out := by
  have hlong : (∃ i < encoded.bits.length, TooLong st encoded.bits i) ↔
      HuffmanCode.maxLength < r.length :=
    exists_long_token_iff (length_le_of_lookup hshort) hp
  rw [decode_eq build hst hshort he, run_eq_iff.mpr hp]
  exact if_congr (and_congr_right fun _ => hlong) rfl rfl

/-- **Concatenated minimal codewords are decoded** in both builds. -/
theorem decode_flatMap (build : Build) (hst : ∀ s, (st s).Readable)
    (hshort : ∀ s, (st.code s).length ≤ HuffmanCode.maxLength) (he : encoded.InBounds)
    {w : List UInt8} (hw : ∀ s ∈ w, Minimal st.lookup (st.code s) s)
    (hbits : encoded.bits = w.flatMap st.code) : decode build st encoded = .ok w := by
  have hp : Parse st.lookup (w.flatMap st.code ++ []) w [] := parse_flatMap hw unmatched_nil
  rw [List.append_nil, ← hbits] at hp
  rw [decode_eq_of_parse build hst hshort he hp]
  exact if_neg fun h => absurd h.2 (Nat.not_lt_zero _)

end Decoder

/-- In a prefix-free table the codewords padded with zeros are minimal for the lookup. -/
theorem SymbolTable.minimal {st : SymbolTable} {S : Set UInt8} (hfree : IsPrefixFree st.code S)
    (hS : ∀ t, st.code t ≠ [] → t ∈ S) {s : UInt8} (hz : (st s).ZeroPadded)
    (hne : st.code s ≠ []) : Minimal st.lookup (st.code s) s where
  ne_nil := hne
  find_eq := lookup_code hz fun t ht =>
    hfree t (hS t (ht ▸ hne)) s (hS s hne) (ht ▸ List.prefix_refl _)
  find_prefix p hp hpre hpne := by
    rw [lookup_eq_none_iff]
    rintro t rfl -
    obtain rfl := hfree t (hS t hp) s (hS s hne) hpre
    exact hpne rfl

/-! ### The table of a histogram -/

namespace SymbolTable.Codewords

variable {Q : PriorityQueue} {past : UInt32} {h : Histogram} {tree : HuffmanTree}
  {st : SymbolTable} (hc : Codewords h tree st) (hne : h.entries ≠ [])
  (hb : HuffmanTree.build Q past h = .ok tree)

include hc hne hb

/-- The codeword of a symbol that occurs is minimal for the lookup. -/
theorem minimal {s : UInt8} (hs : h.frequency s ≠ 0) : Minimal st.lookup (st.code s) s := by
  have hle := hc.length_code_le hne hb s
  exact SymbolTable.minimal (hc.isPrefixFree hne hb) (fun t => (hc.code_ne_nil_iff hne hb t).mp)
    ((hc.clean s).zeroPadded (by omega)) ((hc.code_ne_nil_iff hne hb s).mpr hs)

omit hne hb in
/-- Symbols that do not occur leave no trace in an encoded string. -/
theorem flatMap_code_filter (w : List UInt8) :
    (w.filter fun s => h.frequency s ≠ 0).flatMap st.code = w.flatMap st.code := by
  induction w with
  | nil => rfl
  | cons s w ih =>
    by_cases hs : h.frequency s = 0
    · rw [List.filter_cons_of_neg (by simpa using hs), ih, List.flatMap_cons, hc.code_absent s hs,
        List.nil_append]
    · rw [List.filter_cons_of_pos (by simpa using hs), List.flatMap_cons, ih, List.flatMap_cons]

/-- **Decoding what was encoded with the table** gives back the symbols that occur, in both
builds. -/
theorem decode_eq (build : Build) {encoded : BitArray} (he : encoded.WellFormed) {w : List UInt8}
    (hbits : encoded.bits = w.flatMap st.code) :
    Decoder.decode build st encoded = .ok (w.filter fun s => h.frequency s ≠ 0) := by
  refine Decoder.decode_flatMap build (hc.readable hne hb)
    (fun s => (hc.length_code_le hne hb s).trans (by decide)) he.readable.inBounds
    (fun s hs => ?_) ?_
  · exact hc.minimal hne hb (by simpa using (List.mem_filter.mp hs).2)
  · rw [hbits, hc.flatMap_code_filter]

end SymbolTable.Codewords

/-- **The depth of the tree.** The height of the tree is bounded by the frequency of its root, no
codeword has more than 45 bits, the lengths in eight bits are exact, and the assertion of the
decoder holds before every bit of a string encoded with the table. -/
theorem SymbolTable.depth_bound {Q : PriorityQueue} {past : UInt32} {h : Histogram}
    {tree : HuffmanTree} (hne : ∃ s, h.frequency s ≠ 0)
    (hb : HuffmanTree.build Q past h = .ok tree) :
    Nat.fib (tree.height + 2) ≤ tree.root.freq ∧
      ∃ st, ofTree tree = .ok st ∧
        (∀ s, (st s).bitLength ≤ 45 ∧ (HuffmanCode.length8 (st s)).toNat = (st s).bitLength) ∧
        ∀ (w : List UInt8) (encoded : BitArray), encoded.WellFormed →
          encoded.bits = w.flatMap st.code →
          (∀ i < encoded.bits.length, ¬ Decoder.TooLong st encoded.bits i) ∧
            Decoder.decode .debug st encoded = .ok (w.filter fun s => h.frequency s ≠ 0) := by
  have hne' := h.entries_ne_nil_iff.mpr hne
  obtain ⟨st, hst, hc⟩ := exists_codewords hne' hb
  have hlen (s : UInt8) : (st s).bitLength ≤ 45 := hc.bitLength_le hne' hb s
  refine ⟨HuffmanTree.fib_le_freq_root hne' hb, st, hst,
    fun s => ⟨hlen s, HuffmanCode.toNat_length8 ((hlen s).trans (by decide))⟩,
    fun w encoded he hbits => ?_⟩
  have hdecode := hc.decode_eq hne' hb .debug he hbits
  refine ⟨fun i hi hlong => ?_, hdecode⟩
  rw [Decoder.decode_eq .debug (hc.readable hne' hb)
    (fun s => (hc.length_code_le hne' hb s).trans (by decide)) he.readable.inBounds,
    if_pos ⟨rfl, i, hi, hlong⟩] at hdecode
  cases hdecode

theorem SymbolTable.depth_bound_aab :
    Nat.fib (HuffmanTree.treeAab.height + 2) ≤ HuffmanTree.treeAab.root.freq ∧
      ∃ st, ofTree HuffmanTree.treeAab = .ok st ∧
        (∀ s, (st s).bitLength ≤ 45 ∧ (HuffmanCode.length8 (st s)).toNat = (st s).bitLength) ∧
        ∀ (w : List UInt8) (encoded : BitArray), encoded.WellFormed →
          encoded.bits = w.flatMap st.code →
          (∀ i < encoded.bits.length, ¬ Decoder.TooLong st encoded.bits i) ∧
            Decoder.decode .debug st encoded =
              .ok (w.filter fun s => HuffmanTree.aab.frequency s ≠ 0) :=
  depth_bound ⟨97, by decide⟩ HuffmanTree.build_aab

end HafeCodec
