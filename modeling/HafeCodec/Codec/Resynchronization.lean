import HafeCodec.Codec.Decoder
import HafeCodec.Tree.Construction

/-!
# Decoding arbitrary bits

The table of a tree with at least two leaves is complete: every list of bits begins with a codeword
or is the beginning of one. So no bit stream, whether or not it was made by the encoder, can bring
the decoder to fail with such a table, in either build. It puts out symbols whose codewords make up
the stream but for a rest shorter than some codeword (`SymbolTable.decodes_everything`).

The table of a single leaf is not complete. Its only codeword is the bit `0`; the decoder puts out
one symbol for every zero at the beginning of the stream and stops at the first one, where the
assertion of the debug build fails if more than 255 bits follow (`SymbolTable.decodes_zeros`).

## Main results

* `SymbolTable.Codewords.exists_code_prefix`: the codewords are complete.
* `SymbolTable.Codewords.exists_rest`: the rest of a parse is short.
* `SymbolTable.decodes_everything`, `SymbolTable.decodes_zeros`.
-/

open PrefixCode ShortestMatch

namespace HafeCodec

namespace SymbolTable

open HuffmanTree

variable {Q : PriorityQueue} {past : UInt32} {h : Histogram} {tree : HuffmanTree}
  {st : SymbolTable}

namespace Codewords

variable (hc : Codewords h tree st) (hne : h.entries ≠ []) (hb : build Q past h = .ok tree)

include hc hne hb

/-- The codewords of the table are padded with zeros. -/
theorem zeroPadded (s : UInt8) : (st s).ZeroPadded := by
  have hle := hc.length_code_le hne hb s
  exact (hc.clean s).zeroPadded (by omega)

/-- **The codewords of at least two symbols are complete.** -/
theorem exists_code_prefix (htwo : 2 ≤ (weights h).length) (l : List Bool) :
    ∃ s, h.frequency s ≠ 0 ∧ (st.code s <+: l ∨ l <+: st.code s) := by
  have hlen := (perm_leaves hne hb).length_eq
  cases hroot : tree.root with
  | leaf s f =>
    rw [hroot] at hlen
    have hone : (HuffmanNode.leaf s f).toTree.leaves.length = 1 := rfl
    omega
  | subtree l' r f =>
    obtain ⟨e, he, hpre⟩ := (HuffmanNode.subtree l' r f).toTree.exists_codeword_prefix l
    have hpath : e ∈ tree.root.paths := by rwa [hroot]
    have hcode := hc.code_path e hpath
    refine ⟨e.1.1, (hc.code_ne_nil_iff hne hb _).mp ?_, by rwa [hcode]⟩
    rw [hcode]
    exact HuffmanNode.path_ne_nil hpath

/-- **The rest of a parse is short**: it is the beginning of a codeword. -/
theorem exists_rest (htwo : 2 ≤ (weights h).length) {l r : List Bool} {w : List UInt8}
    (hp : Parse st.lookup l w r) :
    ∃ s, h.frequency s ≠ 0 ∧ r <+: st.code s ∧ r ≠ st.code s := by
  have hs := hp.spelling (SymbolTable.isLookup st)
  obtain ⟨s, hs', hpre⟩ := hc.exists_code_prefix hne hb htwo r
  have hcode := (hc.code_ne_nil_iff hne hb s).mpr hs'
  have hnot := hs.unmatched s (hc.zeroPadded hne hb s) hcode
  refine ⟨s, hs', hpre.resolve_left hnot, ?_⟩
  rintro rfl
  exact hnot List.prefix_rfl

/-- The symbols put out by a parse occur in the histogram. -/
theorem frequency_ne_zero_of_parse {l r : List Bool} {w : List UInt8}
    (hp : Parse st.lookup l w r) {t : UInt8} (ht : t ∈ w) : h.frequency t ≠ 0 :=
  (hc.code_ne_nil_iff hne hb t).mp ((hp.spelling (SymbolTable.isLookup st)).usable t ht).1

/-- The rest is shorter than the 255 bits of the assertion. -/
theorem length_rest_le (htwo : 2 ≤ (weights h).length) {l r : List Bool} {w : List UInt8}
    (hp : Parse st.lookup l w r) : r.length ≤ 45 := by
  obtain ⟨s, -, hpre, -⟩ := hc.exists_rest hne hb htwo hp
  exact hpre.length_le.trans (hc.length_code_le hne hb s)

end Codewords

/-- **Every bit stream is decoded** with the table of at least two symbols, in both builds: it
consists of the codewords of the symbols put out and of a rest that is a proper beginning of a
codeword. -/
theorem decodes_everything (htwo : 2 ≤ (symbols.filter fun s => h.frequency s ≠ 0).length)
    (hb : build Q past h = .ok tree) :
    ∃ st, ofTree tree = .ok st ∧ ∀ encoded : BitArray, encoded.InBounds →
      ∃ w r s, (∀ build, Decoder.decode build st encoded = .ok w) ∧
        encoded.bits = w.flatMap st.code ++ r ∧ (∀ t ∈ w, h.frequency t ≠ 0) ∧
        h.frequency s ≠ 0 ∧ r <+: st.code s ∧ r ≠ st.code s := by
  have htwo' : 2 ≤ (weights h).length := by rwa [weights_eq, List.length_map]
  have hne : h.entries ≠ [] := entries_ne_nil_of_build hb
  obtain ⟨st, hst, hc⟩ := exists_codewords hne hb
  refine ⟨st, hst, fun encoded he => ?_⟩
  have hp : Parse st.lookup encoded.bits _ _ := run_parse _
  obtain ⟨s, hs, hpre, hne'⟩ := hc.exists_rest hne hb htwo' hp
  have hshort (t : UInt8) : (st.code t).length ≤ HuffmanCode.maxLength :=
    (hc.length_code_le hne hb t).trans (by decide)
  refine ⟨_, _, s, fun build => ?_, (hp.spelling (SymbolTable.isLookup st)).eq_append,
    fun t ht => hc.frequency_ne_zero_of_parse hne hb hp ht, hs, hpre, hne'⟩
  rw [Decoder.decode_eq_of_parse build (hc.readable hne hb) hshort he hp, if_neg]
  rintro ⟨-, hlong⟩
  exact absurd hlong (Nat.not_lt.mpr ((hc.length_rest_le hne hb htwo' hp).trans (by decide)))

theorem decodes_everything_aab :
    ∃ st, ofTree treeAab = .ok st ∧ ∀ encoded : BitArray, encoded.InBounds →
      ∃ w r s, (∀ build, Decoder.decode build st encoded = .ok w) ∧
        encoded.bits = w.flatMap st.code ++ r ∧ (∀ t ∈ w, aab.frequency t ≠ 0) ∧
        aab.frequency s ≠ 0 ∧ r <+: st.code s ∧ r ≠ st.code s := by
  refine decodes_everything ?_ build_aab
  rw [← List.length_map (f := fun s => (s, (aab.frequency s).toNat)), ← weights_eq]
  decide +kernel

/-! ### The table of one symbol -/

/-- The table of one symbol gives it the bit `0`, and nothing to the others. -/
theorem Codewords.code_single (hc : Codewords h tree st) (hne : h.entries ≠ [])
    (hb : build Q past h = .ok tree) {s : UInt8}
    (hone : (symbols.filter fun s => h.frequency s ≠ 0) = [s]) :
    st.code s = [false] ∧ ∀ t, st.code t ≠ [] → t = s := by
  have honly (t : UInt8) (ht : h.frequency t ≠ 0) : t = s :=
    List.mem_singleton.mp (hone ▸ List.mem_filter.mpr ⟨mem_symbols t, by simpa using ht⟩)
  have hlen := (perm_leaves hne hb).length_eq
  rw [weights_eq, List.length_map, hone, List.length_singleton] at hlen
  refine ⟨?_, fun t ht => honly t ((hc.code_ne_nil_iff hne hb t).mp ht)⟩
  cases hroot : tree.root with
  | leaf t f =>
    have hpath : ((t, f), [false]) ∈ tree.root.paths := by
      rw [hroot]
      exact List.mem_singleton_self _
    have hcode : st.code t = [false] := hc.code_path _ hpath
    have ht : st.code t ≠ [] := by rw [hcode]; exact List.cons_ne_nil _ _
    obtain rfl := honly t ((hc.code_ne_nil_iff hne hb t).mp ht)
    exact hcode
  | subtree l r f =>
    have hl := l.toTree.length_leaves_pos
    have hr := r.toTree.length_leaves_pos
    rw [hroot, HuffmanNode.toTree, CodeTree.leaves_node, List.length_append] at hlen
    omega

/-- **The zeros at the beginning** of a bit stream are decoded with the table of one symbol; the
decoder does not get beyond the first one. -/
theorem decodes_zeros {s : UInt8} (hone : (symbols.filter fun s => h.frequency s ≠ 0) = [s])
    (hb : build Q past h = .ok tree) :
    ∃ st, ofTree tree = .ok st ∧ ∀ (encoded : BitArray) (n : ℕ) (r : List Bool),
      encoded.InBounds → encoded.bits = List.replicate n false ++ r → r.head? ≠ some false →
        ∀ build, Decoder.decode build st encoded =
          if build = .debug ∧ HuffmanCode.maxLength < r.length then
            .error (.assertion Decoder.tokenAssertion)
          else .ok (List.replicate n s) := by
  have hne : h.entries ≠ [] := entries_ne_nil_of_build hb
  obtain ⟨st, hst, hc⟩ := exists_codewords hne hb
  obtain ⟨hcode, honly⟩ := hc.code_single hne hb hone
  refine ⟨st, hst, fun encoded n r he hbits hr build => ?_⟩
  have hs : h.frequency s ≠ 0 :=
    (hc.code_ne_nil_iff hne hb s).mp (by rw [hcode]; exact List.cons_ne_nil _ _)
  have hun : Unmatched st.lookup r := by
    refine (SymbolTable.isLookup st).unmatched_iff.mpr fun t _ ht hpre => hr ?_
    obtain rfl := honly t ht
    rw [hcode] at hpre
    obtain ⟨r', rfl⟩ := hpre
    rfl
  have hp : Parse st.lookup ((List.replicate n s).flatMap st.code ++ r) _ r :=
    parse_flatMap (fun t ht => List.eq_of_mem_replicate ht ▸ hc.minimal hne hb hs) hun
  rw [List.flatMap_replicate, hcode, List.flatten_replicate_singleton, ← hbits] at hp
  exact Decoder.decode_eq_of_parse build (hc.readable hne hb)
    (fun t => (hc.length_code_le hne hb t).trans (by decide)) he hp

/-- The histogram of the string `a`. -/
def histogramA : Histogram :=
  Histogram.increment ⟨fun _ => 0⟩ 97

theorem build_histogramA :
    build (MinQueue.sortedList _) 0 histogramA = .ok ⟨.leaf 97 1⟩ := by
  have hentries : histogramA.entries = [(97, 1)] := by decide +kernel
  rw [build_eq, hentries]
  rfl

theorem decodes_zeros_histogramA :
    ∃ st, ofTree ⟨.leaf 97 1⟩ = .ok st ∧ ∀ (encoded : BitArray) (n : ℕ) (r : List Bool),
      encoded.InBounds → encoded.bits = List.replicate n false ++ r → r.head? ≠ some false →
        ∀ build, Decoder.decode build st encoded =
          if build = .debug ∧ HuffmanCode.maxLength < r.length then
            .error (.assertion Decoder.tokenAssertion)
          else .ok (List.replicate n 97) :=
  decodes_zeros (h := histogramA) (by decide +kernel) build_histogramA

end SymbolTable

end HafeCodec
