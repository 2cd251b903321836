import HafeCodec.Codec.RoundTrip

/-!
# What the decoder drops

Nothing checks the bit stream of a file against its table. The bits of a file that was read are
spelled by codewords of the table and a rest in which no codeword is found; the decoder puts out the
symbols of the codewords and drops the rest. Only in the debug build, and only for a rest of more
than 255 bits, the assertion fails. So the bits of a file are decoded without a silent loss exactly
when the rest is empty or the assertion fails on it (`Hafe.noSilentLoss_iff`).

## Main definitions

* `Hafe.NoSilentLoss`.
* `Archive.cutFile`: a file whose only bit does not complete a codeword.

## Main results

* `Archive.ofHafe_eq`: the outcome of the decoder on a file.
* `Hafe.noSilentLoss_iff`, `Hafe.not_noSilentLoss_cutFile`.
-/

open ShortestMatch

namespace HafeCodec

namespace Archive

variable (a : Archive)

theorem readable_symbolTable (s : UInt8) : (a.symbolTable s).Readable :=
  (a.wellFormed_symbolTable s).readable

variable {a}

/-- **The outcome of the decoder on a file.** -/
theorem ofHafe_eq (build : Build) {out : List UInt8} {r : List Bool}
    (hp : Parse a.symbolTable.lookup a.bitStream.bits out r) :
    Decoder.ofHafe build a.toHafe =
      if build = .debug ∧ HuffmanCode.maxLength < r.length then
        .error (.assertion Decoder.tokenAssertion)
      else .ok ⟨a.symbolTable, a.bitStream, out⟩ := by
  have hdecode := Decoder.decode_eq_of_parse build a.readable_symbolTable a.length_code_le
    a.wellFormed_bitStream.readable.inBounds hp
  change Decoder.new build a.symbolTable a.bitStream = _
  rw [Decoder.new, hdecode]
  split_ifs
  · rfl
  · rfl

/-- The token outgrows the codewords of a file when the rest does. -/
theorem exists_tooLong_iff {out : List UInt8} {r : List Bool}
    (hp : Parse a.symbolTable.lookup a.bitStream.bits out r) :
    (∃ i < a.bitStream.bits.length, Decoder.TooLong a.symbolTable a.bitStream.bits i) ↔
      HuffmanCode.maxLength < r.length :=
  exists_long_token_iff (Decoder.length_le_of_lookup a.length_code_le) hp

end Archive

namespace Hafe

/-- The decoder signals an error, or returns a string whose codewords are the bits of the file, and
the token is shorter than 255 bits before every bit. -/
def NoSilentLoss (build : Build) (h : Hafe) : Prop :=
  (∃ f, Decoder.ofHafe build h = .error f) ∨
    ∃ d, Decoder.ofHafe build h = .ok d ∧
      d.str.flatMap h.symbolTable.code = h.bitStream.bits ∧
      ∀ i < h.bitStream.bits.length, ¬ Decoder.TooLong h.symbolTable h.bitStream.bits i

/-- **No silent loss.** The decoder signals an error or decodes all bits of a file exactly when the
bits are spelled by codewords padded with zeros, none of which begins with another one, and a rest
that is empty, or is longer than 255 bits and begins with no codeword in the debug build. -/
theorem noSilentLoss_iff (build : Build) {l : List UInt8} {x : Bool} {h : Hafe} {is' : IStream}
    (hr : read (IStream.ofBytes l x) = .ok (h, is')) :
    NoSilentLoss build h ↔
      ∃ w r, Spelling h.symbolTable.code (fun s => (h.symbolTable s).ZeroPadded)
          h.bitStream.bits w r ∧
        (r = [] ∨ build = .debug ∧ HuffmanCode.maxLength < r.length) := by
  obtain ⟨a, -, -, rfl, -⟩ := read_eq_ok_iff.mp hr
  have hl := SymbolTable.isLookup a.symbolTable
  constructor
  · intro hloss
    have hp : Parse a.symbolTable.lookup a.bitStream.bits _ _ := run_parse _
    have hs := hp.spelling hl
    have hdecode := Archive.ofHafe_eq build hp
    refine ⟨_, _, hs, ?_⟩
    by_cases hlong : build = .debug ∧
        HuffmanCode.maxLength < (run a.symbolTable.lookup a.bitStream.bits).2.length
    · exact Or.inr hlong
    rw [if_neg hlong] at hdecode
    rcases hloss with ⟨f, hf⟩ | ⟨d, hd, hbits, -⟩
    · rw [hdecode] at hf
      cases hf
    · obtain rfl := Except.ok.inj (hdecode.symm.trans hd)
      exact Or.inl (List.self_eq_append_right.mp (hbits.trans hs.eq_append))
  · rintro ⟨w, r, hs, hr⟩
    have hp := hs.parse hl
    have hdecode := Archive.ofHafe_eq build hp
    rcases hr with rfl | hlong
    · rw [if_neg fun h => absurd h.2 (Nat.not_lt_zero _)] at hdecode
      refine Or.inr ⟨_, hdecode, ?_, fun i hi hlong => ?_⟩
      · exact (List.append_nil _).symm.trans (hp.spelling hl).eq_append.symm
      · exact Nat.not_lt_zero _ ((Archive.exists_tooLong_iff hp).mp ⟨i, hi, hlong⟩)
    · rw [if_pos hlong] at hdecode
      exact Or.inl ⟨_, hdecode⟩

theorem noSilentLoss_iff_fileA :
    NoSilentLoss .debug (Archive.fileA 0).toHafe ↔
      ∃ w r, Spelling (Archive.fileA 0).symbolTable.code
          (fun s => ((Archive.fileA 0).symbolTable s).ZeroPadded)
          (Archive.fileA 0).bitStream.bits w r ∧
        (r = [] ∨ Build.debug = .debug ∧ HuffmanCode.maxLength < r.length) :=
  noSilentLoss_iff .debug (read_bytes (Archive.fileA 0) [] false)

end Hafe

/-- A file with the codeword `00` for the symbol `a` and the single bit `0`. -/
def Archive.cutFile : Archive :=
  ofEntry ⟨97, 2, [0], by decide, by decide⟩

namespace Hafe

/-- **A bit is lost** when it does not complete a codeword. -/
theorem not_noSilentLoss_cutFile :
    (∃ is', read (IStream.ofBytes Archive.cutFile.bytes false) =
      .ok (Archive.cutFile.toHafe, is')) ∧
      ∀ build, (∃ d, Decoder.ofHafe build Archive.cutFile.toHafe = .ok d ∧ d.str = []) ∧
        ¬ NoSilentLoss build Archive.cutFile.toHafe := by
  have hbits : Archive.cutFile.bitStream.bits = [false] := rfl
  have hun : Unmatched Archive.cutFile.symbolTable.lookup [false] := by
    refine (SymbolTable.isLookup _).unmatched_iff.mpr fun s _ hne hpre => ?_
    rw [Archive.cutFile, Archive.code_ofEntry] at hne hpre
    split_ifs at hne hpre
    · exact absurd hpre (by decide)
    · exact hne rfl
  have hread := read_bytes Archive.cutFile [] false
  rw [List.append_nil] at hread
  refine ⟨⟨_, hread⟩, fun build => ?_⟩
  have hdecode := Archive.ofHafe_eq build (hbits ▸ Parse.stop hun)
  rw [if_neg fun h => absurd h.2 (by decide)] at hdecode
  refine ⟨⟨_, hdecode, rfl⟩, ?_⟩
  rintro (⟨f, hf⟩ | ⟨d, hd, hd', -⟩)
  · rw [hdecode] at hf
    cases hf
  · obtain rfl := Except.ok.inj (hdecode.symm.trans hd)
    exact List.cons_ne_nil false [] (hbits.symm.trans hd'.symm)

end Hafe

end HafeCodec
