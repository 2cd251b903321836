import HafeCodec.Codec.Encoder

/-!
# Where the encoders leave their vectors

`Encoder.encodeFast` reserves `8 * str.length()` bits, computed in 64 bits, and writes the codewords
at a running index without a test. So its outcome is decided by the sum of the lengths of the
codewords: it throws when no bits are reserved, returns the codewords in a row when they fit, and
otherwise writes the first bit that does not fit outside of the vector
(`Encoder.encodeFast_outcome`).

`Encoder.encode` appends the codewords and lets the vector grow, which `operator+=` does not do in
all cases. Its outcome is decided by the sizes of the vector, which are computed with numbers only
(`Encoder.encode_outcome`).

## Main definitions

* `Encoder.appendSize`, `Encoder.encodeSize`: the sizes of the vector.

## Main results

* `Encoder.Written.writeCode_eq_undefined`: a codeword that does not fit.
* `Encoder.Written.foldlM_writeCode`: the loop over the string.
* `Encoder.encodeFast_outcome`.
* `Encoder.append_outcome`, `Encoder.encode_outcome`.
-/

namespace HafeCodec

namespace Encoder

open BitArray

variable {st : SymbolTable} {m : ℕ} {l : List Bool} {p : BitArray × ℕ}

/-- The inner loop depends on the bits read of the codeword only, so that it may be cut off. -/
theorem writeCode_setBitLength {enc : HuffmanCode} {n : ℕ} (hn : n ≤ 255) :
    writeCode p (enc.setBitLength n) = (List.range n).foldlM (fun p b => do
      let encoded ← p.1.put p.2 (← enc.get b)
      return (encoded, u64 (p.2 + 1))) p := by
  rw [writeCode, HuffmanCode.toNat_length8 (show (enc.setBitLength n).bitLength ≤ _ from hn)]
  rfl

/-- **A codeword that does not fit** is written up to the end of the vector; its next bit is written
outside. -/
theorem Written.writeCode_eq_undefined (h : Written m l p) (hm : 8 * m < 2 ^ 64)
    {enc : HuffmanCode} (henc : enc.Readable) (hshort : enc.bitIdx ≤ 255) (hle : l.length ≤ 8 * m)
    (hover : 8 * m < l.length + enc.bitIdx) : Encoder.writeCode p enc = .error .undefined := by
  have hi : 8 * m - l.length < enc.bitIdx := by omega
  -- The part of the codeword that fits.
  have hcut : (enc.setBitLength (8 * m - l.length)).Readable :=
    ⟨hi.le.trans henc.length_le, (Nat.add_le_add_right hi.le 7).trans_lt henc.length_lt⟩
  have hcutIdx : (enc.setBitLength (8 * m - l.length)).bitIdx = 8 * m - l.length := rfl
  obtain ⟨q, hq, hw⟩ := h.writeCode hm hcut (hi.le.trans hshort) (by omega)
  rw [writeCode_setBitLength (hi.le.trans hshort)] at hq
  have hfull : 8 * q.1.vct.length ≤ q.2 := by
    rw [hw.size_eq, hw.index_eq, List.length_append, hcut.length_bits]
    omega
  have hbit : 8 * m - l.length < enc.bits.length := henc.length_bits.symm ▸ hi
  have hget := get_eq_ok (List.getElem?_eq_getElem hbit)
  rw [Encoder.writeCode, HuffmanCode.toNat_length8 hshort]
  refine ExceptFold.foldlM_range_error hi hq ?_
  rw [hget, ExceptFold.ok_bind, put_eq_undefined hfull]
  rfl

/-- **The loop over the string** writes the codewords that fit, and leaves the vector when they do
not. -/
theorem Written.foldlM_writeCode (str : List UInt8) (hst : ∀ s, (st s).Readable)
    (hshort : ∀ s, (st s).bitIdx ≤ 255)
    (hm : 8 * m < 2 ^ 64) (h : Written m l p) (hle : l.length ≤ 8 * m) :
    (l.length + (str.map fun c => (st c).bitLength).sum ≤ 8 * m →
      ∃ p', str.foldlM (fun p ch => Encoder.writeCode p (st ch)) p = .ok p' ∧
        Written m (l ++ str.flatMap st.code) p') ∧
      (8 * m < l.length + (str.map fun c => (st c).bitLength).sum →
        str.foldlM (fun p ch => Encoder.writeCode p (st ch)) p = .error .undefined) := by
  induction str generalizing l p with
  | nil =>
    refine ⟨fun _ => ⟨p, rfl, by rwa [List.flatMap_nil, List.append_nil]⟩, fun hover => ?_⟩
    rw [List.map_nil, List.sum_nil] at hover
    omega
  | cons c str ih =>
    have hbits : (st.code c).length = (st c).bitIdx := (hst c).length_bits
    rw [List.map_cons, List.sum_cons, List.foldlM_cons, List.flatMap_cons]
    rcases le_or_gt (l.length + (st c).bitIdx) (8 * m) with hfits | hover
    · obtain ⟨q, hq, hw⟩ := h.writeCode hm (hst c) (hshort c) hfits
      have hlen : (l ++ (st c).bits).length = l.length + (st c).bitLength := by
        rw [List.length_append]
        exact congrArg _ hbits
      obtain ⟨hok, herr⟩ := ih hw (hlen.trans_le hfits)
      rw [hlen, Nat.add_assoc] at hok herr
      rw [hq, ExceptFold.ok_bind, ← List.append_assoc]
      exact ⟨hok, herr⟩
    · have hun := h.writeCode_eq_undefined hm (hst c) (hshort c) hle hover
      refine ⟨fun hfits => ?_, fun _ => by rw [hun]; rfl⟩
      change _ + ((st c).bitIdx + _) ≤ _ at hfits
      omega

/-- The three things that the fast encoder can do. -/
theorem encodeFast_cases (str : List UInt8) (hst : ∀ s, (st s).Readable)
    (hshort : ∀ s, (st s).bitLength ≤ 255) :
    (u64 (str.length * 8) = 0 ∧ ∃ what, encodeFast st str = .error (.runtimeError what)) ∨
      (u64 (str.length * 8) ≠ 0 ∧
        (str.map fun c => (st c).bitLength).sum ≤ u64 (str.length * 8) ∧
        ∃ e, encodeFast st str = .ok e ∧ e.WellFormed ∧ e.bits = str.flatMap st.code) ∨
      u64 (str.length * 8) ≠ 0 ∧
        u64 (str.length * 8) < (str.map fun c => (st c).bitLength).sum ∧
        encodeFast st str = .error .undefined := by
  by_cases h0 : u64 (str.length * 8) = 0
  · exact Or.inl ⟨h0, _, by rw [encodeFast, h0]; rfl⟩
  rcases le_or_gt (str.map fun c => (st c).bitLength).sum (u64 (str.length * 8)) with hfits | hover
  · obtain ⟨e, he, hholds, hsize⟩ := exists_encodeFast hst hshort h0 hfits
    have hlt := (u64_mul_eight str.length).2
    exact Or.inr (Or.inl
      ⟨h0, hfits, e, he, hholds.wellFormed (hsize.trans_lt hlt), hholds.bits_eq⟩)
  · obtain ⟨a, ha, hzero, hsize, hlt⟩ := exists_reserved h0
    have hinit : Written a.vct.length [] (a, 0) :=
      ⟨rfl, rfl, rfl, hzero.capacity_eq, hzero.unpack_eq⟩
    have hover' := hover
    rw [← hsize] at hover'
    have hloop := (hinit.foldlM_writeCode str hst hshort hlt (Nat.zero_le _)).2
      (by rwa [List.length_nil, Nat.zero_add])
    refine Or.inr (Or.inr ⟨h0, hover, ?_⟩)
    rw [encodeFast, ha, ExceptFold.ok_bind, hloop]
    rfl

/-- **The outcome of the fast encoder** on any string. It returns exactly when bits are reserved, in
64-bit arithmetic, and the codewords fit into them, and then it returns the codewords in a row; it
leaves its vector exactly when bits are reserved and the codewords do not fit; and it throws exactly
when no bits are reserved. -/
theorem encodeFast_outcome (str : List UInt8) (hst : ∀ s, (st s).Readable)
    (hshort : ∀ s, (st s).bitLength ≤ 255) :
    ((∃ e, encodeFast st str = .ok e) ↔ u64 (str.length * 8) ≠ 0 ∧
        (str.map fun c => (st c).bitLength).sum ≤ u64 (str.length * 8)) ∧
      (encodeFast st str = .error .undefined ↔ u64 (str.length * 8) ≠ 0 ∧
        u64 (str.length * 8) < (str.map fun c => (st c).bitLength).sum) ∧
      ((∃ what, encodeFast st str = .error (.runtimeError what)) ↔ u64 (str.length * 8) = 0) ∧
      ∀ e, encodeFast st str = .ok e → e.WellFormed ∧ e.bits = str.flatMap st.code := by
  rcases encodeFast_cases str hst hshort with
    ⟨h0, what, herr⟩ | ⟨h0, hfits, e, he, hwf, hbits⟩ | ⟨h0, hover, hun⟩
  · simp [herr, h0]
  · simp [he, h0, hfits, hwf, hbits]
  · simp [hun, h0, hover]

theorem encodeFast_outcome_aba :
    ((∃ e, encodeFast .tableAb [97, 98, 97] = .ok e) ↔ u64 (3 * 8) ≠ 0 ∧
        ([97, 98, 97].map fun c => (SymbolTable.tableAb c).bitLength).sum ≤ u64 (3 * 8)) ∧
      (encodeFast .tableAb [97, 98, 97] = .error .undefined ↔ u64 (3 * 8) ≠ 0 ∧
        u64 (3 * 8) < ([97, 98, 97].map fun c => (SymbolTable.tableAb c).bitLength).sum) ∧
      ((∃ what, encodeFast .tableAb [97, 98, 97] = .error (.runtimeError what)) ↔
        u64 (3 * 8) = 0) ∧
      ∀ e, encodeFast .tableAb [97, 98, 97] = .ok e →
        e.WellFormed ∧ e.bits = [97, 98, 97].flatMap (SymbolTable.code .tableAb) :=
  encodeFast_outcome [97, 98, 97]
    (fun s => (SymbolTable.wellFormed_tableAb s).readable)
    fun s => (SymbolTable.bitLength_tableAb_le s).trans (by decide)

/-! ### The encoder that appends -/

/-- The number of bytes in the vector when `c` bits have been appended to `n` bits in `K` bytes,
unless the block is copied past the end of the vector. Bits that are pushed leave one bit free. -/
def appendSize (K n c : ℕ) : Option ℕ :=
  if c = 0 then some K
  else if n % 8 ≠ 0 then some (max K ((n + c) / 8 + 1))
  else if n / 8 + (c + 7) / 8 ≤ K then some K
  else if 8 * K < n / 8 + (c + 7) / 8 then some (n / 8 + (c + 7) / 8)
  else none

/-- The number of bytes in the vector when the codewords of a string have been appended. -/
def encodeSize (st : SymbolTable) : ℕ → ℕ → List UInt8 → Option ℕ
  | K, _, [] => some K
  | K, n, c :: str => (appendSize K n (st c).bitLength).bind fun K' =>
    encodeSize st K' (n + (st c).bitLength) str

variable {a o : BitArray} {K : ℕ}

/-- Appending keeps the size in proportion. -/
theorem appendSize_le {n c : ℕ} (hn : n ≤ 8 * K) (hK : appendSize K n c = some m) :
    K ≤ m ∧ n + c ≤ 8 * m ∧ 8 * m ≤ 8 * K + c + 8 := by
  rw [appendSize] at hK
  split_ifs at hK <;> obtain rfl := Option.some.inj hK <;> omega

/-- **Appending an array** as long as the capacity does not wrap: the sizes decide. -/
theorem append_outcome (ha : a.WellFormed) (ho : o.Readable) (hpos : 0 < a.vct.length)
    (hlt : 8 * a.vct.length + o.bitLength + 8 < 2 ^ 64) :
    (∀ K, appendSize a.vct.length a.bitLength o.bitLength = some K →
      ∃ a', a.append o = .ok a' ∧ a'.WellFormed ∧ a'.bits = a.bits ++ o.bits ∧
        a'.vct.length = K) ∧
      (appendSize a.vct.length a.bitLength o.bitLength = none →
        a.append o = .error .undefined) := by
  have hle := ha.length_le
  have hcap := ha.capacity_eq
  have hlen := ho.length_bits
  rw [bitLength, bitLength] at *
  have hblock (hmod : a.bitIdx % 8 = 0) :
      blockSize a o = a.bitIdx / 8 + (o.bitIdx + 7) / 8 := by
    rw [blockSize, bitLength, bitLength]
    omega
  have hcopy (h0 : o.bitIdx ≠ 0) (hmod : a.bitIdx % 8 = 0) (hroom : blockSize a o ≤ blockRoom a o)
      (hroom' : 8 * blockRoom a o < 2 ^ 64) :
      ∃ a', a.append o = .ok a' ∧ a'.WellFormed ∧ a'.bits = a.bits ++ o.bits ∧
        a'.vct.length = blockRoom a o := by
    obtain ⟨v, happ, hv, hbits⟩ := ha.exists_append_block ho h0 hmod hroom
    rw [hblock hmod] at hroom
    rw [u64_of_lt (by omega), u64_of_lt hroom'] at happ
    refine ⟨_, happ, ⟨congrArg (8 * ·) hv.symm, ?_, ?_⟩, hbits, hv⟩
    · change 8 * v.length < 2 ^ 64
      rwa [hv]
    · change a.bitIdx + o.bitIdx ≤ 8 * v.length
      omega
  rw [appendSize]
  split_ifs with h0 hmod hfits hgrow
  · have hnil : o.bits = [] := List.eq_nil_of_length_eq_zero (hlen.trans h0)
    refine ⟨fun K hK => ⟨a, if_pos h0, ha, by rw [hnil, List.append_nil], Option.some.inj hK⟩, ?_⟩
    intro h
    cases h
  · obtain ⟨a', ha', hpush⟩ := ha.exists_foldlM_pushBack ho hpos le_rfl (by omega)
    rw [List.take_of_length_le hlen.le] at hpush
    have hge := hpush.size_ge
    have hle' := hpush.size_le
    have hidx := hpush.bitIdx_eq
    have hroom := hpush.length_lt (List.ne_nil_of_length_pos (by omega))
    rw [hlen] at hle' hidx
    refine ⟨fun K hK => ⟨a', (append_eq_foldlM h0 hmod).trans ha', hpush.wellFormed ha (by omega),
      hpush.bits_eq, ?_⟩, ?_⟩
    · rw [← Option.some.inj hK]
      omega
    · intro h
      cases h
  · have hroom : blockRoom a o = a.vct.length := by
      rw [blockRoom, if_neg (by rw [hblock (by omega)]; omega)]
    have hres := hcopy h0 (by omega) (by rw [hblock (by omega), hroom]; exact hfits) (by omega)
    rw [hroom] at hres
    refine ⟨fun K hK => Option.some.inj hK ▸ hres, ?_⟩
    intro h
    cases h
  · have hroom : blockRoom a o = a.bitIdx / 8 + (o.bitIdx + 7) / 8 := by
      rw [blockRoom, if_pos (by rw [hblock (by omega)]; omega), hblock (by omega)]
    have hres := hcopy h0 (by omega) (by rw [hblock (by omega), hroom]) (by omega)
    rw [hroom] at hres
    refine ⟨fun K hK => Option.some.inj hK ▸ hres, ?_⟩
    intro h
    cases h
  · have hroom : blockRoom a o = a.vct.length := by
      rw [blockRoom, if_neg (by rw [hblock (by omega)]; omega)]
    refine ⟨?_, fun _ => ha.append_block_eq_undefined ho h0 (by omega) (by
      rw [hroom, hblock (by omega)]
      omega)⟩
    intro K hK
    cases hK

/-- **The loop over the string** appends the codewords as long as the sizes allow it. -/
theorem foldlM_append (str : List UInt8) (hst : ∀ s, (st s).Readable)
    (hshort : ∀ s, (st s).bitLength ≤ 255) (ha : a.WellFormed) (hpos : 0 < a.vct.length)
    (hlt : 8 * a.vct.length + 272 * str.length < 2 ^ 64) :
    (∀ K, encodeSize st a.vct.length a.bitLength str = some K →
      ∃ e, str.foldlM (fun encoded ch => encoded.append (st ch)) a = .ok e ∧ e.WellFormed ∧
        e.bits = a.bits ++ str.flatMap st.code ∧ e.vct.length = K) ∧
      (encodeSize st a.vct.length a.bitLength str = none →
        str.foldlM (fun encoded ch => encoded.append (st ch)) a = .error .undefined) := by
  induction str generalizing a with
  | nil =>
    constructor
    · intro K hK
      refine ⟨a, rfl, ha, ?_, Option.some.inj hK⟩
      rw [List.flatMap_nil, List.append_nil]
    · intro h
      cases h
  | cons c str ih =>
    rw [List.length_cons] at hlt
    have hc := hshort c
    obtain ⟨hok, herr⟩ := append_outcome ha (hst c) hpos (by omega)
    rw [encodeSize, List.foldlM_cons, List.flatMap_cons]
    cases hK : appendSize a.vct.length a.bitLength (st c).bitLength with
    | none =>
      rw [herr hK]
      constructor
      · intro K h
        cases h
      · exact fun _ => rfl
    | some m =>
      obtain ⟨a', ha', hwf, hbits, hsize⟩ := hok m hK
      obtain ⟨hge, -, hle⟩ := appendSize_le ha.length_le hK
      have hidx : a'.bitLength = a.bitLength + (st c).bitLength := by
        have hlen := congrArg List.length hbits
        rwa [List.length_append, hwf.readable.length_bits, ha.readable.length_bits,
          (hst c).length_bits] at hlen
      rw [ha', ExceptFold.ok_bind, Option.bind_some, ← hsize, ← hidx, ← List.append_assoc]
      have hrest := ih hwf (by omega) (by omega)
      rw [hbits] at hrest
      exact hrest

/-- **The outcome of the encoder that appends**, on any string that is not empty. The sizes decide:
it returns the codewords in a row, or copies a block past the end of its vector. -/
theorem encode_outcome {str : List UInt8} (hne : str ≠ []) (hlen : str.length < 2 ^ 55)
    (hst : ∀ s, (st s).Readable) (hshort : ∀ s, (st s).bitLength ≤ 255) :
    (∀ K, encodeSize st str.length 0 str = some K ↔
      ∃ e, encode st str = .ok e ∧ e.vct.length = K) ∧
      (encodeSize st str.length 0 str = none ↔ encode st str = .error .undefined) ∧
      ∀ e, encode st str = .ok e → e.WellFormed ∧ e.bits = str.flatMap st.code := by
  have hpos := List.length_pos_iff.mpr hne
  have hu : u64 (str.length * 8) = str.length * 8 := u64_of_lt (by omega)
  obtain ⟨a, ha, hzero, hsize, hlt⟩ := exists_reserved (show u64 (str.length * 8) ≠ 0 by omega)
  have hwf : a.WellFormed := hzero.wellFormed (by omega)
  have hidx : a.bitLength = 0 := hzero.bitIdx_eq
  have hvct : a.vct.length = str.length := by omega
  obtain ⟨hok, herr⟩ := foldlM_append str hst hshort hwf (by omega) (by omega)
  rw [hidx, hvct, hzero.bits_eq] at hok
  rw [hidx, hvct] at herr
  have henc : encode st str = str.foldlM (fun encoded ch => encoded.append (st ch)) a := by
    rw [encode, ha, ExceptFold.ok_bind]
  rw [henc]
  cases hK : encodeSize st str.length 0 str with
  | none =>
    rw [herr hK]
    simp
  | some m =>
    obtain ⟨e, he, hwf', hbits, hm⟩ := hok m hK
    rw [he]
    simp [hwf', hbits, hm]

/-- A table with codewords of `n` bytes. -/
def tableLong (n : ℕ) : SymbolTable :=
  fun _ => ⟨List.replicate n 255, 8 * n, 8 * n⟩

/-- One codeword of two bytes is copied past the end of the vector, since the byte reserved has
eight bits; for one of nine bytes the vector grows. -/
theorem encode_outcome_long : encode (tableLong 2) [97] = .error .undefined ∧
    ∃ e, encode (tableLong 9) [97] = .ok e ∧ e.vct.length = 9 := by
  have hread (n : ℕ) (hn : n ≤ 9) (s : UInt8) : (tableLong n s).Readable := by
    constructor
    · exact (congrArg (8 * ·) List.length_replicate).ge
    · change 8 * n + 7 < 2 ^ 64
      omega
  exact ⟨(encode_outcome (List.cons_ne_nil _ _) (by decide) (hread 2 (by decide))
      fun _ => (by decide : 8 * 2 ≤ 255)).2.1.mp rfl,
    ((encode_outcome (List.cons_ne_nil _ _) (by decide) (hread 9 (by decide))
      fun _ => (by decide : 8 * 9 ≤ 255)).1 9).mp rfl⟩

end Encoder

end HafeCodec
