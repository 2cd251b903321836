import HafeCodec.Machine
import Mathlib.Data.List.Count
import Mathlib.Data.List.NodupEquivFin
import Mathlib.Data.List.Range
import Mathlib.Logic.Function.Basic

/-!
# The histogram and its iterator

The histogram counts the occurrences of every byte of the input in 32-bit counters. Its iterator
visits the counters that are not zero. The increment of the iterator tests the index before it
adds one to it, and so reads the array at index `256` at the end of a walk; the value found there
is the parameter `past` of the model, and no result depends on it.

## Main definitions

* `symbols`: the bytes in increasing order.
* `Histogram`, `Histogram.ofData`.
* `Histogram.skipZeros`, `Histogram.next`, `Histogram.walk`: the iterator.
* `Histogram.entries`: the counters that are not zero.

## Main results

* `Histogram.walk_begin`: a walk visits the counters that are not zero in increasing order.
* `Histogram.frequency_ofData`: the counters after the constructor.
* `Histogram.throwsOrCounts_iff`: they are exact as long as no symbol occurs `2^32` times.
-/

namespace HafeCodec

/-- The bytes in increasing order. -/
def symbols : List UInt8 :=
  (List.range 256).map UInt8.ofNat

theorem mem_symbols (s : UInt8) : s ∈ symbols :=
  List.mem_map.mpr ⟨s.toNat, List.mem_range.mpr s.toNat_lt, UInt8.ofNat_toNat⟩

theorem length_symbols : symbols.length = 256 := by
  rw [symbols, List.length_map, List.length_range]

theorem pairwise_lt_symbols : symbols.Pairwise (· < ·) := by
  refine List.pairwise_map.mpr (List.pairwise_lt_range.imp_of_mem fun {i j} hi hj hij => ?_)
  have hi' := List.mem_range.mp hi
  have hj' := List.mem_range.mp hj
  rw [UInt8.lt_iff_toNat_lt, UInt8.toNat_ofNat', UInt8.toNat_ofNat']
  omega

theorem nodup_symbols : symbols.Nodup :=
  pairwise_lt_symbols.imp UInt8.ne_of_lt

/-- `m_frequency`. -/
structure Histogram where
  frequency : UInt8 → UInt32

namespace Histogram

/-- `m_frequency[symbol]++`. -/
def increment (h : Histogram) (symbol : UInt8) : Histogram :=
  ⟨Function.update h.frequency symbol (h.frequency symbol + 1)⟩

/-- `Histogram(const uint8_t *data, uint64_t len)`. -/
def ofData (data : List UInt8) : Outcome Histogram :=
  if data.length = 2 ^ 64 - 1 then .error (.runtimeError "overflow, invalid length value")
  else .ok (data.foldl increment ⟨fun _ => 0⟩)

variable (h : Histogram) (past : UInt32)

/-- `m_frequency[i]`, where `past` is found at index `256`. -/
def read (i : ℕ) : UInt32 :=
  if i < 256 then h.frequency (UInt8.ofNat i) else past

/-- The index of an iterator constructed at index `i`. -/
def skipZeros (i : ℕ) : ℕ :=
  if i < 256 ∧ h.read past i = 0 then skipZeros (i + 1) else i
termination_by 256 - i

/-- The index of an iterator at index `i` after its increment. -/
def next (i : ℕ) : ℕ :=
  if i < 256 then if h.read past (i + 1) = 0 then next (i + 1) else i + 1 else i
termination_by 256 - i

theorem lt_next {i : ℕ} (hi : i < 256) : i < h.next past i := by
  fun_induction next h past i with
  | case1 i hi hz ih =>
    rcases lt_or_ge (i + 1) 256 with hlt | hge
    · exact (Nat.lt_succ_self i).trans (ih hlt)
    · rw [next, if_neg (by omega)]
      exact Nat.lt_succ_self i
  | case2 i hi hz => exact Nat.lt_succ_self i
  | case3 i hn => exact absurd hi hn

/-- The pairs that an iterator at index `i` yields on its way to `end()`. -/
def walk (i : ℕ) : Outcome (List (UInt8 × UInt32)) :=
  if i = 256 then .ok []
  else if _hi : 256 ≤ i then .error (.runtimeError "invalid iterator access")
  else do
    let rest ← walk (h.next past i)
    return (UInt8.ofNat i, h.read past i) :: rest
termination_by 256 - i
decreasing_by
  have := h.lt_next past (Nat.lt_of_not_le _hi)
  omega

/-- `begin()`. -/
def begin : ℕ :=
  h.skipZeros past 0

/-- The symbols that occur, with their counters. -/
def entries : List (UInt8 × UInt32) :=
  (symbols.filter fun s => h.frequency s ≠ 0).map fun s => (s, h.frequency s)

/-! ### The walk of the iterator -/

/-- The entries from index `i` on. -/
private def entriesFrom (i : ℕ) : List (UInt8 × UInt32) :=
  (((List.range' i (256 - i)).map UInt8.ofNat).filter fun s => h.frequency s ≠ 0).map
    fun s => (s, h.frequency s)

/-- An index at which a walk can stand. -/
private def IsStop (i : ℕ) : Prop :=
  i = 256 ∨ i < 256 ∧ h.read past i ≠ 0

private theorem entriesFrom_of_ne_zero {i : ℕ} (hi : i < 256) (hne : h.read past i ≠ 0) :
    h.entriesFrom i = (UInt8.ofNat i, h.read past i) :: h.entriesFrom (i + 1) := by
  rw [read, if_pos hi] at hne ⊢
  rw [entriesFrom, show 256 - i = 256 - (i + 1) + 1 by omega, List.range'_succ, List.map_cons,
    List.filter_cons_of_pos (by simpa using hne), List.map_cons]
  rfl

private theorem entriesFrom_of_eq_zero {i : ℕ} (hi : i < 256) (hz : h.read past i = 0) :
    h.entriesFrom i = h.entriesFrom (i + 1) := by
  rw [read, if_pos hi] at hz
  rw [entriesFrom, show 256 - i = 256 - (i + 1) + 1 by omega, List.range'_succ, List.map_cons,
    List.filter_cons_of_neg (by simpa using hz)]
  rfl

private theorem skipZeros_spec {i : ℕ} (hi : i ≤ 256) :
    h.IsStop past (h.skipZeros past i) ∧
      h.entriesFrom (h.skipZeros past i) = h.entriesFrom i := by
  fun_induction skipZeros h past i with
  | case1 i hz ih =>
    obtain ⟨hstop, heq⟩ := ih (by omega)
    exact ⟨hstop, heq.trans (h.entriesFrom_of_eq_zero past hz.1 hz.2).symm⟩
  | case2 i hz =>
    refine ⟨?_, rfl⟩
    rcases hi.eq_or_lt with rfl | hlt
    · exact Or.inl rfl
    · exact Or.inr ⟨hlt, fun h0 => hz ⟨hlt, h0⟩⟩

private theorem next_spec {i : ℕ} (hi : i < 256) :
    h.IsStop past (h.next past i) ∧ h.entriesFrom (h.next past i) = h.entriesFrom (i + 1) := by
  fun_induction next h past i with
  | case1 i hlt hz ih =>
    rcases (Nat.succ_le_of_lt hlt).eq_or_lt with heq | hlt'
    · rw [next, if_neg (by omega)]
      exact ⟨Or.inl heq, rfl⟩
    · obtain ⟨hstop, heq⟩ := ih hlt'
      exact ⟨hstop, heq.trans (h.entriesFrom_of_eq_zero past hlt' hz).symm⟩
  | case2 i hlt hz =>
    rcases (Nat.succ_le_of_lt hlt).eq_or_lt with heq | hlt'
    · exact ⟨Or.inl heq, rfl⟩
    · exact ⟨Or.inr ⟨hlt', hz⟩, rfl⟩
  | case3 i hn => exact absurd hi hn

private theorem IsStop.le {i : ℕ} (hi : h.IsStop past i) : i ≤ 256 :=
  hi.elim Eq.le fun hlt => hlt.1.le

theorem next_le {i : ℕ} (hi : i < 256) : h.next past i ≤ 256 :=
  IsStop.le h past (h.next_spec past hi).1

theorem begin_le : h.begin past ≤ 256 :=
  IsStop.le h past (h.skipZeros_spec past (Nat.zero_le 256)).1

private theorem walk_of_isStop {i : ℕ} (hi : h.IsStop past i) :
    h.walk past i = .ok (h.entriesFrom i) := by
  fun_induction walk h past i with
  | case1 => rfl
  | case2 i hne hge =>
    rcases hi with heq | ⟨hlt, -⟩
    · exact absurd heq hne
    · omega
  | case3 i hne hge ih =>
    obtain heq | ⟨hlt, hnz⟩ := hi
    · exact absurd heq hne
    obtain ⟨hstop, hnext⟩ := h.next_spec past hlt
    rw [ih hstop, ExceptFold.ok_bind, hnext, h.entriesFrom_of_ne_zero past hlt hnz]
    rfl

/-- **A walk visits the counters that are not zero**, each once and in increasing order, whatever
is found behind the array. -/
theorem walk_begin : h.walk past (h.begin past) = .ok h.entries := by
  obtain ⟨hstop, heq⟩ := h.skipZeros_spec past (Nat.zero_le 256)
  rw [begin, h.walk_of_isStop past hstop, heq, entriesFrom, entries, symbols, List.range_eq_range']

theorem map_fst_entries : h.entries.map Prod.fst = symbols.filter fun s => h.frequency s ≠ 0 := by
  rw [entries, List.map_map]
  exact List.map_id _

/-- The symbols of the entries increase strictly. -/
theorem pairwise_lt_entries : h.entries.Pairwise fun e e' => e.1 < e'.1 := by
  rw [← List.pairwise_map (R := (· < ·)), map_fst_entries]
  exact pairwise_lt_symbols.filter _

theorem nodup_map_fst_entries : (h.entries.map Prod.fst).Nodup := by
  rw [map_fst_entries]
  exact nodup_symbols.filter _

theorem mem_entries {s : UInt8} {f : UInt32} :
    (s, f) ∈ h.entries ↔ f = h.frequency s ∧ f ≠ 0 := by
  rw [entries, List.mem_map]
  constructor
  · rintro ⟨t, ht, heq⟩
    obtain ⟨rfl, rfl⟩ := Prod.mk.inj heq
    exact ⟨rfl, by simpa using (List.mem_filter.mp ht).2⟩
  · rintro ⟨rfl, hne⟩
    exact ⟨s, List.mem_filter.mpr ⟨mem_symbols s, by simpa using hne⟩, rfl⟩

theorem entries_eq_nil_iff : h.entries = [] ↔ ∀ s, h.frequency s = 0 := by
  rw [entries, List.map_eq_nil_iff, List.filter_eq_nil_iff]
  simp [mem_symbols]

theorem entries_ne_nil_iff : h.entries ≠ [] ↔ ∃ s, h.frequency s ≠ 0 := by
  rw [Ne, entries_eq_nil_iff, not_forall]

/-! ### The counters -/

theorem frequency_increment (b s : UInt8) :
    (h.increment b).frequency s = if s = b then h.frequency b + 1 else h.frequency s :=
  Function.update_apply _ _ _ _

theorem frequency_foldl_increment (data : List UInt8) (s : UInt8) :
    ((data.foldl increment h).frequency s).toNat =
      ((h.frequency s).toNat + data.count s) % 2 ^ 32 := by
  induction data generalizing h with
  | nil =>
    rw [List.foldl_nil, List.count_nil, Nat.add_zero, Nat.mod_eq_of_lt (h.frequency s).toNat_lt]
  | cons b data ih =>
    rw [List.foldl_cons, ih, frequency_increment]
    by_cases hb : b = s
    · subst hb
      rw [if_pos rfl, List.count_cons_self, UInt32.toNat_add, UInt32.toNat_one]
      omega
    · rw [if_neg (Ne.symm hb), List.count_cons_of_ne hb]

/-- **The counters after the constructor** are the numbers of occurrences modulo `2^32`. -/
theorem frequency_ofData {data : List UInt8} {h : Histogram} (hd : ofData data = .ok h)
    (s : UInt8) : (h.frequency s).toNat = data.count s % 2 ^ 32 := by
  rw [ofData] at hd
  split_ifs at hd with hlen
  obtain rfl := Except.ok.inj hd
  rw [frequency_foldl_increment]
  congr 1
  exact Nat.zero_add _

theorem ofData_eq_ok {data : List UInt8} (hd : data.length ≠ 2 ^ 64 - 1) :
    ∃ h, ofData data = .ok h :=
  ⟨_, if_neg hd⟩

/-- The constructor throws, or the counters are the numbers of occurrences. -/
def ThrowsOrCounts (data : List UInt8) : Prop :=
  (∃ f, ofData data = .error f) ∨
    ∃ h, ofData data = .ok h ∧ ∀ s, (h.frequency s).toNat = data.count s

/-- **Exact counting.** The counters are exact if and only if no symbol occurs `2^32` times. The
length is tested against the range of 64 bits, the increments of the 32-bit counters are not
tested. -/
theorem throwsOrCounts_iff {data : List UInt8} (hd : data.length < 2 ^ 64 - 1) :
    ThrowsOrCounts data ↔ ∀ s, data.count s < 2 ^ 32 := by
  obtain ⟨h, hh⟩ := ofData_eq_ok hd.ne
  constructor
  · rintro (⟨f, hf⟩ | ⟨h', hh', hcount⟩) s
    · rw [hh] at hf
      cases hf
    · rw [← hcount s]
      exact (h'.frequency s).toNat_lt
  · intro hlt
    refine Or.inr ⟨h, hh, fun s => ?_⟩
    rw [frequency_ofData hh, Nat.mod_eq_of_lt (hlt s)]

theorem throwsOrCounts_aab : ThrowsOrCounts [97, 97, 98] :=
  (throwsOrCounts_iff (by decide)).mpr fun s =>
    (List.count_le_length).trans_lt (by decide)

/-- The letter `a`, `2^32` times. -/
def wrappingData : List UInt8 :=
  List.replicate (2 ^ 32) 97

theorem count_wrappingData : wrappingData.count 97 = 2 ^ 32 :=
  List.count_replicate_self

/-- **The counter wraps** to zero, without an exception, for a symbol that occurs `2^32` times. -/
theorem not_throwsOrCounts_wrappingData :
    wrappingData.length < 2 ^ 64 - 1 ∧ ¬ ThrowsOrCounts wrappingData ∧
      ∃ h, ofData wrappingData = .ok h ∧ h.frequency 97 = 0 ∧ wrappingData.count 97 = 2 ^ 32 := by
  have hlen : wrappingData.length < 2 ^ 64 - 1 := by
    rw [wrappingData, List.length_replicate]
    decide
  obtain ⟨h, hh⟩ := ofData_eq_ok hlen.ne
  have hzero : (h.frequency 97).toNat = 0 := by
    rw [frequency_ofData hh, count_wrappingData, Nat.mod_self]
  refine ⟨hlen, ?_, h, hh, UInt32.toNat_inj.mp hzero, count_wrappingData⟩
  rintro (⟨f, hf⟩ | ⟨h', hh', hcount⟩)
  · rw [hh] at hf
    cases hf
  · have heq := hcount 97
    rw [Except.ok.inj (hh'.symm.trans hh), hzero, count_wrappingData] at heq
    cases heq

end Histogram

end HafeCodec
