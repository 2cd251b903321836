import HafeCodec.Format.Writer
import HafeCodec.Library.Emission

/-!
# Writing to a stream that may fail

The bytes of a file go to an output stream part by part. What is written to a stream is put into its
buffer, and the buffer hands bytes over to a device when it sees fit: at every write, when it is
full, or not before the end of the program. The device takes a limited number of bytes and no more
after that, as a full disk does. A write that is told of bytes that were not taken sets the error
state, in which nothing more is written. The two parts in front of the table are tested by hand;
from the table on the exceptions of the stream are enabled, so that `std::ios_base::failure` is
thrown in the place of the errors that the source spells out.

How a stream buffers is left open (`Buffering`): the results hold for every rule by which bytes
leave the buffer. Whatever the rule, `Hafe.writeTo` puts the bytes of `Hafe.write` into the stream
in their order, and there is a number of bytes such that it returns exactly when the device takes at
least as many (`Hafe.emits_writeTo`).

## Main definitions

* `OStream`, `Buffering`, `Rdbuf`, `Output`.
* `OStream.write`.
* `Buffering.direct`, `Buffering.blocks`: no buffer, and a buffer of a given size.
* `Hafe.writeTo`: the writer on a stream.

## Main results

* `OStream.emits_write`: one write.
* `Hafe.emits_writeSymbolTableTo`, `Hafe.emits_writeTo`.
-/

open BitString

namespace HafeCodec

/-- An output stream: the bytes that have left its buffer, those in the buffer, whether its
exceptions are enabled, and whether it is in an error state. -/
structure OStream where
  handed : List UInt8
  pending : List UInt8
  exceptions : Bool
  fail : Bool
  deriving DecidableEq, Repr

/-- How a stream buffers. -/
structure Buffering where
  /-- The number of bytes that leave the buffer when these bytes are written. -/
  drain : OStream → List UInt8 → ℕ
  /-- The write is told whether the device has taken what left the buffer. The C library does not
  tell when a line was put into the buffer as a whole and could not be flushed. -/
  reports : OStream → List UInt8 → Bool

/-- The buffer of a stream, and the number of bytes that the device behind it takes. -/
structure Rdbuf extends Buffering where
  room : ℕ

/-- A computation that writes to a stream. What was written stays written when it fails. -/
abbrev Output : Type → Type :=
  ReaderT Rdbuf (EStateM Fault OStream)

namespace Output

/-- A computation that does not write. -/
def lift {α : Type} : Outcome α → Output α
  | .ok a => pure a
  | .error f => throw f

end Output

namespace OStream

/-- All bytes that were written to the stream. -/
def put (os : OStream) : List UInt8 :=
  os.handed ++ os.pending

/-- `os.setstate(std::ios_base::badbit)`. -/
def setBad : Output Bool := fun _ os =>
  if os.exceptions then .error .iosFailure { os with fail := true }
  else .ok false { os with fail := true }

/-- The bytes are put into the buffer, which hands over as many as it sees fit. -/
def sputn (b : Buffering) (os : OStream) (bytes : List UInt8) : OStream :=
  { os with
    handed := os.handed ++ (os.pending ++ bytes).take (b.drain os bytes)
    pending := (os.pending ++ bytes).drop (b.drain os bytes) }

/-- The write is told that the device has not taken what left the buffer, if it takes no more than
the given number of bytes. -/
def Refused (b : Buffering) (room : ℕ) (os : OStream) (bytes : List UInt8) : Prop :=
  os.handed.length < (os.sputn b bytes).handed.length ∧
    room < (os.sputn b bytes).handed.length ∧ b.reports os bytes

instance (b : Buffering) (room : ℕ) (os : OStream) (bytes : List UInt8) :
    Decidable (Refused b room os bytes) :=
  inferInstanceAs (Decidable (_ ∧ _ ∧ _))

/-- `os.write(..., n)` or `os.put(...)`, with the value of the stream converted to `bool`. -/
def write (bytes : List UInt8) : Output Bool := fun rdbuf os =>
  if os.fail then setBad rdbuf os
  else if Refused rdbuf.toBuffering rdbuf.room os bytes then
    setBad rdbuf (os.sputn rdbuf.toBuffering bytes)
  else .ok true (os.sputn rdbuf.toBuffering bytes)

/-- `if (!os.write(..., n)) throw std::runtime_error{what}`. -/
def writeOrThrow (bytes : List UInt8) (what : String) : Output Unit := do
  if ← write bytes then return ()
  else throw (.runtimeError what)

/-- `os.exceptions(ios_base::badbit | ios_base::failbit | ios_base::eofbit)`. -/
def enableExceptions : Output Unit := fun _ os =>
  if os.fail then .error .iosFailure { os with exceptions := true }
  else .ok () { os with exceptions := true }

/-- `bool{os}`. -/
def good : Output Bool := fun _ os =>
  .ok (!os.fail) os

end OStream

namespace Buffering

/-- Every loss is reported to the write that caused it. -/
def Reports (b : Buffering) : Prop :=
  ∀ os bytes, b.reports os bytes = true

/-- Nothing stays in the buffer, and every loss is reported. -/
def Unbuffered (b : Buffering) : Prop :=
  b.Reports ∧ ∀ os bytes, (os.pending ++ bytes).length ≤ b.drain os bytes

/-- The buffer has room for the given number of bytes, and nothing leaves it before it is full. -/
def Holds (b : Buffering) (size : ℕ) : Prop :=
  ∀ os bytes, (os.pending ++ bytes).length ≤ size → b.drain os bytes = 0

/-- No buffer at all. -/
def direct : Buffering where
  drain os bytes := (os.pending ++ bytes).length
  reports _ _ := true

theorem unbuffered_direct : direct.Unbuffered :=
  ⟨fun _ _ => rfl, fun _ _ => le_rfl⟩

/-- A buffer of the given size. When it is full, as many blocks of this size as there are leave it
at once. -/
def blocks (size : ℕ) : Buffering where
  drain os bytes :=
    let n := (os.pending ++ bytes).length
    if n ≤ size then 0 else n - n % size
  reports _ _ := true

theorem holds_blocks (size : ℕ) : (blocks size).Holds size :=
  fun _ _ hle => if_pos hle

end Buffering

namespace Hafe

open OStream

/-- `write_entry`, on a stream. -/
def writeEntryTo (sym : UInt8) (huffmanCode : BitArray) : Output Bool := do
  let _ ← OStream.write [sym]
  let _ ← OStream.write [HuffmanCode.length8 huffmanCode]
  let _ ← OStream.write (← Output.lift (writeBits huffmanCode))
  good

/-- One round of the loop of `write_symbol_table`. -/
def writeRowTo (st : SymbolTable) (sym : UInt8) : Output Unit := do
  if (st sym).empty then return ()
  else if ← writeEntryTo sym (st sym) then return ()
  else throw (.runtimeError "write_entry(): error writing the symbol table")

/-- `write_symbol_table(std::ostream &os, const SymbolTable &st)`, on a stream. -/
def writeSymbolTableTo (st : SymbolTable) : Output Unit := do
  enableExceptions
  writeOrThrow (toLE 4 (calcSymbolTableDiskSize st)) "error writing the symbol table size"
  symbols.forM (writeRowTo st)

/-- `write(std::ostream &os)`, on a stream. -/
def writeTo (h : Hafe) : Output Unit := do
  writeOrThrow magic "error writing the magic number"
  writeOrThrow h.reserved "error writing reserved bytes"
  writeSymbolTableTo h.symbolTable
  writeOrThrow (toLE 8 h.bitstreamBitsz) "error writing reserved bytes"
  writeOrThrow (← Output.lift (writeBits h.bitStream)) "error writing the bitstream"

end Hafe

/-! ### What is written -/

namespace OStream

variable (b : Buffering) (x : Bool)

/-- The bytes that have left the buffer and those in it, for all devices behind it. -/
def sink : Sink Rdbuf OStream UInt8 where
  env room := ⟨b, room⟩
  handed := handed
  pending := pending
  reports := b.Reports

/-- The stream is not in an error state, and its exceptions are enabled or not. If it is unbuffered,
its buffer is empty; and as long as the buffer has room for all bytes, none of them has left it. -/
structure Ready (os : OStream) : Prop where
  fail_eq : os.fail = false
  exceptions_eq : os.exceptions = x
  pending_eq : b.Unbuffered → os.pending = []
  handed_eq : ∀ size, b.Holds size → os.put.length ≤ size → os.handed = []

/-- The number of bytes that the device has to take for the write to succeed. -/
def needed (os : OStream) (bytes : List UInt8) : ℕ :=
  if os.handed.length < (os.sputn b bytes).handed.length ∧ b.reports os bytes then
    (os.sputn b bytes).handed.length
  else 0

variable {b x} {bytes : List UInt8} {os : OStream}

theorem put_sputn (b : Buffering) (os : OStream) (bytes : List UInt8) :
    (os.sputn b bytes).put = os.put ++ bytes := by
  rw [put, put, sputn, List.append_assoc, List.take_append_drop, List.append_assoc]

theorem length_handed_le_sputn (b : Buffering) (os : OStream) (bytes : List UInt8) :
    os.handed.length ≤ (os.sputn b bytes).handed.length := by
  rw [sputn, List.length_append]
  exact Nat.le_add_right _ _

theorem refused_iff {room : ℕ} : Refused b room os bytes ↔ room < needed b os bytes := by
  rw [Refused, needed]
  split_ifs with hneeded
  · exact ⟨fun h => h.2.1, fun h => ⟨hneeded.1, h, hneeded.2⟩⟩
  · exact ⟨fun h => absurd ⟨h.1, h.2.2⟩ hneeded, fun h => absurd h (Nat.not_lt_zero room)⟩

theorem Ready.sputn (hos : Ready b x os) : Ready b x (os.sputn b bytes) where
  fail_eq := hos.fail_eq
  exceptions_eq := hos.exceptions_eq
  pending_eq h := List.drop_eq_nil_of_le (h.2 os bytes)
  handed_eq size h hle := by
    rw [put_sputn, List.length_append] at hle
    have hnil := hos.handed_eq size h (by omega)
    rw [put, hnil, List.nil_append, ← List.length_append] at hle
    rw [OStream.sputn, hnil, h os bytes hle, List.take_zero]
    rfl

/-- A write that is not told of a loss. -/
theorem write_of_le (hos : Ready b x os) {room : ℕ} (hle : needed b os bytes ≤ room) :
    write bytes ⟨b, room⟩ os = .ok true (os.sputn b bytes) := by
  rw [write, hos.fail_eq, if_neg Bool.false_ne_true,
    if_neg (refused_iff.not.mpr (Nat.not_lt.mpr hle))]

/-- A write that is told of a loss. -/
theorem write_of_lt (hos : Ready b x os) {room : ℕ} (hlt : room < needed b os bytes) :
    write bytes ⟨b, room⟩ os =
      if x then .error .iosFailure { os.sputn b bytes with fail := true }
      else .ok false { os.sputn b bytes with fail := true } := by
  rw [write, hos.fail_eq, if_neg Bool.false_ne_true, if_pos (refused_iff.mpr hlt),
    ← hos.exceptions_eq]
  rfl

theorem needed_le (b : Buffering) (os : OStream) (bytes : List UInt8) :
    needed b os bytes ≤ (os.sputn b bytes).handed.length := by
  rw [needed]
  split_ifs
  · exact le_rfl
  · exact Nat.zero_le _

/-- When every loss is reported, a write that hands bytes over needs room for all of them. -/
theorem length_handed_sputn_le (hb : b.Reports) (os : OStream) (bytes : List UInt8) :
    (os.sputn b bytes).handed.length ≤ max (needed b os bytes) os.handed.length := by
  rw [needed]
  split_ifs with hneeded
  · exact le_max_left _ _
  · have hle : ¬ os.handed.length < (os.sputn b bytes).handed.length :=
      fun hlt => hneeded ⟨hlt, hb os bytes⟩
    exact (Nat.le_of_not_lt hle).trans (le_max_right _ _)

/-- **One write**: a part of a program that writes these bytes and goes on exactly when it is not
told of a loss. -/
theorem emits_of_write {m : Output Unit} {E : Fault → Prop}
    (hok : ∀ rdbuf os t, write bytes rdbuf os = .ok true t → m rdbuf os = .ok () t)
    (herror : ∀ rdbuf os t, x = true → write bytes rdbuf os = .error .iosFailure t →
      ∃ e, m rdbuf os = .error e t ∧ E e)
    (hfalse : ∀ rdbuf os t, x = false → write bytes rdbuf os = .ok false t →
      ∃ e, m rdbuf os = .error e t ∧ E e) :
    Emits (sink b) (Ready b x) m E bytes (Ready b x) := by
  intro os hos
  refine ⟨os.sputn b bytes, needed b os bytes, hos.sputn, put_sputn b os bytes,
    length_handed_le_sputn b os bytes, needed_le b os bytes,
    fun hb => length_handed_sputn_le hb os bytes,
    fun room hle => hok _ _ _ (write_of_le hos hle), fun room hlt => ?_⟩
  have hw := write_of_lt hos hlt
  have hroom := (refused_iff.mpr hlt).2.1
  cases x with
  | true =>
    obtain ⟨e, hm, he⟩ := herror _ _ _ rfl hw
    exact ⟨e, _, hm, he, List.prefix_rfl, hroom⟩
  | false =>
    obtain ⟨e, hm, he⟩ := hfalse _ _ _ rfl hw
    exact ⟨e, _, hm, he, List.prefix_rfl, hroom⟩

/-- **A part that is tested** is written, or an error says which one it was. -/
theorem emits_writeOrThrow (b : Buffering) (x : Bool) (bytes : List UInt8) (what : String) :
    Emits (sink b) (Ready b x) (writeOrThrow bytes what)
      (fun f => f = if x then .iosFailure else .runtimeError what) bytes (Ready b x) := by
  refine emits_of_write (fun rdbuf os t hw => Emission.bind_eq_of_ok hw)
    (fun rdbuf os t hx hw => ?_) fun rdbuf os t hx hw => ?_
  · exact ⟨.iosFailure, Emission.bind_eq_of_error hw, by rw [hx]; rfl⟩
  · exact ⟨.runtimeError what, Emission.bind_eq_of_ok hw, by rw [hx]; rfl⟩

/-- With the exceptions enabled a write is done or throws. -/
theorem emits_write (b : Buffering) (bytes : List UInt8) :
    Emits (sink b) (Ready b true) (write bytes >>= fun _ => pure ()) (fun f => f = .iosFailure)
      bytes (Ready b true) := by
  refine emits_of_write (fun rdbuf os t hw => Emission.bind_eq_of_ok hw)
    (fun rdbuf os t _ hw => ?_) fun rdbuf os t hx _ => Bool.noConfusion hx
  exact ⟨.iosFailure, Emission.bind_eq_of_error hw, rfl⟩

theorem emits_enableExceptions {E : Fault → Prop} :
    Emits (sink b) (Ready b x) enableExceptions E [] (Ready b true) :=
  Emits.nil fun os hos => ⟨{ os with exceptions := true },
    fun room => by rw [enableExceptions, hos.fail_eq]; rfl,
    ⟨hos.fail_eq, rfl, hos.pending_eq, hos.handed_eq⟩, rfl, rfl⟩

end OStream

namespace Hafe

open OStream

variable {b : Buffering} {st : SymbolTable} {h : Hafe}

/-- **One row.** -/
theorem emits_writeRowTo (hst : ∀ s, BytesStored (st s)) (s : UInt8) :
    Emits (sink b) (Ready b true) (writeRowTo st s) (fun f => f = .iosFailure) (row st s)
      (Ready b true) := by
  rw [writeRowTo, row]
  split_ifs with hempty
  · exact Emits.nil fun os hos => ⟨os, fun _ => rfl, hos, rfl, rfl⟩
  · have hgood : Emits (sink b) (Ready b true)
        (good >>= fun ok => if ok then pure () else throw (.runtimeError
          "write_entry(): error writing the symbol table"))
        (fun f => f = .iosFailure) [] (Ready b true) := by
      refine Emits.nil fun os hos => ⟨os, fun room => ?_, hos, rfl, rfl⟩
      have hok : good ((sink b).env room) os = .ok true os := by
        rw [good, hos.fail_eq]
        rfl
      exact Emission.bind_eq_of_ok hok
    have hentry := (emits_write b [s]).seq ((emits_write b [HuffmanCode.length8 (st s)]).seq
      ((emits_write b (st s).effectiveBytes).seq hgood))
    rw [List.append_nil] at hentry
    rw [writeEntryTo, writeBits_eq (hst s)]
    simp only [Output.lift, bind_assoc, pure_bind] at hentry ⊢
    exact hentry

/-- **The table.** -/
theorem emits_writeSymbolTableTo (b : Buffering) (x : Bool) (hst : ∀ s, BytesStored (st s)) :
    Emits (sink b) (Ready b x) (writeSymbolTableTo st) (fun f => f = .iosFailure)
      (toLE 4 ((rows st).length % 2 ^ 32) ++ rows st) (Ready b true) := by
  rw [← calcSymbolTableDiskSize_eq hst]
  exact emits_enableExceptions.seq ((emits_writeOrThrow b true _ _).seq
    (Emits.forM fun s _ => emits_writeRowTo hst s))

/-- A writer that succeeds has met no row outside of its vector. -/
theorem bytesStored_of_write {bytes : List UInt8} (hw : write h = .ok bytes) (s : UInt8) :
    BytesStored (h.symbolTable s) := by
  obtain ⟨table, htable, -⟩ := ExceptFold.bind_eq_ok_iff.mp hw
  obtain ⟨entries, hentries, -⟩ := ExceptFold.bind_eq_ok_iff.mp htable
  exact bytesStored_of_foldlM hentries s (mem_symbols s)

/-- The errors of the writer on a stream: those of the first two parts, if the exceptions of the
stream were not enabled, and that of the stream. -/
def WriteError (x : Bool) (f : Fault) : Prop :=
  f = .iosFailure ∨ x = false ∧ (f = .runtimeError "error writing the magic number" ∨
    f = .runtimeError "error writing reserved bytes")

theorem WriteError.isException {x : Bool} {f : Fault} (hf : WriteError x f) : f.IsException := by
  rcases hf with rfl | ⟨-, rfl | rfl⟩
  · exact Or.inl rfl
  · exact Or.inr ⟨_, rfl⟩
  · exact Or.inr ⟨_, rfl⟩

/-- **The writer on a stream** writes the bytes of the file. It fails when a write is told that the
device has not taken what left the buffer. -/
theorem emits_writeTo (b : Buffering) (x : Bool) {bytes : List UInt8} (hw : write h = .ok bytes) :
    Emits (sink b) (Ready b x) h.writeTo (WriteError x) bytes (Ready b true) := by
  have hst := bytesStored_of_write hw
  obtain ⟨rfl, hbits⟩ := eq_fileBytes_of_write hw
  have hios (f : Fault) (hf : f = .iosFailure) : WriteError x f := Or.inl hf
  have hpart (what : String) (hwhat : what = "error writing the magic number" ∨
      what = "error writing reserved bytes") (f : Fault)
      (hf : f = if x then .iosFailure else .runtimeError what) : WriteError x f := by
    cases x with
    | true => exact Or.inl hf
    | false =>
      rcases hwhat with rfl | rfl
      · exact Or.inr ⟨rfl, Or.inl hf⟩
      · exact Or.inr ⟨rfl, Or.inr hf⟩
  rw [writeTo, writeBits_eq hbits, fileBytes, ← List.append_assoc (toLE 4 _)]
  refine Emits.seq ((emits_writeOrThrow b x _ _).mono (hpart _ (Or.inl rfl))) ?_
  refine Emits.seq ((emits_writeOrThrow b x _ _).mono (hpart _ (Or.inr rfl))) ?_
  refine Emits.seq ((emits_writeSymbolTableTo b x hst).mono hios) ?_
  refine Emits.seq ((emits_writeOrThrow b true _ _).mono hios) ?_
  exact (emits_writeOrThrow b true _ _).mono hios

end Hafe

end HafeCodec
