import HafeCodec.Codec.Damage
import HafeCodec.Format.OutputStream

/-!
# The program

Without an argument the program compresses its input, with one it decompresses it. It writes to
`cout`, whose buffer is flushed when the program ends, and it looks neither at this flush nor, in
the decompressor, at the write itself. So a device that does not take the whole output goes
unnoticed unless bytes that it refuses leave the buffer while the compressor writes
(`main_pipeline`): an unbuffered stream reports every loss, a buffer as long as the file none. A
part of a file is not taken for a file: the decompressor ends with an exception and writes nothing.

## Main definitions

* `main`, `process`.

## Main results

* `emits_main`: the compressor.
* `process_of_decompress_ok`, `process_of_decompress_error`, `process_take`: the decompressor.
* `main_pipeline`.
-/

namespace HafeCodec

open OStream

/-- `main(int argc, char *argv[])`, with the bytes of `cin`, on the stream `cout`. -/
def main (Q : PriorityQueue) (past : UInt32) (build : Build) (argc : ℕ) (cin : List UInt8) :
    Output Unit :=
  if 1 < argc then do
    let (hafe, _) ← Output.lift (Hafe.read (IStream.ofBytes cin false))
    let decoder ← Output.lift (Decoder.ofHafe build hafe)
    let _ ← OStream.write decoder.str
  else do
    let encoder ← Output.lift (Encoder.new Q past cin)
    encoder.hafe.writeTo

/-- `cout` when the program starts. -/
def OStream.cout : OStream :=
  { handed := [], pending := [], exceptions := false, fail := false }

/-- The program from its start to its end, and what the device holds then. When `main` returns, the
buffer is flushed, and the result of the flush is dropped; an exception that leaves `main` ends the
program without a flush. -/
def process (Q : PriorityQueue) (past : UInt32) (build : Build) (argc : ℕ) (cin : List UInt8)
    (rdbuf : Rdbuf) : Outcome Unit × List UInt8 :=
  match main Q past build argc cin rdbuf .cout with
  | .ok _ os => (.ok (), os.put.take rdbuf.room)
  | .error f os => (.error f, os.handed.take rdbuf.room)

variable {Q : PriorityQueue} {past : UInt32} {str bytes : List UInt8} {argc : ℕ}

theorem process_of_main_ok {build : Build} {cin : List UInt8} {rdbuf : Rdbuf} {os : OStream}
    (h : main Q past build argc cin rdbuf .cout = .ok () os) :
    process Q past build argc cin rdbuf = (.ok (), os.put.take rdbuf.room) := by
  rw [process, h]

theorem process_of_main_error {build : Build} {cin : List UInt8} {rdbuf : Rdbuf} {os : OStream}
    {f : Fault} (h : main Q past build argc cin rdbuf .cout = .error f os) :
    process Q past build argc cin rdbuf = (.error f, os.handed.take rdbuf.room) := by
  rw [process, h]

theorem ready_cout (b : Buffering) : Ready b false .cout where
  fail_eq := rfl
  exceptions_eq := rfl
  pending_eq _ := rfl
  handed_eq _ _ _ := rfl

/-- **The compressor** writes the bytes of the file. -/
theorem emits_main (b : Buffering) (x : Bool) (build : Build) (hc : compress Q past str = .ok bytes)
    (hargc : argc ≤ 1) : Emits (sink b) (Ready b x) (main Q past build argc str)
      (Hafe.WriteError x) bytes (Ready b true) := by
  obtain ⟨e, hnew, hw⟩ := ExceptFold.bind_eq_ok_iff.mp hc
  rw [main, if_neg (Nat.not_lt.mpr hargc), hnew]
  exact Hafe.emits_writeTo b x hw

theorem Output.lift_bind {α β : Type} (r : Outcome α) (f : α → Outcome β) :
    Output.lift (r >>= f) = Output.lift r >>= fun a => Output.lift (f a) := by
  cases r with
  | error e => rfl
  | ok a => rfl

/-- The decompressor decodes the whole string before it writes. -/
theorem main_eq_decompress (Q : PriorityQueue) (past : UInt32) (build : Build) (hargc : 1 < argc)
    (cin : List UInt8) : main Q past build argc cin =
      Output.lift (decompress build false cin) >>= fun str =>
        OStream.write str >>= fun _ => pure () := by
  rw [main, if_pos hargc, decompress, Output.lift_bind, bind_assoc]
  refine bind_congr fun p => ?_
  rw [Output.lift_bind, bind_assoc]
  rfl

/-- Without exceptions a write returns, and what was written is in the buffer or has left it. -/
theorem exists_write_cout (rdbuf : Rdbuf) (bytes : List UInt8) :
    ∃ ok os, OStream.write bytes rdbuf .cout = .ok ok os ∧ os.put = bytes := by
  have hos := ready_cout rdbuf.toBuffering
  have hput : (OStream.cout.sputn rdbuf.toBuffering bytes).put = bytes := put_sputn _ _ _
  rcases lt_or_ge rdbuf.room (needed rdbuf.toBuffering .cout bytes) with hlt | hle
  · exact ⟨false, _, write_of_lt hos hlt, hput⟩
  · exact ⟨true, _, write_of_le hos hle, hput⟩

/-- **The decompressor** returns although the device has taken a part of the string only. -/
theorem process_of_decompress_ok (Q : PriorityQueue) (past : UInt32) {build : Build}
    (hargc : 1 < argc) {cin : List UInt8} (hd : decompress build false cin = .ok str)
    (rdbuf : Rdbuf) : process Q past build argc cin rdbuf = (.ok (), str.take rdbuf.room) := by
  obtain ⟨ok, os, hw, hput⟩ := exists_write_cout rdbuf str
  have hmain : main Q past build argc cin rdbuf .cout = .ok () os := by
    rw [main_eq_decompress Q past build hargc, hd]
    exact Emission.bind_eq_of_ok hw
  rw [process_of_main_ok hmain, hput]

/-- **The decompressor** writes nothing when it fails. -/
theorem process_of_decompress_error (Q : PriorityQueue) (past : UInt32) {build : Build}
    (hargc : 1 < argc) {cin : List UInt8} {f : Fault}
    (hd : decompress build false cin = .error f) (rdbuf : Rdbuf) :
    process Q past build argc cin rdbuf = (.error f, []) := by
  have hmain : main Q past build argc cin rdbuf .cout = .error f .cout := by
    rw [main_eq_decompress Q past build hargc, hd]
    rfl
  rw [process_of_main_error hmain, OStream.cout, List.take_nil]

/-- **The decompressor on the first bytes of a file** decompresses the whole file, and rejects every
part of it. -/
theorem process_take (hc : compress Q past str = .ok bytes) (hargc : 1 < argc) (room : ℕ)
    (build : Build) (rdbuf : Rdbuf) :
    (bytes.length ≤ room → process Q past build argc (bytes.take room) rdbuf =
        (.ok (), (str.filter fun s => Counted str s).take rdbuf.room)) ∧
      (room < bytes.length →
        ∃ f, process Q past build argc (bytes.take room) rdbuf = (.error f, []) ∧
          f.IsException) := by
  refine ⟨fun hle => ?_, fun hlt => ?_⟩
  · have hd := decompress_append_of_compress hc build false []
    rw [List.append_nil] at hd
    rw [List.take_of_length_le hle]
    exact process_of_decompress_ok Q past hargc hd rdbuf
  · have hne : bytes.take room ≠ bytes := fun heq => by
      have hlen := congrArg List.length heq
      rw [List.length_take] at hlen
      omega
    obtain ⟨f, hd, hf⟩ := decompress_of_truncated hc (List.take_prefix _ _) hne build false
    exact ⟨f, process_of_decompress_error Q past hargc hd rdbuf, hf⟩

/-- **The compressor and the decompressor in a row**, however the stream buffers. At the end of the
compressor the device holds as much of the file as it takes. There is a number of bytes, no greater
than the length of the file, such that the compressor returns when the device takes as many and ends
with an exception when it does not; it is the length of the file when the stream is unbuffered, and
zero when the buffer has room for the file. What the device holds is decompressed to the symbols
that are counted if it is the whole file; otherwise the decompressor ends with an exception and
writes nothing. -/
theorem main_pipeline (hc : compress Q past str = .ok bytes) (build : Build) {argc argc' : ℕ}
    (hargc : argc ≤ 1) (hargc' : 1 < argc') (b : Buffering) :
    ∃ n ≤ bytes.length, (b.Unbuffered → n = bytes.length) ∧
      (∀ size, b.Holds size → bytes.length ≤ size → n = 0) ∧
      ∀ room, ∃ r, process Q past build argc str ⟨b, room⟩ = (r, bytes.take room) ∧
        (n ≤ room → r = .ok ()) ∧ (room < n → ∃ f, r = .error f ∧ f.IsException) ∧
        ∀ (build' : Build) (rdbuf : Rdbuf),
          (bytes.length ≤ room → process Q past build' argc' (bytes.take room) rdbuf =
            (.ok (), (str.filter fun s => Counted str s).take rdbuf.room)) ∧
          (room < bytes.length →
            ∃ f, process Q past build' argc' (bytes.take room) rdbuf = (.error f, []) ∧
              f.IsException) := by
  obtain ⟨t, n, ht, hrun⟩ := emits_main b false build hc hargc _ (ready_cout b)
  have hput : t.put = bytes := hrun.put_eq
  have hhanded : t.handed.length ≤ bytes.length := by
    rw [← hput, OStream.put, List.length_append]
    exact Nat.le_add_right _ _
  refine ⟨n, hrun.le_handed.trans hhanded, fun hb => ?_, fun size hb hle => ?_, fun room => ?_⟩
  · have hall : t.handed = bytes := by
      rw [← hput, OStream.put, ht.pending_eq hb, List.append_nil]
    have hmax := hrun.handed_le_max hb.1
    change t.handed.length ≤ max n 0 at hmax
    rw [hall, Nat.max_zero] at hmax
    exact (hrun.le_handed.trans hhanded).antisymm hmax
  · have hnil := ht.handed_eq size hb (by rwa [hput])
    have hn : n ≤ t.handed.length := hrun.le_handed
    rw [hnil] at hn
    exact Nat.le_zero.mp hn
  · rcases lt_or_ge room n with hlt | hle
    · obtain ⟨f, u, hmain, hf, htake⟩ := hrun.take_handed_of_error hlt
      refine ⟨.error f, ?_, fun hle => absurd hlt (Nat.not_lt.mpr hle),
        fun _ => ⟨f, rfl, hf.isException⟩, process_take hc hargc' room⟩
      exact (process_of_main_error hmain).trans (congrArg (Prod.mk _) htake)
    · have hmain : main Q past build argc str ⟨b, room⟩ .cout = .ok () t := hrun.ok room hle
      refine ⟨.ok (), ?_, fun _ => rfl, fun hlt => absurd hlt (Nat.not_lt.mpr hle),
        process_take hc hargc' room⟩
      rw [process_of_main_ok hmain, hput]

/-- With a buffer for the whole file nothing is noticed, without one every loss is. -/
theorem main_pipeline_aab :
    ∃ bytes, compress (MinQueue.sortedList _) 0 [97, 97, 98] = .ok bytes ∧
      (bytes.length ≤ 4096 → ∀ room,
        process (MinQueue.sortedList _) 0 .debug 1 [97, 97, 98] ⟨.blocks 4096, room⟩ =
          (.ok (), bytes.take room)) ∧
      ∀ room < bytes.length, ∃ f,
        process (MinQueue.sortedList _) 0 .debug 1 [97, 97, 98] ⟨.direct, room⟩ =
          (.error f, bytes.take room) ∧ f.IsException := by
  obtain ⟨bytes, hc⟩ := exists_compress_aab
  refine ⟨bytes, hc, fun hle room => ?_, fun room hlt => ?_⟩
  · obtain ⟨n, -, -, hholds, hroom⟩ :=
      main_pipeline hc .debug le_rfl Nat.one_lt_two (.blocks 4096)
    obtain ⟨r, hr, hok, -⟩ := hroom room
    rw [hr, hok (by rw [hholds 4096 (Buffering.holds_blocks 4096) hle]; exact Nat.zero_le _)]
  · obtain ⟨n, -, hn, -, hroom⟩ := main_pipeline hc .debug le_rfl Nat.one_lt_two .direct
    obtain ⟨r, hr, -, hthrows, -⟩ := hroom room
    obtain ⟨f, rfl, hf⟩ := hthrows (hn Buffering.unbuffered_direct ▸ hlt)
    exact ⟨f, hr, hf⟩

end HafeCodec
