import TinyRpc.Lib.Fifo
import TinyRpc.TcpBuffer

/-!
# The buffer is a queue of bytes

Growth and compaction move the bytes and reset the indices. What is readable
stays what was written and not yet read.
-/

namespace TinyRpc.TcpBuffer

open Lib

/-! ## `readFromBuffer` -/

theorem copied_front {b : TcpBuffer} (hv : b.Valid) {n : Nat} (hn : n ≤ b.readable.length) :
    copied b.m_buffer b.m_read_index n n = some (b.readable.take n) := by
  have hr := hv.read_le
  have hw := hv.write_le
  have hlen := readable_length hv
  unfold copied
  rw [if_pos (by omega), Int.toNat_natCast, drop_read_index hv, List.take_append_of_le_length hn,
    Nat.sub_self, List.replicate_zero, List.append_nil]

theorem readFromBuffer_empty {b : TcpBuffer} (hv : b.Valid) (h : b.readable = []) (re : Bytes)
    (size : Int) : b.readFromBuffer re size = some (re, b) := by
  unfold readFromBuffer
  rw [readAble_eq hv, h]
  rfl

theorem readFromBuffer_spec {b : TcpBuffer} (hv : b.Valid) (h : b.readable ≠ []) (re : Bytes)
    (n : Nat) :
    ∃ b', b.readFromBuffer re n = some (b.readable.take n, b') ∧
      Holds (b.readable.drop n) b.m_buffer.length b' := by
  have hlen := readable_length hv
  have hr := hv.read_le
  have hw := hv.write_le
  have hpos := List.length_pos_iff.mpr h
  -- The number of bytes that are read.
  obtain ⟨k, hk, hkn⟩ : ∃ k : Nat,
      (if b.readAble > n then (n : Int) else b.readAble) = k ∧ k = min n b.readable.length := by
    refine ⟨_, ?_, rfl⟩
    rw [readAble_eq hv]
    split <;> omega
  have hv' : ({ b with m_read_index := b.m_read_index + k : TcpBuffer }).Valid :=
    ⟨by simp only; omega, hw⟩
  obtain ⟨b', hb', hholds, -⟩ := adjustBuffer_spec hv'
  rw [readable_advance] at hholds
  have htake : b.readable.take k = b.readable.take n := by
    rw [hkn, ← List.take_take, List.take_length]
  have hdrop : b.readable.drop k = b.readable.drop n := by
    rcases Nat.le_total n b.readable.length with hle | hle
    · rw [hkn, Nat.min_eq_left hle]
    · rw [hkn, Nat.min_eq_right hle, List.drop_length, List.drop_of_length_le hle]
  refine ⟨b', ?_, by rw [← hdrop]; exact hholds⟩
  unfold readFromBuffer
  rw [if_neg (by rw [readAble_eq hv]; omega)]
  simp only [hk, Int.toNat_natCast]
  rw [if_neg (by omega), copied_front hv (by omega), htake]
  simp only [Option.bind_eq_bind, Option.bind_some, hb', Option.pure_def]

/-! ## Runs -/

inductive Op where
  | writeToBuffer (buf : Bytes)
  | readFromBuffer (re : Bytes) (size : Int)
  | adjustBuffer
  | resizeBuffer (new_size : Int)

def next (b : TcpBuffer) : Op → Option TcpBuffer
  | .writeToBuffer buf => b.writeToBuffer buf
  | .readFromBuffer re size => (b.readFromBuffer re size).map Prod.snd
  | .adjustBuffer => b.adjustBuffer
  | .resizeBuffer new_size => b.resizeBuffer new_size

/-- What the callers promise: a size is not negative, and no readable byte is cut off. -/
def Allowed (b : TcpBuffer) : Op → Prop
  | .readFromBuffer _ size => 0 ≤ size
  | .resizeBuffer new_size => b.readAble ≤ new_size
  | _ => True

def system : System TcpBuffer Op where
  start b := ∃ size, b = new size
  step b e b' := b.Allowed e ∧ b.next e = some b'

/-- What an operation is to the queue. -/
def view : Op → Option (Fifo.Event Byte)
  | .writeToBuffer buf => some (.put buf)
  | .readFromBuffer _ size => some (.take size.toNat)
  | _ => none

/-- The bytes in front of which the buffer promises to be a queue. -/
structure Represents (b : TcpBuffer) (q : List Byte) : Prop where
  valid : b.Valid
  readable_eq : b.readable = q

theorem Represents.readFromBuffer {b : TcpBuffer} {q : List Byte} (h : b.Represents q)
    (re : Bytes) (n : Nat) :
    ∃ b', b.readFromBuffer re n = some (if q = [] then re else q.take n, b') ∧
      b'.Represents (q.drop n) := by
  obtain ⟨hv, rfl⟩ := h
  by_cases hempty : b.readable = []
  · refine ⟨b, ?_, hv, ?_⟩
    · rw [readFromBuffer_empty hv hempty, if_pos hempty]
    · rw [hempty, List.drop_nil]
  · obtain ⟨b', hread, hholds⟩ := readFromBuffer_spec hv hempty re n
    refine ⟨b', ?_, hholds.valid, hholds.readable_eq⟩
    rw [hread, if_neg hempty]

theorem Represents.next {b : TcpBuffer} {q : List Byte} (h : b.Represents q) {e : Op}
    (hallowed : b.Allowed e) :
    ∃ b', b.next e = some b' ∧ b'.Represents ((view e).elim q (Fifo.after q)) := by
  obtain ⟨hv, hread⟩ := h
  cases e with
  | writeToBuffer buf =>
    obtain ⟨b', hb', hv', hread'⟩ := writeToBuffer_spec hv buf
    exact ⟨b', hb', hv', by rw [hread', hread]; rfl⟩
  | readFromBuffer re size =>
    obtain ⟨n, rfl⟩ := Int.eq_ofNat_of_zero_le hallowed
    obtain ⟨b', hb', h'⟩ := Represents.readFromBuffer ⟨hv, hread⟩ re n
    exact ⟨b', by rw [TcpBuffer.next, hb']; rfl, h'⟩
  | adjustBuffer =>
    obtain ⟨b', hb', hholds, -⟩ := adjustBuffer_spec hv
    exact ⟨b', hb', hholds.valid, hholds.readable_eq.trans hread⟩
  | resizeBuffer new_size =>
    replace hallowed : b.readAble ≤ new_size := hallowed
    rw [readAble_eq hv] at hallowed
    obtain ⟨n, rfl⟩ := Int.eq_ofNat_of_zero_le (Int.le_trans (Int.natCast_nonneg _) hallowed)
    obtain ⟨b', hb', hholds, -⟩ := resizeBuffer_spec hv (Int.ofNat_le.mp hallowed)
    exact ⟨b', hb', hholds.valid, hholds.readable_eq.trans hread⟩

theorem simulates : system.Simulates (Fifo.system Byte) view Represents := by
  constructor
  · rintro b ⟨size, rfl⟩
    exact ⟨[], rfl, new_valid size, new_readable size⟩
  · rintro b q e b' h ⟨hallowed, hb'⟩ hview
    obtain ⟨b1, hb1, h1⟩ := h.next hallowed
    rw [hb'] at hb1
    cases hb1
    rwa [hview] at h1
  · rintro b q e b' f h ⟨hallowed, hb'⟩ hview
    obtain ⟨b1, hb1, h1⟩ := h.next hallowed
    rw [hb'] at hb1
    cases hb1
    rw [hview] at h1
    exact ⟨_, rfl, h1⟩

/-- The readable bytes are a queue. No operation that is allowed leaves the
vector, and a read returns the front of the queue. -/
theorem is_byte_queue (es : List Op) (b : TcpBuffer) (hrun : system.Run es b) :
    b.Valid ∧ b.readable = Fifo.contents (es.filterMap view) ∧
      (∀ e, b.Allowed e → ∃ b', b.next e = some b') ∧
      ∀ re size, 0 ≤ size → b.readable ≠ [] →
        ∃ b', b.readFromBuffer re size =
          some ((Fifo.contents (es.filterMap view)).take (min size b.readAble).toNat, b') := by
  obtain ⟨q, hq, h⟩ := simulates.run hrun
  obtain rfl := Fifo.contents_of_run hq
  refine ⟨h.valid, h.readable_eq, ?_, ?_⟩
  · intro e hallowed
    obtain ⟨b', hb', -⟩ := h.next hallowed
    exact ⟨b', hb'⟩
  · intro re size hsize hne
    obtain ⟨n, rfl⟩ := Int.eq_ofNat_of_zero_le hsize
    obtain ⟨b', hb', -⟩ := h.readFromBuffer re n
    refine ⟨b', ?_⟩
    rw [hb', if_neg (by rw [← h.readable_eq]; exact hne), readAble_eq h.valid, h.readable_eq]
    congr 2
    rw [show (min (n : Int) (Fifo.contents (es.filterMap view)).length).toNat =
      min n (Fifo.contents (es.filterMap view)).length by omega, ← List.take_take,
      List.take_length]

theorem is_byte_queue_grown : ∃ b : TcpBuffer, b.readable = [1, 2, 3] ∧ b.m_buffer.length = 4 := by
  have h0 : system.Run [] (new 0) := System.Run.start ⟨0, rfl⟩
  have h1 : system.Run [.writeToBuffer [1, 2, 3]] ⟨0, 3, [1, 2, 3, 0]⟩ :=
    h0.step ⟨trivial, by decide⟩
  exact ⟨_, (is_byte_queue _ _ h1).2.1, rfl⟩

end TinyRpc.TcpBuffer
