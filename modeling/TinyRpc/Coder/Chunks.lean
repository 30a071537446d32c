import TinyRpc.Coder.RoundTrip
import TinyRpc.Coder.Scan
import TinyRpc.Lib.Runs

/-!
# Frames that arrive in chunks

The encodings of some messages arrive in chunks, and the decoder runs after
each chunk. It looks for a frame in whatever part of the last one is there.
-/

namespace TinyRpc.Coder

open Lib Traced

/-! ## The run -/

/-- `b1` holds what `b` held, and then the bytes `c`. It has a byte to spare. -/
structure Appended (b : TcpBuffer) (c : Bytes) (b1 : TcpBuffer) : Prop where
  valid : b1.Valid
  readable_eq : b1.readable = b.readable ++ c
  spare : b1.m_write_index < b1.m_buffer.length
  int_index : b1.m_write_index < 2 ^ 31

/-- The bytes that have arrived, the buffer after the last `decode`, and the
messages that the decoder has appended. -/
structure Receiver where
  fed : Bytes
  buffer : TcpBuffer
  out : List TinyPBProtocol

structure Chunk where
  bytes : Bytes
  buffer : TcpBuffer

/-- The chunks are cut from the encodings of `msgs`. -/
def receiving (msgs : List TinyPBProtocol) : System Receiver Chunk where
  start s := s.fed = [] ∧ s.buffer.Valid ∧ s.buffer.readable = [] ∧ s.out = []
  step s e t := e.bytes ≠ [] ∧ s.fed ++ e.bytes <+: wire msgs ∧
    Appended s.buffer e.bytes e.buffer ∧ t.fed = s.fed ++ e.bytes ∧
    ∃ turns out_message, (decode turns e.buffer).val = some (out_message, t.buffer) ∧
      t.out = s.out ++ out_message

/-- The messages whose frames lie whole in the first `n` bytes. -/
def wholeFrames : List TinyPBProtocol → Nat → List TinyPBProtocol
  | [], _ => []
  | m :: ms, n =>
    if frameLen m ≤ n then m :: wholeFrames ms (n - frameLen m) else []

def Chunk.arrived (e : Chunk) (msgs : List TinyPBProtocol) (s : Receiver) : List TinyPBProtocol :=
  wholeFrames (msgs.drop s.out.length) e.buffer.readable.length

/-- Behind the whole frames, the scan finds nothing in the part of a frame that
is left, and nothing that it cannot look at. -/
def Quiet (msgs : List TinyPBProtocol) (s : Receiver) (e : Chunk) : Prop :=
  ∃ c, dropFrames (e.arrived msgs s) e.buffer = some c ∧
    ∀ i, c.m_read_index ≤ i → i < c.m_write_index → Passes c i

/-! ## Whole frames -/

theorem wholeFrames_nil_of_lt {m : TinyPBProtocol} {ms : List TinyPBProtocol} {n : Nat}
    (h : n < frameLen m) : wholeFrames (m :: ms) n = [] := by
  rw [wholeFrames, if_neg (by omega)]

theorem wholeFrames_split {ms : List TinyPBProtocol} (h : ∀ m ∈ ms, RoundTrip m) {l : Bytes}
    (hl : l <+: wire ms) :
    ∃ todo rest, ms = wholeFrames ms l.length ++ todo ∧
      l = wire (wholeFrames ms l.length) ++ rest ∧ rest <+: wire todo ∧
      wholeFrames todo rest.length = [] := by
  induction ms generalizing l with
  | nil => exact ⟨[], l, rfl, rfl, hl, rfl⟩
  | cons m ms ih =>
    have hm := (h m List.mem_cons_self).block_length
    rw [wire_cons] at hl
    by_cases hwhole : frameLen m ≤ l.length
    · obtain ⟨l', rfl⟩ : ∃ l', l = (encodeTinyPB m).block ++ l' := by
        obtain ⟨l', hl'⟩ := List.prefix_of_prefix_length_le (List.prefix_append _ _) hl
          (by rw [hm]; exact hwhole)
        exact ⟨l', hl'.symm⟩
      obtain ⟨todo, rest, h1, h2, h3, h4⟩ :=
        ih (fun x hx => h x (List.mem_cons_of_mem _ hx)) ((List.prefix_append_right_inj _).mp hl)
      have hstep : wholeFrames (m :: ms) ((encodeTinyPB m).block ++ l').length =
          m :: wholeFrames ms l'.length := by
        rw [List.length_append, hm, wholeFrames, if_pos (by omega), Nat.add_sub_cancel_left]
      refine ⟨todo, rest, ?_, ?_, h3, h4⟩
      · rw [hstep, List.cons_append, ← h1]
      · rw [hstep, wire_cons, List.append_assoc, ← h2]
    · have hnone : wholeFrames (m :: ms) l.length = [] := wholeFrames_nil_of_lt (by omega)
      exact ⟨m :: ms, l, by rw [hnone]; rfl, by rw [hnone]; rfl, hl, hnone⟩

theorem wholeFrames_append {done todo : List TinyPBProtocol} (h : ∀ m ∈ done, RoundTrip m)
    (n : Nat) :
    wholeFrames (done ++ todo) ((wire done).length + n) = done ++ wholeFrames todo n := by
  induction done with
  | nil => simp
  | cons m done ih =>
    have hm := (h m List.mem_cons_self).block_length
    rw [List.cons_append, wholeFrames, wire_cons, List.length_append, hm, if_pos (by omega),
      show frameLen m + (wire done).length + n - frameLen m = (wire done).length + n by omega,
      ih fun x hx => h x (List.mem_cons_of_mem _ hx)]
    rfl

/-! ## One chunk -/

theorem decode_mono {turns : Nat} {b : TcpBuffer} {r : List TinyPBProtocol × TcpBuffer}
    (h : (decode turns b).val = some r) (k : Nat) : (decode (turns + k) b).val = some r := by
  induction turns generalizing b r with
  | zero => cases h
  | succ turns ih =>
    rw [Nat.add_right_comm]
    simp only [decode, val_bind, Option.bind_eq_some_iff] at h ⊢
    obtain ⟨o, ho, h⟩ := h
    refine ⟨o, ho, ?_⟩
    cases o with
    | none => exact h
    | some f =>
      simp only [val_bind, Option.bind_eq_some_iff] at h ⊢
      obtain ⟨b', hb', m, hm, r', hr', h⟩ := h
      exact ⟨b', hb', m, hm, r', ih hr', h⟩

theorem decode_unique {n k : Nat} {b : TcpBuffer} {r r' : List TinyPBProtocol × TcpBuffer}
    (h : (decode n b).val = some r) (h' : (decode k b).val = some r') : r = r' := by
  have h1 := decode_mono h k
  rw [Nat.add_comm, decode_mono h' n] at h1
  exact (Option.some.inj h1).symm

/-- What holds between two chunks: the messages of the whole frames are out,
and the part of a frame that has arrived is in the buffer. -/
def Between (msgs : List TinyPBProtocol) (s : Receiver) : Prop :=
  ∃ done todo, msgs = done ++ todo ∧ s.out = done.map received ∧
    s.fed = wire done ++ s.buffer.readable ∧ s.buffer.Valid ∧
    s.buffer.readable <+: wire todo ∧ wholeFrames todo s.buffer.readable.length = []

theorem Between.decode {msgs : List TinyPBProtocol} (h : ∀ m ∈ msgs, RoundTrip m) {s : Receiver}
    (hs : Between msgs s) {e : Chunk} (hcut : s.fed ++ e.bytes <+: wire msgs)
    (happ : Appended s.buffer e.bytes e.buffer) (hquiet : Quiet msgs s e) :
    ∃ turns out_message b', (decode turns e.buffer).val = some (out_message, b') ∧
      Between msgs ⟨s.fed ++ e.bytes, b', s.out ++ out_message⟩ := by
  obtain ⟨done, todo, rfl, hout, hfed, -, -, -⟩ := hs
  have harr : e.arrived (done ++ todo) s = wholeFrames todo e.buffer.readable.length := by
    rw [Chunk.arrived, hout, List.length_map, List.drop_left]
  have htodo : ∀ m ∈ todo, RoundTrip m := fun m hm => h m (List.mem_append_right _ hm)
  have hfed' : s.fed ++ e.bytes = wire done ++ e.buffer.readable := by
    rw [hfed, happ.readable_eq, List.append_assoc]
  rw [hfed', wire_append] at hcut
  obtain ⟨todo', rest, h1, h2, h3, h4⟩ :=
    wholeFrames_split htodo ((List.prefix_append_right_inj _).mp hcut)
  have hnew : ∀ m ∈ wholeFrames todo e.buffer.readable.length, RoundTrip m := fun m hm =>
    htodo m (by rw [h1]; exact List.mem_append_left _ hm)
  obtain ⟨c, hdrop, hholds, -, hdec⟩ :=
    decode_frames happ.valid happ.int_index happ.spare hnew h2
  obtain ⟨c', hdrop', hpass⟩ := hquiet
  rw [harr, hdrop] at hdrop'
  obtain rfl := Option.some.inj hdrop'
  -- What is left over is quiet: the decoder finds no frame in it.
  have hret : (Coder.decode 1 c).val = some ([], c) :=
    val_bind_of ((scan_none_iff hholds.valid).mpr hpass) rfl
  refine ⟨_, _, c, by rw [hdec, hret, Option.map_some, List.append_nil], ?_⟩
  refine ⟨done ++ wholeFrames todo e.buffer.readable.length, todo', ?_, ?_, ?_, hholds.valid, ?_, ?_⟩
  · rw [List.append_assoc, ← h1]
  · rw [hout, List.map_append]
  · rw [hfed', hholds.readable_eq, wire_append, List.append_assoc, ← h2]
  · rw [hholds.readable_eq]; exact h3
  · rw [hholds.readable_eq]; exact h4

/-! ## Every run -/

theorem between_start {msgs : List TinyPBProtocol} {s : Receiver}
    (h : (receiving msgs).start s) : Between msgs s := by
  obtain ⟨hfed, hv, hread, hout⟩ := h
  refine ⟨[], msgs, rfl, hout, ?_, hv, ?_, ?_⟩
  · rw [hfed, hread]; rfl
  · rw [hread]; exact List.nil_prefix
  · rw [hread]
    cases msgs with
    | nil => rfl
    | cons m ms => exact wholeFrames_nil_of_lt (by simp only [frameLen, List.length_nil]; omega)

theorem between_run {msgs : List TinyPBProtocol} (h : ∀ m ∈ msgs, RoundTrip m)
    {es : List Chunk} {s : Receiver}
    (hrun : ((receiving msgs).restrict (Quiet msgs)).Run es s) : Between msgs s := by
  refine hrun.invariant (fun _ => between_start) ?_
  rintro s e t hs ⟨hquiet, -, hcut, happ, hfed, turns, out_message, hdec, hout⟩
  obtain ⟨turns', out', b', hdec', hnext⟩ := hs.decode h hcut happ hquiet
  obtain ⟨rfl, hb⟩ := Prod.mk.inj (decode_unique hdec' hdec)
  cases t
  simp only at hfed hout hb
  subst hfed hout hb
  exact hnext

theorem wholeFrames_wire {ms : List TinyPBProtocol} (h : ∀ m ∈ ms, RoundTrip m) :
    wholeFrames ms (wire ms).length = ms := by
  have h1 : wholeFrames (ms ++ []) ((wire ms).length + 0) = ms ++ wholeFrames [] 0 :=
    wholeFrames_append h 0
  rw [List.append_nil, Nat.add_zero] at h1
  rw [h1, wholeFrames, List.append_nil]

/-- In a run whose chunks are quiet, the decoder has appended at every moment
exactly the messages whose frames have arrived whole, so in the end all of
them, and it returns after the next quiet chunk too. -/
theorem chunks_in_order (msgs : List TinyPBProtocol) (h : ∀ m ∈ msgs, RoundTrip m)
    (es : List Chunk) (s : Receiver) (hrun : ((receiving msgs).restrict (Quiet msgs)).Run es s) :
    List.Forall₂ SameOnWire
      ((wholeFrames msgs s.fed.length).map fun m => (encodeTinyPB m).msg) s.out ∧
    (s.fed = wire msgs →
      List.Forall₂ SameOnWire (msgs.map fun m => (encodeTinyPB m).msg) s.out) ∧
    ∀ e : Chunk, s.fed ++ e.bytes <+: wire msgs → Appended s.buffer e.bytes e.buffer →
      Quiet msgs s e → ∃ turns r, (decode turns e.buffer).val = some r := by
  have hs := between_run h hrun
  have hwhole : List.Forall₂ SameOnWire
      ((wholeFrames msgs s.fed.length).map fun m => (encodeTinyPB m).msg) s.out := by
    obtain ⟨done, todo, rfl, hout, hfed, -, -, hnone⟩ := hs
    have hdone : ∀ m ∈ done, RoundTrip m := fun m hm => h m (List.mem_append_left _ hm)
    rw [hfed, List.length_append, wholeFrames_append hdone, hnone, List.append_nil, hout,
      List.forall₂_map_left_iff, List.forall₂_map_right_iff, List.forall₂_same]
    exact fun m hm => (hdone m hm).sameOnWire
  refine ⟨hwhole, fun hall => ?_, fun e hcut happ hquiet => ?_⟩
  · rwa [hall, wholeFrames_wire h] at hwhole
  · obtain ⟨turns, out_message, b', hdec, -⟩ := hs.decode h hcut happ hquiet
    exact ⟨turns, _, hdec⟩

def bufferAt (l : Bytes) (n : Nat) : TcpBuffer where
  m_write_index := n
  m_buffer := l.take n ++ List.replicate (128 - n) 0

theorem request_run :
    ((receiving [request]).restrict (Quiet [request])).Run
      [⟨(wire [request]).take 10, bufferAt (wire [request]) 10⟩,
        ⟨(wire [request]).drop 10, bufferAt (wire [request]) 52⟩]
      ⟨wire [request], TcpBuffer.new 128, [received request]⟩ := by
  have h0 : ((receiving [request]).restrict (Quiet [request])).Run []
      ⟨[], TcpBuffer.new 128, []⟩ :=
    System.Run.start ⟨rfl, TcpBuffer.new_valid _, TcpBuffer.new_readable _, rfl⟩
  have hpass : ∀ i < 10, Passes (bufferAt (wire [request]) 10) i := by decide +kernel
  have h1 : ((receiving [request]).restrict (Quiet [request])).Run
      [⟨(wire [request]).take 10, bufferAt (wire [request]) 10⟩]
      ⟨(wire [request]).take 10, bufferAt (wire [request]) 10, []⟩ :=
    System.Run.step h0 ⟨⟨_, rfl, fun i _ hi => hpass i hi⟩, by decide +kernel, by decide +kernel,
      ⟨by decide +kernel, by decide +kernel, by decide +kernel, by decide +kernel⟩, rfl,
      1, [], by decide +kernel, rfl⟩
  exact System.Run.step h1
    ⟨⟨TcpBuffer.new 128, by decide +kernel, fun i _ hi => absurd hi (Nat.not_lt_zero i)⟩,
      by decide +kernel, by decide +kernel,
      ⟨by decide +kernel, by decide +kernel, by decide +kernel, by decide +kernel⟩,
      by decide +kernel, 2, [received request], by decide +kernel, rfl⟩

theorem chunks_in_order_request :
    List.Forall₂ SameOnWire
      ((wholeFrames [request] (wire [request]).length).map fun m => (encodeTinyPB m).msg)
      [received request] :=
  (chunks_in_order [request] (by decide +kernel) _ _ request_run).1

def carrier : TinyPBProtocol where
  m_msg_id := ascii "9"
  m_method_name := ascii "m"
  m_pb_data := wire [{ m_msg_id := ascii "1", m_method_name := ascii "a" }]

/-- The last byte of the carrier comes late, and the decoder takes the frame
that it carries for a message. -/
theorem carrier_not_in_order :
    (∀ m ∈ [carrier], RoundTrip m) ∧ ∃ es s, (receiving [carrier]).Run es s ∧
      s.fed = wire [carrier] ∧
      ¬ List.Forall₂ SameOnWire ([carrier].map fun m => (encodeTinyPB m).msg) s.out := by
  refine ⟨by decide +kernel,
    [⟨(wire [carrier]).take 55, bufferAt (wire [carrier]) 55⟩,
      ⟨[PB_END], { bufferAt (wire [carrier]) 56 with m_read_index := 28 }⟩],
    ⟨wire [carrier], { bufferAt (wire [carrier]) 56 with m_read_index := 28 },
      [received { m_msg_id := ascii "1", m_method_name := ascii "a" }]⟩, ?_, rfl, ?_⟩
  · have h0 : (receiving [carrier]).Run [] ⟨[], TcpBuffer.new 128, []⟩ :=
      System.Run.start ⟨rfl, TcpBuffer.new_valid _, TcpBuffer.new_readable _, rfl⟩
    have h1 : (receiving [carrier]).Run
        [⟨(wire [carrier]).take 55, bufferAt (wire [carrier]) 55⟩]
        ⟨(wire [carrier]).take 55, { bufferAt (wire [carrier]) 55 with m_read_index := 28 },
          [received { m_msg_id := ascii "1", m_method_name := ascii "a" }]⟩ :=
      System.Run.step h0 ⟨by decide +kernel, by decide +kernel,
        ⟨by decide +kernel, by decide +kernel, by decide +kernel, by decide +kernel⟩, rfl,
        2, _, by decide +kernel, rfl⟩
    exact System.Run.step h1 ⟨by decide, by decide +kernel,
      ⟨by decide +kernel, by decide +kernel, by decide +kernel, by decide +kernel⟩,
      by decide +kernel, 1, [], by decide +kernel, rfl⟩
  · rintro (_ | ⟨h, -⟩)
    exact absurd h.msg_id (by decide +kernel)

end TinyRpc.Coder
