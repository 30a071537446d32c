import Mathlib.Data.List.Forall2
import TinyRpc.Coder.Reading

/-!
# Requests and success replies survive the wire

Encoder and decoder compute their offsets apart. They agree on every frame
whose error text is empty, wherever the frame lies in the buffer.
-/

namespace TinyRpc.Coder

open Lib Traced

/-! ## Frames -/

/-- The messages that survive the wire: texts that fit the arrays of the
decoder, no error text, and a length that fits an `int`. -/
structure RoundTrip (m : TinyPBProtocol) : Prop where
  id_ne : m.m_msg_id ≠ []
  id_text : m.m_msg_id.length < 100 ∧ (0 : Byte) ∉ m.m_msg_id
  name_text : m.m_method_name.length < 512 ∧ (0 : Byte) ∉ m.m_method_name
  no_err_info : m.m_err_info = []
  frame_int : 26 + m.m_msg_id.length + m.m_method_name.length + m.m_pb_data.length < 2 ^ 31

theorem roundTrip_iff (m : TinyPBProtocol) :
    (m.m_msg_id ≠ [] ∧ (m.m_msg_id.length < 100 ∧ m.m_msg_id.all (· ≠ 0)) ∧
      (m.m_method_name.length < 512 ∧ m.m_method_name.all (· ≠ 0)) ∧ m.m_err_info = [] ∧
      26 + m.m_msg_id.length + m.m_method_name.length + m.m_pb_data.length < 2 ^ 31) ↔
      RoundTrip m := by
  have hzero (l : Bytes) : l.all (· ≠ 0) ↔ (0 : Byte) ∉ l := by
    rw [List.all_eq_true]
    exact ⟨fun h h0 => of_decide_eq_true (h 0 h0) rfl,
      fun h c hc => decide_eq_true fun h0 => h (h0 ▸ hc)⟩
  rw [hzero, hzero]
  exact ⟨fun h => ⟨h.1, h.2.1, h.2.2.1, h.2.2.2.1, h.2.2.2.2⟩,
    fun h => ⟨h.id_ne, h.id_text, h.name_text, h.no_err_info, h.frame_int⟩⟩

instance (m : TinyPBProtocol) : Decidable (RoundTrip m) := decidable_of_iff _ (roundTrip_iff m)

def wire (ms : List TinyPBProtocol) : Bytes := (ms.map fun m => (encodeTinyPB m).block).flatten

@[simp] theorem wire_nil : wire [] = [] := rfl

@[simp] theorem wire_cons (m : TinyPBProtocol) (ms : List TinyPBProtocol) :
    wire (m :: ms) = (encodeTinyPB m).block ++ wire ms := rfl

theorem wire_append (ms ms' : List TinyPBProtocol) : wire (ms ++ ms') = wire ms ++ wire ms' := by
  simp only [wire, List.map_append, List.flatten_append]

theorem appendTo_spec (e : Encoded) {out : TcpBuffer} (hv : out.Valid) :
    ∃ out', e.appendTo out = some out' ∧ out'.Valid ∧ out'.readable = out.readable ++ e.block := by
  unfold Encoded.appendTo
  split
  · exact TcpBuffer.writeToBuffer_spec hv _
  · have h0 : e.len = 0 := by simp_all
    exact ⟨out, rfl, hv, by simp [Encoded.block, h0]⟩

theorem encode_spec (ms : List TinyPBProtocol) {out : TcpBuffer} (hv : out.Valid) :
    ∃ out', encode ms out = some (ms.map fun m => (encodeTinyPB m).msg, out') ∧ out'.Valid ∧
      out'.readable = out.readable ++ wire ms := by
  induction ms generalizing out with
  | nil => exact ⟨out, rfl, hv, by simp⟩
  | cons m ms ih =>
    obtain ⟨out1, hout1, hv1, hread1⟩ := appendTo_spec (encodeTinyPB m) hv
    obtain ⟨out', hout', hv', hread'⟩ := ih hv1
    refine ⟨out', ?_, hv', by rw [hread', hread1, wire_cons, List.append_assoc]⟩
    simp only [encode, hout1, hout', Option.bind_eq_bind, Option.bind_some, Option.pure_def,
      List.map_cons]

/-- The length of the frame of a message with no error text. -/
def frameLen (m : TinyPBProtocol) : Nat :=
  26 + m.m_msg_id.length + m.m_method_name.length + m.m_pb_data.length

/-- What lies between the declared length and the check sum. -/
def body (m : TinyPBProtocol) : Bytes :=
  int32Bytes m.m_msg_id.length ++ m.m_msg_id ++
    int32Bytes m.m_method_name.length ++ m.m_method_name ++
    wordBytes m.m_err_code ++ int32Bytes m.m_err_info.length ++ m.m_err_info ++ m.m_pb_data

theorem RoundTrip.sentId_eq {m : TinyPBProtocol} (h : RoundTrip m) : sentId m = m.m_msg_id :=
  if_neg h.id_ne

theorem RoundTrip.len_eq {m : TinyPBProtocol} (h : RoundTrip m) :
    (encodeTinyPB m).len = frameLen m := by
  have := h.frame_int
  unfold encodeTinyPB
  simp only [h.sentId_eq, frameLen]
  rw [intOfSize_eq (by omega)]

theorem RoundTrip.written_eq {m : TinyPBProtocol} (h : RoundTrip m) :
    (encodeTinyPB m).written =
      [PB_START] ++ int32Bytes (frameLen m) ++ body m ++ int32Bytes 1 ++ [PB_END] := by
  have hint := h.frame_int
  have hid : intOfSize m.m_msg_id.length = m.m_msg_id.length := intOfSize_eq (by omega)
  have hname : intOfSize m.m_method_name.length = m.m_method_name.length :=
    intOfSize_eq (by omega)
  have hlen := h.len_eq
  simp only [encodeTinyPB, h.sentId_eq] at hlen ⊢
  rw [hlen, hid, hname, h.no_err_info]
  unfold body
  simp only [h.no_err_info, List.length_nil, List.append_assoc]
  rfl

theorem body_length (m : TinyPBProtocol) (h : m.m_err_info = []) :
    (body m).length + 10 = frameLen m := by
  simp only [body, frameLen, h, List.length_append, int32Bytes_length, wordBytes_length,
    List.length_nil]
  omega

theorem RoundTrip.block_eq {m : TinyPBProtocol} (h : RoundTrip m) :
    (encodeTinyPB m).block =
      [PB_START] ++ int32Bytes (frameLen m) ++ body m ++ int32Bytes 1 ++ [PB_END] := by
  unfold Encoded.block
  rw [h.len_eq, Int.toNat_natCast, List.take_of_length_le, h.written_eq]
  have := body_length m h.no_err_info
  rw [h.written_eq]
  simp only [List.length_append, int32Bytes_length, List.length_singleton]
  omega

theorem RoundTrip.block_length {m : TinyPBProtocol} (h : RoundTrip m) :
    (encodeTinyPB m).block.length = frameLen m := by
  have := body_length m h.no_err_info
  rw [h.block_eq]
  simp only [List.length_append, int32Bytes_length, List.length_singleton]
  omega

/-! ## One turn of the decoder -/

def received (m : TinyPBProtocol) : TinyPBProtocol where
  m_msg_id := m.m_msg_id
  m_pk_len := frameLen m
  m_msg_id_len := m.m_msg_id.length
  m_method_name_len := m.m_method_name.length
  m_method_name := m.m_method_name
  m_err_code := m.m_err_code
  m_err_info_len := m.m_err_info.length
  m_err_info := m.m_err_info
  m_pb_data := m.m_pb_data
  parse_success := true

theorem holdsAt_fields {b : TcpBuffer} {m : TinyPBProtocol} {i : Nat} (h : RoundTrip m)
    (hb : HoldsAt b i (encodeTinyPB m).block) :
    HoldsAt b i [PB_START] ∧ HoldsAt b (i + 1) (int32Bytes (frameLen m)) ∧
    HoldsAt b (i + 5) (body m ++ int32Bytes 1 ++ [PB_END]) ∧
    HoldsAt b (i + frameLen m - 1) [PB_END] := by
  have hbody := body_length m h.no_err_info
  rw [h.block_eq] at hb
  simp only [holdsAt_append, List.length_append, int32Bytes_length, List.length_singleton] at hb ⊢
  obtain ⟨⟨⟨⟨h1, h2⟩, h3⟩, h4⟩, h5⟩ := hb
  refine ⟨h1, h2, ⟨⟨h3, ?_⟩, ?_⟩, ?_⟩
  · rw [Nat.add_assoc]
    exact h4
  · rw [Nat.add_assoc, ← Nat.add_assoc 5]
    exact h5
  · rw [show i + frameLen m - 1 = i + (1 + 4 + (body m).length + 4) by omega]
    exact h5

theorem holdsAt_block {b : TcpBuffer} {m : TinyPBProtocol} {rest : Bytes} (hv : b.Valid)
    (hread : b.readable = (encodeTinyPB m).block ++ rest) :
    HoldsAt b b.m_read_index (encodeTinyPB m).block := by
  have hb := holdsAt_readable hv
  rw [hread] at hb
  exact (holdsAt_append.mp hb).1

theorem scan_block {b : TcpBuffer} {m : TinyPBProtocol} {rest : Bytes} (hv : b.Valid)
    (hint : b.m_write_index < 2 ^ 31) (h : RoundTrip m)
    (hread : b.readable = (encodeTinyPB m).block ++ rest) :
    (scan b).val = some (some ⟨b.m_read_index, b.m_read_index + frameLen m - 1, frameLen m⟩) := by
  obtain ⟨h1, h2, -, h4⟩ := holdsAt_fields h (holdsAt_block hv hread)
  have hlen := congrArg List.length hread
  rw [TcpBuffer.readable_length hv, List.length_append, h.block_length] at hlen
  have hpos : 1 < frameLen m := by rw [frameLen]; omega
  exact scan_frame h1 h2 h4 hpos (by omega) hint

theorem parseFrame_at {b : TcpBuffer} {m : TinyPBProtocol} {i : Nat} (h : RoundTrip m)
    (hint : i + frameLen m < 2 ^ 31) (hb : HoldsAt b i (encodeTinyPB m).block) :
    (parseFrame b ⟨i, i + frameLen m - 1, frameLen m⟩).val = some (some (received m)) := by
  obtain ⟨-, -, h3, -⟩ := holdsAt_fields h hb
  have herr := h.no_err_info
  rw [body, List.append_assoc] at h3
  refine parseFrame_val h3 ?_ hint h.id_text h.name_text (by simp [herr])
  unfold frameLen
  rw [herr]
  rfl

theorem parseFrame_block {b : TcpBuffer} {m : TinyPBProtocol} {rest : Bytes} (hv : b.Valid)
    (hint : b.m_write_index < 2 ^ 31) (h : RoundTrip m)
    (hread : b.readable = (encodeTinyPB m).block ++ rest) :
    (parseFrame b ⟨b.m_read_index, b.m_read_index + frameLen m - 1, frameLen m⟩).val =
      some (some (received m)) := by
  have hlen := congrArg List.length hread
  rw [TcpBuffer.readable_length hv, List.length_append, h.block_length] at hlen
  have hr := hv.read_le
  exact parseFrame_at h (by omega) (holdsAt_block hv hread)

theorem decode_block {b : TcpBuffer} {m : TinyPBProtocol} {rest : Bytes} (hv : b.Valid)
    (hint : b.m_write_index < 2 ^ 31) (hroom : b.m_write_index < b.m_buffer.length)
    (h : RoundTrip m) (hread : b.readable = (encodeTinyPB m).block ++ rest) :
    ∃ b', b.moveReadIndex (frameLen m) = some b' ∧
      TcpBuffer.Holds rest b.m_buffer.length b' ∧ b'.m_write_index ≤ b.m_write_index ∧
      ∀ turns, (decode (turns + 1) b).val =
        (decode turns b').val.map fun r => (received m :: r.1, r.2) := by
  have hlen := congrArg List.length hread
  rw [List.length_append, h.block_length] at hlen
  have hidx := TcpBuffer.readable_length hv
  have hr := hv.read_le
  obtain ⟨b', hmove, hholds, hw'⟩ :=
    TcpBuffer.moveReadIndex_spec hv (by omega : frameLen m ≤ b.readable.length) (by omega)
  rw [hread, List.drop_left' h.block_length] at hholds
  refine ⟨b', hmove, hholds, hw', fun turns => ?_⟩
  apply val_bind_of (scan_block hv hint h hread)
  have hsize : (⟨b.m_read_index, b.m_read_index + frameLen m - 1, frameLen m⟩ : Frame).size =
      frameLen m := by
    simp only [Frame.size]; omega
  apply val_bind_of (by rw [val_ofOption, hsize, hmove])
  apply val_bind_of (parseFrame_block hv hint h hread)
  cases hrest : (decode turns b').val with
  | none => rw [val_bind, hrest]; rfl
  | some r => exact val_bind_of hrest rfl

/-! ## Many frames -/

def dropFrames : List TinyPBProtocol → TcpBuffer → Option TcpBuffer
  | [], b => some b
  | m :: ms, b => do dropFrames ms (← b.moveReadIndex (frameLen m))

/-- The decoder takes the whole frames at the front of the buffer, one a turn,
and goes on with what they leave. -/
theorem decode_frames {ms : List TinyPBProtocol} {b : TcpBuffer} {rest : Bytes} (hv : b.Valid)
    (hint : b.m_write_index < 2 ^ 31) (hroom : b.m_write_index < b.m_buffer.length)
    (h : ∀ m ∈ ms, RoundTrip m) (hread : b.readable = wire ms ++ rest) :
    ∃ b', dropFrames ms b = some b' ∧ TcpBuffer.Holds rest b.m_buffer.length b' ∧
      b'.m_write_index ≤ b.m_write_index ∧
      ∀ turns, (decode (ms.length + turns) b).val =
        (decode turns b').val.map fun r => (ms.map received ++ r.1, r.2) := by
  induction ms generalizing b with
  | nil => exact ⟨b, rfl, ⟨hv, by simpa using hread, rfl⟩, Nat.le_refl _, by simp⟩
  | cons m ms ih =>
    rw [wire_cons, List.append_assoc] at hread
    obtain ⟨b1, hmove, h1, hw1, hdec⟩ :=
      decode_block hv hint hroom (h m List.mem_cons_self) hread
    have hroom1 : b1.m_write_index < b1.m_buffer.length := by rw [h1.length_eq]; omega
    obtain ⟨b', hdrop, h', hw', hdec'⟩ :=
      ih h1.valid (by omega) hroom1 (fun x hx => h x (List.mem_cons_of_mem _ hx)) h1.readable_eq
    refine ⟨b', by rw [dropFrames, hmove]; exact hdrop, ?_, by omega, ?_⟩
    · rw [← h1.length_eq]; exact h'
    · intro turns
      rw [List.length_cons, Nat.add_right_comm, hdec, hdec', Option.map_map]
      rfl

structure SameOnWire (sent got : TinyPBProtocol) : Prop where
  msg_id : got.m_msg_id = sent.m_msg_id
  method_name : got.m_method_name = sent.m_method_name
  err_code : got.m_err_code = sent.m_err_code
  err_info : got.m_err_info = sent.m_err_info
  pb_data : got.m_pb_data = sent.m_pb_data
  pk_len : got.m_pk_len = sent.m_pk_len
  msg_id_len : got.m_msg_id_len = sent.m_msg_id_len
  method_name_len : got.m_method_name_len = sent.m_method_name_len
  err_info_len : got.m_err_info_len = sent.m_err_info_len

theorem RoundTrip.sameOnWire {m : TinyPBProtocol} (h : RoundTrip m) :
    SameOnWire (encodeTinyPB m).msg (received m) := by
  have hint := h.frame_int
  refine ⟨h.sentId_eq.symm, rfl, rfl, rfl, rfl, ?_, ?_, ?_, ?_⟩
  · exact h.len_eq.symm
  · unfold encodeTinyPB received
    simp only [h.sentId_eq]
    rw [intOfSize_eq (by omega)]
  · unfold encodeTinyPB
    simp only [received]
    rw [intOfSize_eq (by omega)]
  · unfold encodeTinyPB received
    simp only [h.no_err_info]
    rfl

theorem decode_wire {ms : List TinyPBProtocol} {b : TcpBuffer} (hv : b.Valid)
    (hint : b.m_write_index < 2 ^ 31) (hroom : b.m_write_index < b.m_buffer.length)
    (h : ∀ m ∈ ms, RoundTrip m) (hread : b.readable = wire ms) :
    ∃ b', (decode (ms.length + 1) b).val = some (ms.map received, b') ∧ b'.readAble = 0 := by
  have hwire : b.readable = wire ms ++ [] := by rw [List.append_nil, hread]
  obtain ⟨b', -, h', -, hdec⟩ := decode_frames hv hint hroom h hwire
  have hempty : b'.m_read_index = b'.m_write_index := by
    have hlen := TcpBuffer.readable_length h'.valid
    have hr := h'.valid.read_le
    rw [h'.readable_eq, List.length_nil] at hlen
    omega
  have hret : (decode 1 b').val = some ([], b') := val_bind_of (scan_nil hempty) rfl
  refine ⟨b', ?_, ?_⟩
  · rw [hdec, hret, Option.map_some, List.append_nil]
  · rw [TcpBuffer.readAble_eq h'.valid, h'.readable_eq]
    rfl

/-- What `encode` appended for a list of messages, `decode` takes off again:
it returns, with the same messages in the same order, and the buffer is empty. -/
theorem decode_encode (ms : List TinyPBProtocol) (h : ∀ m ∈ ms, RoundTrip m)
    (out : TcpBuffer) (hout : out.Valid) (sent : List TinyPBProtocol) (out' : TcpBuffer)
    (henc : encode ms out = some (sent, out'))
    (b : TcpBuffer) (hv : b.Valid) (hint : b.m_write_index < 2 ^ 31)
    (hread : out'.readable = out.readable ++ b.readable)
    (hroom : b.m_write_index < b.m_buffer.length) :
    ∃ turns out_message b', (decode turns b).val = some (out_message, b') ∧
      List.Forall₂ SameOnWire sent out_message ∧ b'.readAble = 0 := by
  obtain ⟨out1, henc1, -, hread1⟩ := encode_spec ms hout
  obtain ⟨rfl, rfl⟩ : _ = sent ∧ out1 = out' := by simpa [henc1] using henc
  have hwire : b.readable = wire ms := List.append_cancel_left (hread.symm.trans hread1)
  obtain ⟨b', hdec, hempty⟩ := decode_wire hv hint hroom h hwire
  refine ⟨ms.length + 1, ms.map received, b', hdec, ?_, hempty⟩
  rw [List.forall₂_map_left_iff, List.forall₂_map_right_iff, List.forall₂_same]
  exact fun m hm => (h m hm).sameOnWire

def request : TinyPBProtocol where
  m_msg_id := ascii "99998888"
  m_method_name := ascii "Order.makeOrder"
  m_pb_data := [PB_START, PB_END, 0]

def cancel : TinyPBProtocol where
  m_msg_id := ascii "99998889"
  m_method_name := ascii "Order.cancel"
  m_err_code := 7

/-- Both messages, behind three bytes that were read and in front of free ones. -/
def twoFrames : TcpBuffer where
  m_read_index := 3
  m_write_index := 101
  m_buffer := List.replicate 3 PB_START ++ wire [request, cancel] ++ List.replicate 27 PB_END

theorem decode_encode_two :
    ∃ turns out_message b', (decode turns twoFrames).val = some (out_message, b') ∧
      List.Forall₂ SameOnWire [(encodeTinyPB request).msg, (encodeTinyPB cancel).msg]
        out_message ∧ b'.readAble = 0 :=
  decode_encode [request, cancel] (by decide +kernel) (TcpBuffer.new 128)
    (TcpBuffer.new_valid 128) _ ⟨0, 98, wire [request, cancel] ++ List.replicate 30 0⟩
    (by decide +kernel) twoFrames (by decide +kernel) (by decide) (by decide +kernel)
    (by decide +kernel)

end TinyRpc.Coder
