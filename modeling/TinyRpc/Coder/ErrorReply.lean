import TinyRpc.Coder.Progress
import TinyRpc.Coder.RoundTrip
import TinyRpc.Rpc.Dispatcher

/-!
# Error replies on the wire

The length that the encoder declares, and the block that it sends, leave out
the error text. The decoder counts the text. So a message with an error text
needs more bytes than the encoder sends for it.
-/

namespace TinyRpc.Coder

open Lib Traced

/-! ## Messages with an error text -/

/-- As for `RoundTrip`, with an error text that fits the array of the decoder. -/
structure Sendable (m : TinyPBProtocol) : Prop where
  id_ne : m.m_msg_id ≠ []
  id_text : m.m_msg_id.length < 100 ∧ (0 : Byte) ∉ m.m_msg_id
  name_text : m.m_method_name.length < 512 ∧ (0 : Byte) ∉ m.m_method_name
  info_text : m.m_err_info.length < 512 ∧ (0 : Byte) ∉ m.m_err_info
  frame_int : 26 + m.m_msg_id.length + m.m_method_name.length + m.m_pb_data.length < 2 ^ 31

theorem RoundTrip.sendable {m : TinyPBProtocol} (h : RoundTrip m) : Sendable m :=
  ⟨h.id_ne, h.id_text, h.name_text, by simp [h.no_err_info], h.frame_int⟩

theorem Sendable.roundTrip {m : TinyPBProtocol} (h : Sendable m) (hinfo : m.m_err_info = []) :
    RoundTrip m :=
  ⟨h.id_ne, h.id_text, h.name_text, hinfo, h.frame_int⟩

structure SameFields (sent got : TinyPBProtocol) : Prop where
  msg_id : got.m_msg_id = sent.m_msg_id
  method_name : got.m_method_name = sent.m_method_name
  err_code : got.m_err_code = sent.m_err_code
  err_info : got.m_err_info = sent.m_err_info
  pb_data : got.m_pb_data = sent.m_pb_data

/-- Encoded anywhere in a list of messages that survive the wire, the message
comes back with its fields, and so do its neighbours. -/
def Survives (m : TinyPBProtocol) : Prop :=
  ∀ before after : List TinyPBProtocol, (∀ x ∈ before ++ after, RoundTrip x) →
    ∀ out : TcpBuffer, out.Valid →
    ∀ sent out', encode (before ++ m :: after) out = some (sent, out') →
    ∀ b : TcpBuffer, b.Valid → b.m_write_index < 2 ^ 31 →
      out'.readable = out.readable ++ b.readable → b.m_write_index < b.m_buffer.length →
      ∃ turns out_message b', (decode turns b).val = some (out_message, b') ∧
        List.Forall₂ SameFields (before ++ m :: after) out_message

/-- The bytes that the decoder has to see for a message. -/
def needed (m : TinyPBProtocol) : Nat :=
  26 + m.m_msg_id.length + m.m_method_name.length + m.m_err_info.length + m.m_pb_data.length

theorem SameFields.needed_eq {sent got : TinyPBProtocol} (h : SameFields sent got) :
    needed got = needed sent := by
  unfold needed
  rw [h.msg_id, h.method_name, h.err_info, h.pb_data]

theorem Sendable.block_length {m : TinyPBProtocol} (h : Sendable m) :
    (encodeTinyPB m).block.length + m.m_err_info.length ≤ needed m := by
  have hint := h.frame_int
  have hlen : (encodeTinyPB m).len = 26 + m.m_msg_id.length + m.m_method_name.length +
      m.m_pb_data.length := by
    unfold encodeTinyPB
    simp only [sentId, if_neg h.id_ne]
    rw [intOfSize_eq (by omega)]
    push_cast
    rfl
  unfold Encoded.block needed
  rw [hlen, List.length_take]
  omega

theorem wire_length_le {ms : List TinyPBProtocol} (h : ∀ m ∈ ms, Sendable m) :
    (wire ms).length + (ms.map fun m => m.m_err_info.length).sum ≤ (ms.map needed).sum := by
  induction ms with
  | nil => simp
  | cons m ms ih =>
    have hm := (h m List.mem_cons_self).block_length
    have hms := ih fun x hx => h x (List.mem_cons_of_mem _ hx)
    rw [wire_cons, List.length_append, List.map_cons, List.map_cons, List.sum_cons, List.sum_cons]
    omega

/-! ## What the decoder has seen of a message -/

theorem load_length {b : TcpBuffer} {k n : Int} {l : Bytes} (h : (load b k n).val = some l) :
    (l.length : Int) = n := by
  unfold load at h
  simp only [val_event] at h
  split at h
  · rw [← Option.some.inj h, List.length_take, List.length_drop]
    omega
  · simp at h

theorem cString_length_le {size : Nat} {bytes text : Bytes} (h : cString size bytes = some text) :
    text.length ≤ bytes.length := by
  unfold cString at h
  split at h
  · simp at h
  · simp only [Option.ite_none_right_eq_some, Option.some.injEq] at h
    rw [← h.2, List.takeWhile_append]
    split
    · rw [List.takeWhile_replicate, if_neg (by simp), List.append_nil]
    · exact (List.takeWhile_prefix _).length_le

theorem copyText_length_le {b : TcpBuffer} {size : Nat} {k n : Int} {text : Bytes}
    (h : (copyText b size k n).val = some text) : (text.length : Int) ≤ n := by
  unfold copyText at h
  simp only [val_bind, val_event, Option.bind_eq_some_iff] at h
  obtain ⟨bytes, hbytes, htext⟩ := h
  have hload := load_length hbytes
  have := cString_length_le htext
  omega

theorem int_eq {v r : Int} (h : (int v).val = some r) : r = v := by
  unfold int at h
  simp only [val_event, Option.ite_none_right_eq_some, Option.some.injEq] at h
  exact h.2.symm

theorem parseFrame_needed {b : TcpBuffer} {f : Frame} {msg : TinyPBProtocol}
    (h : (parseFrame b f).val = some (some msg)) :
    (needed msg : Int) ≤ f.pk_len ∧ msg.m_pk_len = f.pk_len := by
  unfold parseFrame at h
  simp only [val_bind, Option.bind_eq_some_iff] at h
  obtain ⟨_, -, h⟩ := h
  split at h
  · simp at h
  simp only [val_bind, Option.bind_eq_some_iff] at h
  obtain ⟨id_len, -, _, -, id, hid, _, -, h⟩ := h
  split at h
  · simp at h
  simp only [val_bind, Option.bind_eq_some_iff] at h
  obtain ⟨name_len, -, _, -, name, hname, _, -, h⟩ := h
  split at h
  · simp at h
  simp only [val_bind, Option.bind_eq_some_iff] at h
  obtain ⟨code, -, _, -, h⟩ := h
  split at h
  · simp at h
  simp only [val_bind, Option.bind_eq_some_iff] at h
  obtain ⟨info_len, -, _, -, info, hinfo, data_len, hlen, _, -, _, -, data, hdata, h⟩ := h
  -- A text may end before the length that is declared for it, never behind it.
  have h1 := copyText_length_le hid
  have h2 := copyText_length_le hname
  have h3 := copyText_length_le hinfo
  have h4 := load_length hdata
  have h5 := int_eq hlen
  simp only [val_pure, Option.some.injEq] at h
  rw [← h]
  refine ⟨?_, rfl⟩
  simp only [needed]
  omega

theorem decode_turn {turns : Nat} {b b' : TcpBuffer} {out : List TinyPBProtocol}
    (h : (decode (turns + 1) b).val = some (out, b')) :
    (out = [] ∧ b' = b) ∨ ∃ f b1 message rest, (scan b).val = some (some f) ∧
      b.moveReadIndex f.size = some b1 ∧ (parseFrame b f).val = some message ∧
      (decode turns b1).val = some (rest, b') ∧ out = message.toList ++ rest := by
  unfold decode at h
  simp only [val_bind, Option.bind_eq_some_iff] at h
  obtain ⟨found, hscan, h⟩ := h
  cases found with
  | none =>
    simp only [val_pure, Option.some.injEq, Prod.mk.injEq] at h
    exact Or.inl ⟨h.1.symm, h.2.symm⟩
  | some f =>
    simp only [val_bind, val_ofOption, val_pure, Option.bind_eq_some_iff, Option.some.injEq,
      Prod.mk.injEq] at h
    obtain ⟨b1, hmove, message, hparse, ⟨rest, b2⟩, hrest, rfl, rfl⟩ := h
    exact Or.inr ⟨f, b1, message, rest, hscan, hmove, hparse, hrest, rfl⟩

theorem found_needed {b : TcpBuffer} (hv : b.Valid) {f : Frame}
    (hscan : (scan b).val = some (some f)) {message : Option TinyPBProtocol}
    (hparse : (parseFrame b f).val = some message) {got : TinyPBProtocol}
    (hgot : got ∈ message) : (needed got : Int) ≤ f.size ∧ f.size ≤ b.readAble := by
  obtain ⟨i, h1, h2, hframed, rfl, h3⟩ := (scan_some_iff hv).mp hscan
  rw [frameAt_size]
  constructor
  · rw [Option.mem_def.mp hgot] at hparse
    exact (parseFrame_needed hparse).1
  · exact hframed.declared_le ⟨h1, h2, h3⟩

theorem decode_needed_le {turns : Nat} {b b' : TcpBuffer} {out : List TinyPBProtocol}
    (hv : b.Valid) (h : (decode turns b).val = some (out, b')) :
    ∀ got ∈ out, needed got ≤ b.m_write_index := by
  induction turns generalizing b out with
  | zero => simp [decode, stop] at h
  | succ turns ih =>
    rcases decode_turn h with ⟨rfl, -⟩ | ⟨f, b1, message, rest, hscan, hmove, hparse, hrest, rfl⟩
    · simp
    · have hturn : Turn b b1 := ⟨f, hscan, hmove⟩
      intro got hgot
      rcases List.mem_append.mp hgot with hgot | hgot
      · have := found_needed hv hscan hparse (Option.mem_toList.mp hgot)
        unfold TcpBuffer.readAble at this
        omega
      · exact Nat.le_trans (ih (hturn.valid hv) hrest got hgot) (hturn.write_le hv)

theorem decode_needed_sum {turns : Nat} {b b' : TcpBuffer} {out : List TinyPBProtocol}
    (hv : b.Valid) (hend : ∀ b', Reached b b' → Shrinks b')
    (h : (decode turns b).val = some (out, b')) : ((out.map needed).sum : Int) ≤ b.readAble := by
  induction turns generalizing b out with
  | zero => simp [decode, stop] at h
  | succ turns ih =>
    have hpos : 0 ≤ b.readAble := by rw [TcpBuffer.readAble_eq hv]; omega
    rcases decode_turn h with ⟨rfl, -⟩ | ⟨f, b1, message, rest, hscan, hmove, hparse, hrest, rfl⟩
    · simpa using hpos
    · have hturn : Turn b b1 := ⟨f, hscan, hmove⟩
      have hrest := ih (hturn.valid hv)
        (fun b' hb' => hend b' (Relation.ReflTransGen.head hturn hb')) hrest
      have hadv := (shrinks_iff hv).mp (hend b Relation.ReflTransGen.refl)
      obtain ⟨i, h1, h2, hframed, rfl, h3⟩ := (scan_some_iff hv).mp hscan
      have hvis : Visited b i := ⟨h1, h2, h3⟩
      obtain ⟨hpos, hin⟩ := (hadv i hvis hframed.1).2 hframed
      rw [frameAt_size] at hmove
      obtain ⟨b2, hb2, -, hread, -⟩ := TcpBuffer.moveReadIndex_moved hv (by omega) hin
        (hframed.declared_le hvis)
      rw [hb2] at hmove
      rw [← Option.some.inj hmove, hread] at hrest
      rw [List.map_append, List.sum_append, Int.natCast_add]
      -- A frame that gives no message takes its bytes all the same.
      cases message with
      | none =>
        simp only [Option.toList_none, List.map_nil, List.sum_nil]
        omega
      | some msg =>
        have hsize := (found_needed hv hscan hparse rfl).1
        rw [frameAt_size] at hsize
        simp only [Option.toList_some, List.map_cons, List.map_nil, List.sum_cons, List.sum_nil]
        omega

/-! ## No message with an error text survives -/

theorem SameFields.needed_sum_eq {ms out : List TinyPBProtocol}
    (h : List.Forall₂ SameFields ms out) : (out.map needed).sum = (ms.map needed).sum := by
  induction h with
  | nil => rfl
  | cons hx _ ih => rw [List.map_cons, List.map_cons, List.sum_cons, List.sum_cons, hx.needed_eq, ih]

theorem wire_short {before after : List TinyPBProtocol} {m : TinyPBProtocol}
    (h : ∀ x ∈ before ++ m :: after, Sendable x) (hinfo : m.m_err_info ≠ []) :
    (wire (before ++ m :: after)).length < ((before ++ m :: after).map needed).sum := by
  have hle := wire_length_le h
  have hpos := List.length_pos_iff.mpr hinfo
  rw [List.map_append, List.sum_append, List.map_cons, List.sum_cons] at hle
  omega

theorem not_same_of_loopEnds {before after : List TinyPBProtocol} {m : TinyPBProtocol}
    (h : ∀ x ∈ before ++ m :: after, Sendable x) (hinfo : m.m_err_info ≠ []) {b : TcpBuffer}
    (hv : b.Valid) (hread : b.readable = wire (before ++ m :: after)) (hend : LoopEnds b)
    {turns : Nat} {out : List TinyPBProtocol} {b' : TcpBuffer}
    (hdec : (decode turns b).val = some (out, b')) :
    ¬ List.Forall₂ SameFields (before ++ m :: after) out := by
  intro hsame
  have hsum := decode_needed_sum hv hend.shrinks hdec
  have hshort := wire_short h hinfo
  rw [TcpBuffer.readAble_eq hv, hread, SameFields.needed_sum_eq hsame] at hsum
  omega

theorem not_same_alone {m : TinyPBProtocol} (h : Sendable m) (hinfo : m.m_err_info ≠ [])
    {b : TcpBuffer} (hv : b.Valid) (hread : b.readable = wire [m]) (hfront : b.m_read_index = 0)
    {turns : Nat} {out : List TinyPBProtocol} {b' : TcpBuffer}
    (hdec : (decode turns b).val = some (out, b')) :
    ∀ got ∈ out, ¬ SameFields m got := by
  intro got hgot hsame
  have hle := decode_needed_le hv hdec got hgot
  have hlen := TcpBuffer.readable_length hv
  have hpos := List.length_pos_iff.mpr hinfo
  have hblock := h.block_length
  rw [hread, wire_cons, wire_nil, List.append_nil, hfront] at hlen
  rw [hsame.needed_eq] at hle
  omega

/-- A buffer that is just long enough to have a spare byte. -/
def holding (l : Bytes) : TcpBuffer where
  m_write_index := l.length
  m_buffer := l ++ [0]

theorem holding_valid (l : Bytes) : (holding l).Valid := by
  constructor
  · exact Nat.zero_le _
  · simp [holding]

theorem holding_readable (l : Bytes) : (holding l).readable = l := by
  simp [holding, TcpBuffer.readable]

theorem forall_mem_middle {P : TinyPBProtocol → Prop} {before after : List TinyPBProtocol}
    {m : TinyPBProtocol} (hm : P m) (h : ∀ x ∈ before ++ after, P x) :
    ∀ x ∈ before ++ m :: after, P x := by
  rw [List.forall_mem_append] at h
  rw [List.forall_mem_append, List.forall_mem_cons]
  exact ⟨h.1, hm, h.2⟩

theorem Sendable.not_survives {m : TinyPBProtocol} (h : Sendable m) (hinfo : m.m_err_info ≠ []) :
    ¬ Survives m := by
  intro hs
  obtain ⟨out', henc, -, hread⟩ := encode_spec [m] (TcpBuffer.new_valid 0)
  have hblock := h.block_length
  have hint := h.frame_int
  have hlen : (wire [m]).length < 2 ^ 31 := by
    unfold needed at hblock
    rw [wire_cons, wire_nil, List.append_nil]
    omega
  obtain ⟨turns, out, b', hdec, hsame⟩ := hs [] [] (by simp) (TcpBuffer.new 0)
    (TcpBuffer.new_valid 0) _ out' henc (holding (wire [m])) (holding_valid _) hlen
    (by rw [hread, holding_readable]) (by simp [holding])
  obtain ⟨got, rest, hgot, -, hout⟩ := List.forall₂_cons_left_iff.mp hsame
  have hmem : got ∈ out := hout ▸ List.mem_cons_self
  exact not_same_alone h hinfo (holding_valid _) (holding_readable _) rfl hdec got hmem hgot

theorem Sendable.survives {m : TinyPBProtocol} (h : Sendable m) (hinfo : m.m_err_info = []) :
    Survives m := by
  intro before after hmem out hout sent out' henc b hv hint hread hroom
  have hall := forall_mem_middle (h.roundTrip hinfo) hmem
  obtain ⟨out1, henc1, -, hread1⟩ := encode_spec (before ++ m :: after) hout
  obtain ⟨rfl, rfl⟩ : _ = sent ∧ out1 = out' := by simpa [henc1] using henc
  have hwire := List.append_cancel_left (hread.symm.trans hread1)
  obtain ⟨b', hdec, -⟩ := decode_wire hv hint hroom hall hwire
  refine ⟨_, _, b', hdec, ?_⟩
  rw [List.forall₂_map_right_iff, List.forall₂_same]
  exact fun x _ => ⟨rfl, rfl, rfl, rfl, rfl⟩

/-- A message survives the wire exactly when it has no error text. With one it
is lost in every list and every buffer in which the decoder moves on, and
alone at the front of any buffer. -/
theorem survives_iff (m : TinyPBProtocol) (h : Sendable m) :
    (Survives m ↔ m.m_err_info = []) ∧
    (m.m_err_info ≠ [] →
      ∀ before after : List TinyPBProtocol, (∀ x ∈ before ++ after, Sendable x) →
      ∀ b : TcpBuffer, b.Valid → b.readable = wire (before ++ m :: after) →
      ∀ turns out b', (decode turns b).val = some (out, b') →
        (LoopEnds b → ¬ List.Forall₂ SameFields (before ++ m :: after) out) ∧
        (before = [] → after = [] → b.m_read_index = 0 → ∀ got ∈ out, ¬ SameFields m got)) := by
  refine ⟨⟨?_, h.survives⟩, ?_⟩
  · intro hs
    by_contra hinfo
    exact h.not_survives hinfo hs
  · intro hinfo before after hmem b hv hread turns out b' hdec
    constructor
    · intro hend
      exact not_same_of_loopEnds (forall_mem_middle h hmem) hinfo hv hread hend hdec
    · rintro rfl rfl hfront
      exact not_same_alone h hinfo hv hread hfront hdec

/-! ## The error replies of the dispatcher -/

open RpcDispatcher

variable {μ : Type}

theorem errorTexts_text : ∀ text ∈ errorTexts,
    (ascii text).length < 512 ∧ (0 : Byte) ∉ ascii text := by decide

theorem dispatch_sendable (m_service_map : Registry μ) {req : TinyPBProtocol} (hreq : Sendable req)
    (hint : 26 + req.m_msg_id.length + req.m_method_name.length +
      (dispatch m_service_map req {}).1.m_pb_data.length < 2 ^ 31) :
    Sendable (dispatch m_service_map req {}).1 := by
  have h := dispatch_answers m_service_map req {}
  have htext : (dispatch m_service_map req {}).1.m_err_info.length < 512 ∧
      (0 : Byte) ∉ (dispatch m_service_map req {}).1.m_err_info := by
    rcases h.err_info with hinfo | ⟨text, htext, hinfo⟩
    · rw [hinfo]
      simp
    · rw [hinfo]
      exact errorTexts_text text htext
  refine ⟨?_, ?_, ?_, htext, ?_⟩
  · rw [h.msg_id]
    exact hreq.id_ne
  · rw [h.msg_id]
    exact hreq.id_text
  · rw [h.method_name]
    exact hreq.name_text
  · rw [h.msg_id, h.method_name]
    exact hint

theorem errorReply_not_survives (m_service_map : Registry μ) {req : TinyPBProtocol}
    (hreq : Sendable req)
    (hint : 26 + req.m_msg_id.length + req.m_method_name.length +
      (dispatch m_service_map req {}).1.m_pb_data.length < 2 ^ 31)
    (herr : (dispatch m_service_map req {}).1.m_err_info ≠ []) :
    ¬ Survives (dispatch m_service_map req {}).1 :=
  (dispatch_sendable m_service_map hreq hint).not_survives herr

/-- The reply to a request for a service that is not registered. -/
def notFound : TinyPBProtocol := (dispatch ([] : Registry Bytes) request {}).1

theorem request_sendable : Sendable request :=
  (roundTrip_iff request).mp (by decide +kernel) |>.sendable

theorem notFound_sendable : Sendable notFound :=
  dispatch_sendable [] request_sendable (by decide +kernel)

theorem notFound_not_survives :
    Sendable notFound ∧ notFound.m_err_info ≠ [] ∧
      (decode 1 (holding (wire [notFound]))).val =
        some ([], holding (wire [notFound])) ∧
      ¬ Survives notFound :=
  ⟨notFound_sendable, by decide +kernel, by decide +kernel,
    notFound_sendable.not_survives (by decide +kernel)⟩

theorem survives_iff_notFound : Survives notFound ↔ notFound.m_err_info = [] :=
  (survives_iff notFound notFound_sendable).1

end TinyRpc.Coder
