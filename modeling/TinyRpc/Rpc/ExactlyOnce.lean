import TinyRpc.Rpc.Session

/-!
# Each call is answered exactly once

Neither side takes what it has written out of its output buffer, so it writes
all of it again. The client runs a callback once, however often its reply comes.
-/

namespace TinyRpc.Session

open Lib Coder RpcDispatcher

variable {μ : Type} {m_service_map : Registry μ} {s t : Session}
  {a : Retransmit.State TinyPBProtocol}

/-! ## The session is the protocol -/

/-- What a session looks like in a state of the protocol. -/
structure Stands (m_service_map : Registry μ) (s : Session)
    (a : Retransmit.State TinyPBProtocol) : Prop where
  requests : s.requests = a.issued
  callable : ∀ r ∈ a.issued, Callable m_service_map r
  ids : (a.issued.map (·.m_msg_id)).Nodup
  clientState : s.client.m_state = .Connected
  clientType : s.client.m_connection_type = .TcpConnectionByClient
  clientIn : s.client.m_in_buffer.Ready ∧ s.client.m_in_buffer.readable = []
  clientOut : s.client.m_out_buffer.Valid ∧
    s.client.m_out_buffer.readable = wire (a.issued.take a.sent)
  asking : s.client.m_fd_event.out_event = a.asking
  writeDones : s.client.m_write_dones = (a.issued.drop a.sent).map fun r => (r, r)
  readDones : s.client.m_read_dones = waiting (a.issued.take a.sent) a.done
  serverState : s.server.m_state = .Connected
  serverType : s.server.m_connection_type = .TcpConnectionByServer
  serverIn : s.server.m_in_buffer.Ready ∧ s.server.m_in_buffer.readable = []
  serverOut : s.server.m_out_buffer.Valid ∧
    s.server.m_out_buffer.readable = wire (a.answered.map (reply m_service_map))
  answering : s.server.m_fd_event.out_event = a.answering
  toServer : s.toServer = wire a.requests
  toClient : s.toClient = wire (a.replies.map (reply m_service_map))
  invoked : s.invoked = a.done.map fun r => (r, received (reply m_service_map r))

theorem Stands.distinct (h : Stands m_service_map s a) : Distinct a.issued := by
  intro r hr r' hr' hid
  exact List.inj_on_of_nodup_map h.ids hr hr' hid

theorem start_stands (h : (system (reply m_service_map)).start s) :
    Stands m_service_map s ({} : Retransmit.State TinyPBProtocol) := by
  obtain rfl := h
  have hready : (TcpBuffer.new 128).Ready := 
    ⟨TcpBuffer.new_valid 128, by simp [TcpBuffer.new], by simp [TcpBuffer.new]⟩
  have hempty := TcpBuffer.new_readable 128
  refine ⟨rfl, by simp, by simp, rfl, rfl, ⟨hready, hempty⟩, ⟨TcpBuffer.new_valid 128, hempty⟩, rfl,
    rfl, rfl, rfl, rfl, ⟨hready, hempty⟩, ⟨TcpBuffer.new_valid 128, hempty⟩, rfl, rfl, rfl, rfl⟩

theorem Stands.call (h : Stands m_service_map s a) (hkept : Retransmit.Kept a)
    {message : TinyPBProtocol} (hcallable : Callable m_service_map message)
    (hnew : message.m_msg_id ∉ s.requests.map (·.m_msg_id))
    (ht : s.next (reply m_service_map) (.call message) = some t) :
    message ∉ a.issued ∧ Stands m_service_map t (Retransmit.after a (.issue message)) := by
  obtain rfl := Option.some.inj ht
  rw [h.requests] at hnew
  -- The new call stands behind those that were written.
  have htake : (a.issued ++ [message]).take a.sent = a.issued.take a.sent :=
    List.take_append_of_le_length hkept.sent_le
  have hdrop : (a.issued ++ [message]).drop a.sent = a.issued.drop a.sent ++ [message] :=
    List.drop_append_of_le_length hkept.sent_le
  refine ⟨fun hmem => hnew (List.mem_map_of_mem hmem), ?_⟩
  exact {
    requests := by simp [Retransmit.after, h.requests]
    callable := by simpa [Retransmit.after, or_imp, forall_and] using ⟨h.callable, hcallable⟩
    ids := by
      simp only [Retransmit.after, List.map_append, List.map_cons, List.map_nil]
      rw [List.nodup_append]
      refine ⟨h.ids, List.nodup_singleton _, ?_⟩
      rintro id hid _ hid' rfl
      rw [List.mem_singleton.mp hid'] at hid
      exact hnew hid
    clientState := h.clientState
    clientType := h.clientType
    clientIn := h.clientIn
    clientOut := by
      simpa only [Retransmit.after, htake, TcpConnection.pushSendMessage,
        TcpConnection.listenWrite] using h.clientOut
    asking := rfl
    writeDones := by
      simp [Retransmit.after, hdrop, TcpConnection.pushSendMessage, TcpConnection.listenWrite,
        h.writeDones]
    readDones := by
      simpa only [Retransmit.after, htake, TcpConnection.pushSendMessage,
        TcpConnection.listenWrite] using h.readDones
    serverState := h.serverState
    serverType := h.serverType
    serverIn := h.serverIn
    serverOut := h.serverOut
    answering := h.answering
    toServer := h.toServer
    toClient := h.toClient
    invoked := h.invoked }

theorem Stands.serverWrite (h : Stands m_service_map s a) {rts : List WriteResult}
    (hwhole : s.server.WritesWhole rts)
    (ht : s.next (reply m_service_map) (.serverWrite rts) = some t) :
    ∃ f, (∀ r, f ≠ .issue r) ∧ Stands m_service_map t (Retransmit.after a f) := by
  obtain ⟨⟨server, l⟩, hwrite, ht⟩ := Option.bind_eq_some_iff.mp ht
  obtain rfl := Option.some.inj ht
  obtain ⟨is_all_write, rfl, rfl⟩ :=
    write_server h.serverState h.serverType h.serverOut.1 hwhole hwrite
  cases is_all_write with
  | true =>
    refine ⟨.reply, by simp, { h with answering := by simp [Retransmit.after], toClient := ?_ }⟩
    simp [Retransmit.after, h.toClient, h.serverOut.2, wire_append]
  | false =>
    refine ⟨.idle, by simp, { h with answering := ?_, toClient := ?_ }⟩
    · simpa [Retransmit.after] using h.answering
    · simpa [Retransmit.after] using h.toClient

theorem mem_replies (hkept : Retransmit.Kept a) {r : TinyPBProtocol} (hr : r ∈ a.replies) :
    r ∈ a.issued.take a.sent :=
  hkept.answered r (hkept.replies r hr)

theorem Stands.serverRead (h : Stands m_service_map s a) (hkept : Retransmit.Kept a)
    {rts : List ReadResult} {turns : Nat} {ms : List TinyPBProtocol}
    (hreads : s.server.ReadsFrames rts turns ms)
    (ht : s.next (reply m_service_map) (.serverRead rts turns) = some t) :
    Stands m_service_map t (Retransmit.after a (.answer ms.length)) := by
  obtain ⟨⟨server, calls, toServer⟩, hread, ht⟩ := Option.bind_eq_some_iff.mp ht
  obtain rfl := Option.some.inj ht
  obtain ⟨m_in_buffer, m_out_buffer, hstream, hready, hempty, hv, hout, rfl⟩ :=
    read_server h.serverState h.serverType h.serverIn.1 h.serverIn.2 h.serverOut.1 hreads hread
  have hrequests : ∀ r ∈ a.requests, RoundTrip r := fun r hr =>
    (h.callable r (List.mem_of_mem_take (hkept.requests r hr))).roundTrip
  rw [h.toServer] at hstream
  obtain ⟨hms, rfl⟩ := wire_cut hreads.roundTrip hrequests hstream
  refine { h with
    serverIn := ⟨hready, hempty⟩
    serverOut := ⟨hv, ?_⟩
    answering := rfl
    toServer := rfl }
  have hreplies : (ms.map received).map (reply m_service_map) =
      (a.requests.take ms.length).map (reply m_service_map) := by
    rw [hms, List.map_map]
    rfl
  rw [hout, h.serverOut.2, hreplies, ← wire_append, ← List.map_append]
  rfl

theorem Stands.clientRead (h : Stands m_service_map s a) (hkept : Retransmit.Kept a)
    {rts : List ReadResult} {turns : Nat} {ms : List TinyPBProtocol}
    (hreads : s.client.ReadsFrames rts turns ms)
    (ht : s.next (reply m_service_map) (.clientRead rts turns) = some t) :
    Stands m_service_map t (Retransmit.after a (.finish ms.length)) := by
  obtain ⟨⟨client, calls, toClient⟩, hread, ht⟩ := Option.bind_eq_some_iff.mp ht
  obtain rfl := Option.some.inj ht
  obtain ⟨m_in_buffer, hstream, hready, hempty, rfl, rfl⟩ :=
    read_client h.clientState h.clientType h.clientIn.1 h.clientIn.2 hreads hread
  have hreplies : ∀ m ∈ a.replies.map (reply m_service_map), RoundTrip m := by
    intro m hm
    obtain ⟨r, hr, rfl⟩ := List.mem_map.mp hm
    exact (h.callable r (List.mem_of_mem_take (mem_replies hkept hr))).back
  rw [h.toClient] at hstream
  obtain ⟨hms, rfl⟩ := wire_cut hreads.roundTrip hreplies hstream
  have hids : Distinct (a.issued.take a.sent) := fun r hr r' hr' hid =>
    h.distinct r (List.mem_of_mem_take hr) r' (List.mem_of_mem_take hr') hid
  obtain ⟨calls, hcalls, hdone⟩ := @takeReadDones_replies _ m_service_map _ a.done
    (a.replies.take ms.length) hids fun r hr => mem_replies hkept (List.mem_of_mem_take hr)
  have hmsgs : ms.map received =
      (a.replies.take ms.length).map fun r => received (reply m_service_map r) := by
    rw [hms, ← List.map_take, List.map_map]
    rfl
  rw [h.readDones, hmsgs, hcalls]
  exact { h with
    clientIn := ⟨hready, hempty⟩
    readDones := rfl
    toClient := by simp [Retransmit.after]
    invoked := by
      rw [h.invoked]
      exact hdone }

theorem waiting_ids (requests done : List TinyPBProtocol) :
    ((waiting requests done).map Prod.fst).Sublist (requests.map (·.m_msg_id)) := by
  unfold waiting
  rw [List.map_map]
  exact List.filter_sublist.map _

theorem waiting_all (hkept : Retransmit.Kept a) :
    waiting (a.issued.take a.sent) a.done ++ (a.issued.drop a.sent).map entry =
      waiting a.issued a.done := by
  have hnew : (a.issued.drop a.sent).filter (· ∉ a.done) = a.issued.drop a.sent := by
    rw [List.filter_eq_self]
    intro r hr
    have hnodup := hkept.nodup
    rw [← List.take_append_drop a.sent a.issued, List.nodup_append] at hnodup
    simp only [decide_eq_true_eq]
    intro hdone
    exact hnodup.2.2 r (hkept.answered r (hkept.done r hdone)) r hr rfl
  unfold waiting
  conv_rhs => rw [← List.take_append_drop a.sent a.issued]
  rw [List.filter_append, List.map_append, hnew]

theorem Stands.clientWrite (h : Stands m_service_map s a) (hkept : Retransmit.Kept a)
    {rts : List WriteResult} (hwhole : ∀ c, s.client.beforeWrite = some c → c.WritesWhole rts)
    (ht : s.next (reply m_service_map) (.clientWrite rts) = some t) :
    ∃ f, (∀ r, f ≠ .issue r) ∧ Stands m_service_map t (Retransmit.after a f) := by
  obtain ⟨⟨client, l⟩, hwrite, ht⟩ := Option.bind_eq_some_iff.mp ht
  obtain rfl := Option.some.inj ht
  obtain ⟨is_all_write, m_out_buffer, hv, hout, rfl, rfl⟩ :=
    write_client h.clientState h.clientType h.clientOut.1 hwhole hwrite
  -- Nothing empties the buffer: it has every request from the first one on.
  have hall : m_out_buffer.readable = wire a.issued := by
    rw [hout, h.clientOut.2, h.writeDones, List.map_map, ← wire_append]
    simp only [Function.comp_def, List.map_id', List.take_append_drop]
  have hdones : (s.client.m_write_dones.map fun d => ((encodeTinyPB d.1).msg, d.2)) =
      (a.issued.drop a.sent).map fun r => ((encodeTinyPB r).msg, r) := by
    rw [h.writeDones, List.map_map]
    rfl
  have hids : (s.client.m_read_dones.map Prod.fst ++
      (a.issued.drop a.sent).map (·.m_msg_id)).Nodup := by
    rw [h.readDones]
    have hsub := (waiting_ids (a.issued.take a.sent) a.done).append_right
      ((a.issued.drop a.sent).map (·.m_msg_id))
    rw [← List.map_append, List.take_append_drop] at hsub
    exact h.ids.sublist hsub
  have hrun := @runWriteDones_eq { s.client with
    m_out_buffer
    m_write_dones := s.client.m_write_dones.map fun d => ((encodeTinyPB d.1).msg, d.2)
    m_fd_event := { s.client.m_fd_event with
      out_event := s.client.m_fd_event.out_event && !is_all_write } }
    (a.issued.drop a.sent) h.clientType hdones
    (fun r hr => (h.callable r (List.mem_of_mem_drop hr)).roundTrip) hids
  rw [if_pos h.clientState, hrun]
  have hwaiting : s.client.m_read_dones ++ (a.issued.drop a.sent).map entry =
      waiting (a.issued.take a.issued.length) a.done := by
    rw [h.readDones, waiting_all hkept, List.take_length]
  cases is_all_write with
  | true =>
    refine ⟨.ask, by simp, { h with
      clientOut := ⟨hv, ?_⟩
      asking := ?_
      writeDones := ?_
      readDones := hwaiting
      toServer := ?_ }⟩
    · simpa [Retransmit.after] using hall
    · simp [Retransmit.after]
    · simp [Retransmit.after]
    · simp [Retransmit.after, h.toServer, hall, wire_append]
  | false =>
    refine ⟨.hold, by simp, { h with
      clientOut := ⟨hv, ?_⟩
      asking := ?_
      writeDones := ?_
      readDones := hwaiting
      toServer := ?_ }⟩
    · simpa [Retransmit.after] using hall
    · simpa [Retransmit.after] using h.asking
    · simp [Retransmit.after]
    · simpa [Retransmit.after] using h.toServer

/-! ## Every run -/

theorem step_stands {op : Op} (h : Stands m_service_map s a) (hkept : Retransmit.Kept a)
    (hok : Orderly m_service_map s op) (ht : s.next (reply m_service_map) op = some t) :
    ∃ f b, (Retransmit.system TinyPBProtocol).step a f b ∧ Stands m_service_map t b := by
  cases op with
  | call message =>
    obtain ⟨hnew, hstands⟩ := h.call hkept hok.1 hok.2 ht
    refine ⟨_, _, ⟨fun i hi => ?_, rfl⟩, hstands⟩
    obtain rfl := Retransmit.Event.issue.inj hi
    exact hnew
  | clientWrite rts =>
    obtain ⟨f, hf, hstands⟩ := h.clientWrite hkept hok ht
    exact ⟨f, _, ⟨fun i hi => absurd hi (hf i), rfl⟩, hstands⟩
  | serverRead rts turns =>
    obtain ⟨ms, hreads⟩ := hok
    exact ⟨_, _, ⟨fun i hi => by simp at hi, rfl⟩, h.serverRead hkept hreads ht⟩
  | serverWrite rts =>
    obtain ⟨f, hf, hstands⟩ := h.serverWrite hok ht
    exact ⟨f, _, ⟨fun i hi => absurd hi (hf i), rfl⟩, hstands⟩
  | clientRead rts turns =>
    obtain ⟨ms, hreads⟩ := hok
    exact ⟨_, _, ⟨fun i hi => by simp at hi, rfl⟩, h.clientRead hkept hreads ht⟩

/-- Nothing is on its way, and neither side listens for `EPOLLOUT`. -/
def Quiet (s : Session) : Prop :=
  s.client.m_fd_event.out_event = false ∧ s.server.m_fd_event.out_event = false ∧
    s.toServer = [] ∧ s.toClient = []

/-- The callback of a call is run with what the service computes for its own request. -/
structure Answered (m_service_map : Registry μ) (request message : TinyPBProtocol) : Prop where
  msg_id : message.m_msg_id = request.m_msg_id
  err_code : message.m_err_code = 0
  err_info : message.m_err_info = []
  pb_data : answer m_service_map request = some message.m_pb_data

theorem Callable.answered_reply {request : TinyPBProtocol} (h : Callable m_service_map request) :
    Answered m_service_map request (received (reply m_service_map request)) := by
  obtain ⟨pb_data, hanswer⟩ := Option.isSome_iff_exists.mp h.answered
  have hreply := reply_of_answer hanswer
  constructor
  · simp [received, hreply]
  · simp [received, hreply]
  · exact h.back.no_err_info
  · simp [received, hreply, hanswer]

theorem wire_eq_nil {ms : List TinyPBProtocol} (h : ∀ m ∈ ms, RoundTrip m) (hnil : wire ms = []) :
    ms = [] := by
  cases ms with
  | nil => rfl
  | cons m ms =>
    have hlen := congrArg List.length hnil
    rw [wire_cons, List.length_append, (h m List.mem_cons_self).block_length] at hlen
    simp only [frameLen, List.length_nil] at hlen
    omega

theorem run_stands {es : List Op}
    (hrun : ((system (reply m_service_map)).restrict (Orderly m_service_map)).Run es s) :
    ∃ a, Retransmit.Kept a ∧ Stands m_service_map s a := by
  obtain ⟨fs, a, ha, hstands⟩ := hrun.refines (A := Retransmit.system TinyPBProtocol)
    (R := Stands m_service_map) (fun _ hs => ⟨{}, rfl, start_stands hs⟩)
    fun _ _ _ _ _ ha h hstep => step_stands h (Retransmit.run_kept ha) hstep.1 hstep.2
  exact ⟨a, Retransmit.run_kept ha, hstands⟩

theorem Stands.invoked_eq (h : Stands m_service_map s a) : s.invoked.map Prod.fst = a.done := by
  rw [h.invoked, List.map_map]
  exact List.map_id _

theorem Stands.sent_callable (h : Stands m_service_map s a) :
    ∀ r ∈ a.issued.take a.sent, Callable m_service_map r :=
  fun r hr => h.callable r (List.mem_of_mem_take hr)

theorem Stands.answered (h : Stands m_service_map s a) (hkept : Retransmit.Kept a)
    {c : TinyPBProtocol × TinyPBProtocol} (hc : c ∈ s.invoked) :
    c.1 ∈ s.requests ∧ Answered m_service_map c.1 c.2 := by
  rw [h.invoked] at hc
  obtain ⟨r, hr, rfl⟩ := List.mem_map.mp hc
  have hsent := hkept.answered r (hkept.done r hr)
  rw [h.requests]
  exact ⟨List.mem_of_mem_take hsent, (h.sent_callable r hsent).answered_reply⟩

theorem Stands.all_answered (h : Stands m_service_map s a) (hkept : Retransmit.Kept a)
    (hquiet : Quiet s) : ∀ request ∈ s.requests, request ∈ s.invoked.map Prod.fst := by
  obtain ⟨hclient, hserver, htoServer, htoClient⟩ := hquiet
  intro r hr
  rw [h.invoked_eq]
  rw [h.requests] at hr
  apply hkept.all_done _ hr
  refine ⟨?_, ?_, ?_, ?_⟩
  · rw [← h.asking, hclient]
  · rw [← h.answering, hserver]
  · apply wire_eq_nil fun r hr => (h.sent_callable r (hkept.requests r hr)).roundTrip
    rw [← h.toServer, htoServer]
  · have hreplies : a.replies.map (reply m_service_map) = [] := by
      apply wire_eq_nil
      · intro m hm
        obtain ⟨r, hr, rfl⟩ := List.mem_map.mp hm
        exact (h.sent_callable r (mem_replies hkept hr)).back
      · rw [← h.toClient, htoClient]
    exact List.map_eq_nil_iff.mp hreplies

/-- No callback is run twice, each gets the answer to its own request, and when
the session is quiet each has been run. -/
theorem exactly_once {es : List Op}
    (hrun : ((system (reply m_service_map)).restrict (Orderly m_service_map)).Run es s) :
    (s.invoked.map Prod.fst).Nodup ∧
    (∀ c ∈ s.invoked, c.1 ∈ s.requests ∧ Answered m_service_map c.1 c.2) ∧
    (Quiet s → ∀ request ∈ s.requests, request ∈ s.invoked.map Prod.fst) := by
  obtain ⟨a, hkept, hstands⟩ := run_stands hrun
  refine ⟨?_, fun c hc => hstands.answered hkept hc, hstands.all_answered hkept⟩
  rw [hstands.invoked_eq]
  exact hkept.once

/-! ## A request that is written twice -/

def echo : Service Bytes := RpcDispatcher.echo "Order"

def echoed : TinyPBProtocol → TinyPBProtocol := reply (registry [echo])

def twice : List Op :=
  [.call request, .clientWrite [.accepted 52], .clientWrite [.accepted 52],
    .serverRead [.bytes (wire [request, request])] 3, .serverWrite [.accepted 104],
    .clientRead [.bytes (wire [echoed request, echoed request])] 3]

def opened : Session where
  client := connected TinyPBProtocol .TcpConnectionByClient
  server := connected Unit .TcpConnectionByServer

theorem readsFrames_new {δ : Type} {c : TcpConnection δ} {ms : List TinyPBProtocol}
    (hbuffer : c.m_in_buffer = TcpBuffer.new 128) (hms : ∀ m ∈ ms, RoundTrip m)
    (hne : wire ms ≠ []) (hlen : (wire ms).length < 128) :
    c.ReadsFrames [.bytes (wire ms)] (ms.length + 1) ms := by
  have hgrow : TcpConnection.grow (TcpBuffer.new 128) = some (TcpBuffer.new 128) := by
    decide +kernel
  have hroom : ((wire ms).length : Int) < (TcpBuffer.new 128).writeAble := by
    simpa [TcpBuffer.writeAble, TcpBuffer.new] using hlen
  obtain ⟨b', hloop, -⟩ := TcpConnection.readLoop_partial hgrow (TcpBuffer.new_valid 128) hne
    hroom []
  rw [← hbuffer] at hloop hgrow
  have hout (out : TcpConnection.ReadLoop)
      (h : TcpConnection.readLoop [.bytes (wire ms)] c.m_in_buffer = some out) :
      out = ⟨false, b', wire ms⟩ :=
    Option.some.inj (h.symm.trans hloop)
  refine ⟨⟨_, hgrow, hne, ?_⟩, fun out h => ?_, fun out h => ?_, hms, Nat.lt_succ_self _⟩
  · rw [hbuffer]
    exact hroom
  · rw [hout out h]
  · rw [hout out h]

theorem clientWrite_orderly {n : Nat}
    (h : s.client.beforeWrite.map (·.m_out_buffer.readAble) = some (n : Int)) :
    Orderly m_service_map s (.clientWrite [.accepted n]) := by
  intro c hc
  rw [hc] at h
  exact TcpConnection.writesWhole_once (Option.some.inj h)

theorem twice_orderly : ∀ i (hi : i < twice.length) u,
    (twice.take i).foldlM (next echoed) opened = some u →
      Orderly (registry [echo]) u twice[i] := by
  intro i hi u hu
  have hi' : i < 6 := hi
  interval_cases i
  · obtain rfl := Option.some.inj hu
    exact ⟨⟨by decide +kernel, by decide +kernel, by decide +kernel⟩, by decide⟩
  · exact clientWrite_orderly
      (System.view_eq (·.client.beforeWrite.map (·.m_out_buffer.readAble)) (by decide +kernel) hu)
  · exact clientWrite_orderly
      (System.view_eq (·.client.beforeWrite.map (·.m_out_buffer.readAble)) (by decide +kernel) hu)
  · exact ⟨_, readsFrames_new (System.view_eq (·.server.m_in_buffer) (by decide +kernel) hu)
      (by decide +kernel) (by decide +kernel) (by decide +kernel)⟩
  · exact TcpConnection.writesWhole_once
      (System.view_eq (·.server.m_out_buffer.readAble) (by decide +kernel) hu)
  · exact ⟨_, readsFrames_new (System.view_eq (·.client.m_in_buffer) (by decide +kernel) hu)
      (by decide +kernel) (by decide +kernel) (by decide +kernel)⟩

theorem exactly_once_twice : ∃ s : Session,
    (s.Quiet ∧ s.requests = [request] ∧ s.invoked = [(request, received (echoed request))]) ∧
    (s.invoked.map Prod.fst).Nodup ∧
    (∀ c ∈ s.invoked, c.1 ∈ s.requests ∧ Answered (registry [echo]) c.1 c.2) ∧
    (Quiet s → ∀ request ∈ s.requests, request ∈ s.invoked.map Prod.fst) := by
  have hlast : (twice.foldlM (next echoed) opened).map (fun s =>
      (s.client.m_fd_event.out_event, s.server.m_fd_event.out_event, s.toServer, s.toClient)) =
      some (false, false, [], []) := by
    decide +kernel
  have hcalls : (twice.foldlM (next echoed) opened).map (fun s => (s.requests, s.invoked)) =
      some ([request], [(request, received (echoed request))]) := by
    decide +kernel
  obtain ⟨s, hs, hquiet⟩ := Option.map_eq_some_iff.mp hlast
  rw [hs] at hcalls
  simp only [Prod.mk.injEq] at hquiet
  obtain ⟨hrequests, hinvoked⟩ := Prod.mk.inj (Option.some.inj hcalls)
  exact ⟨s, ⟨hquiet, hrequests, hinvoked⟩,
    exactly_once (System.Run.of_allowed (fun _ _ _ h => h) rfl hs twice_orderly)⟩

end TinyRpc.Session
