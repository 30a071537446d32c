import TinyRpc.Connection.Frames
import TinyRpc.Lib.Retransmit
import TinyRpc.Rpc.Server

/-!
# A client and its server

The two connections of a client and its server, with the bytes between them.
Each call waits for its reply when it has been written, as `CallMethod` has it.
The callbacks of a call are named by its request.
-/

namespace TinyRpc

open Lib Coder

/-! ## The model -/

structure Session where
  client : TcpConnection TinyPBProtocol
  server : TcpConnection Unit
  /-- What the client was asked to send. -/
  requests : List TinyPBProtocol := []
  /-- The bytes that are written and not yet read. -/
  toServer : Bytes := []
  toClient : Bytes := []
  /-- The read callbacks that were run, with the messages that they were given. -/
  invoked : List (TinyPBProtocol × TinyPBProtocol) := []

namespace TcpConnection

variable {δ : Type}

/-- `onWrite` up to its callbacks, and the bytes that the socket gets. -/
def write (c : TcpConnection δ) (rts : List WriteResult) : Option (TcpConnection δ × Bytes) :=
  if c.m_state ≠ .Connected then some (c, [])
  else do
    let c ← c.beforeWrite
    let is_all_write ← c.writeLoop rts
    return (c.afterWrite is_all_write, c.written rts)

/-- `onRead`, with the callbacks that it runs. Its bytes come from the front of the stream. -/
def read (c : TcpConnection δ) (stream : Bytes) (rts : List ReadResult) (turns : Nat)
    (dispatch : TinyPBProtocol → TinyPBProtocol) :
    Option (TcpConnection δ × List (δ × TinyPBProtocol) × Bytes) := do
  let out ← c.onRead rts
  if out.got <+: stream then do
    let (c, calls) ← if out.excutes then out.conn.excute turns dispatch else some (out.conn, [])
    return (c, calls, stream.drop out.got.length)
  else none

end TcpConnection

namespace Session

/-- The callbacks of `writeMessage`, each with a `readMessage`. -/
def runWriteDones (c : TcpConnection TinyPBProtocol) : TcpConnection TinyPBProtocol :=
  (c.m_write_dones.foldl (fun c d => (c.pushReadMessage d.1.m_msg_id d.2).listenRead)
    c).clearWriteDones

inductive Op where
  | call (message : TinyPBProtocol)
  | clientWrite (rts : List WriteResult)
  | serverRead (rts : List ReadResult) (turns : Nat)
  | serverWrite (rts : List WriteResult)
  | clientRead (rts : List ReadResult) (turns : Nat)

def next (dispatch : TinyPBProtocol → TinyPBProtocol) (s : Session) : Op → Option Session
  | .call message => some { s with
      client := (s.client.pushSendMessage message message).listenWrite
      requests := s.requests ++ [message] }
  | .clientWrite rts => do
    let (client, l) ← s.client.write rts
    return { s with
      client := if s.client.m_state = .Connected then runWriteDones client else client
      toServer := s.toServer ++ l }
  | .serverRead rts turns => do
    let (server, _, toServer) ← s.server.read s.toServer rts turns dispatch
    return { s with server, toServer }
  | .serverWrite rts => do
    let (server, l) ← s.server.write rts
    return { s with server, toClient := s.toClient ++ l }
  | .clientRead rts turns => do
    let (client, calls, toClient) ← s.client.read s.toClient rts turns dispatch
    return { s with client, toClient, invoked := s.invoked ++ calls }

def connected (δ : Type) (type : TcpConnectionType) : TcpConnection δ :=
  (TcpConnection.new 128 type).setState .Connected

def system (dispatch : TinyPBProtocol → TinyPBProtocol) : System Session Op where
  start s := s = {
    client := connected TinyPBProtocol .TcpConnectionByClient
    server := connected Unit .TcpConnectionByServer }
  step s op t := s.next dispatch op = some t

/-! ## The calls -/

variable {μ : Type}

open RpcDispatcher

/-- What the service computes for a request. -/
def answer (m_service_map : Registry μ) (request : TinyPBProtocol) : Option Bytes :=
  match resolve m_service_map request.m_method_name with
  | .error _ => none
  | .ok (service, method) => do
    let req_msg ← service.ParseFromString method request.m_pb_data
    let (pb_data, ok) :=
      service.SerializePartialToString method (service.CallMethod method req_msg)
    if ok then some pb_data else none

def reply (m_service_map : Registry μ) (request : TinyPBProtocol) : TinyPBProtocol :=
  (dispatch m_service_map request {}).1

theorem reply_of_answer {m_service_map : Registry μ} {request : TinyPBProtocol} {pb_data : Bytes}
    (h : answer m_service_map request = some pb_data) :
    reply m_service_map request = {
      m_msg_id := request.m_msg_id
      m_method_name := request.m_method_name
      m_pb_data := pb_data } := by
  unfold answer at h
  unfold reply dispatch
  cases hres : resolve m_service_map request.m_method_name with
  | error e => simp [hres] at h
  | ok r =>
    obtain ⟨service, method⟩ := r
    simp only [hres] at h ⊢
    obtain ⟨req_msg, hparse, h⟩ := Option.bind_eq_some_iff.mp h
    obtain ⟨hok, h⟩ := Option.ite_none_right_eq_some.mp h
    simp only [hparse, hok, Option.some.inj h]
    rfl

/-- A request with an answer, both of which fit on the wire. -/
structure Callable (m_service_map : Registry μ) (request : TinyPBProtocol) : Prop where
  roundTrip : RoundTrip request
  answered : (answer m_service_map request).isSome
  back : RoundTrip (reply m_service_map request)

/-- What is asked of a run: fresh ids, whole frames in each read, and no
`write()` that takes a part of what it is given. -/
def Orderly (m_service_map : Registry μ) (s : Session) : Op → Prop
  | .call message =>
    Callable m_service_map message ∧ message.m_msg_id ∉ s.requests.map (·.m_msg_id)
  | .clientWrite rts => ∀ c, s.client.beforeWrite = some c → c.WritesWhole rts
  | .serverRead rts turns => ∃ ms, s.server.ReadsFrames rts turns ms
  | .serverWrite rts => s.server.WritesWhole rts
  | .clientRead rts turns => ∃ ms, s.client.ReadsFrames rts turns ms

/-! ## The callbacks that wait -/

variable {m_service_map : Registry μ}

def entry (request : TinyPBProtocol) : Bytes × TinyPBProtocol := (request.m_msg_id, request)

/-- The requests of one client have ids of their own. -/
def Distinct (requests : List TinyPBProtocol) : Prop :=
  ∀ r ∈ requests, ∀ r' ∈ requests, r.m_msg_id = r'.m_msg_id → r = r'

theorem find_entry {requests l : List TinyPBProtocol} (hids : Distinct requests)
    (hl : ∀ r ∈ l, r ∈ requests) {r : TinyPBProtocol} (hr : r ∈ requests) :
    (l.map entry).find? (fun d => d.1 = r.m_msg_id) = if r ∈ l then some (entry r) else none := by
  induction l with
  | nil => simp
  | cons r' l ih =>
    rw [List.map_cons, List.find?_cons]
    by_cases hid : r'.m_msg_id = r.m_msg_id
    · obtain rfl := hids r' (hl r' List.mem_cons_self) r hr hid
      simp [entry]
    · have hne : r ≠ r' := fun h => hid (h ▸ rfl)
      have hih := ih fun x hx => hl x (List.mem_cons_of_mem _ hx)
      simp [entry, hid, hih, hne]

theorem filter_entry {requests l : List TinyPBProtocol} (hids : Distinct requests)
    (hl : ∀ r ∈ l, r ∈ requests) {r : TinyPBProtocol} (hr : r ∈ requests) :
    (l.map entry).filter (fun d => d.1 ≠ r.m_msg_id) = (l.filter (· ≠ r)).map entry := by
  rw [List.filter_map]
  congr 1
  apply List.filter_congr
  intro r' hr'
  simp only [entry, Function.comp_apply]
  apply decide_eq_decide.mpr
  constructor
  · rintro hne rfl
    exact hne rfl
  · intro hne hid
    exact hne (hids r' (hl r' hr') r hr hid)

def waiting (requests done : List TinyPBProtocol) : List (Bytes × TinyPBProtocol) :=
  (requests.filter (· ∉ done)).map entry

theorem takeReadDones_replies {requests done now : List TinyPBProtocol} (hids : Distinct requests)
    (hnow : ∀ r ∈ now, r ∈ requests) :
    ∃ calls, TcpConnection.takeReadDones
        (now.map fun r => received (reply m_service_map r)) (waiting requests done) =
          (calls, waiting requests (Retransmit.finished done now)) ∧
      (done.map fun r => (r, received (reply m_service_map r))) ++ calls =
        (Retransmit.finished done now).map fun r => (r, received (reply m_service_map r)) := by
  induction now generalizing done with
  | nil => exact ⟨[], rfl, by simp [Retransmit.finished]⟩
  | cons r now ih =>
    have hr := hnow r List.mem_cons_self
    have hid : (received (reply m_service_map r)).m_msg_id = r.m_msg_id :=
      (dispatch_answers m_service_map r {}).msg_id
    have hsub : ∀ x ∈ requests.filter (· ∉ done), x ∈ requests :=
      fun x hx => List.mem_of_mem_filter hx
    have hfind := find_entry hids hsub hr
    rw [← hid] at hfind
    obtain ⟨calls, hcalls, hdone⟩ := @ih (Retransmit.finished done [r])
      fun x hx => hnow x (List.mem_cons_of_mem _ hx)
    have hfinished : Retransmit.finished (Retransmit.finished done [r]) now =
        Retransmit.finished done (r :: now) := rfl
    rw [hfinished] at hcalls hdone
    unfold waiting at hcalls ⊢
    rw [List.map_cons, TcpConnection.takeReadDones]
    -- A reply that comes again finds no callback, as no other call has its id.
    by_cases hmem : r ∈ done
    · have hstay : Retransmit.finished done [r] = done := by simp [Retransmit.finished, hmem]
      rw [hstay] at hcalls hdone
      simp only [hfind, List.mem_filter, hmem]
      exact ⟨calls, by simpa using hcalls, hdone⟩
    · have hgrow : Retransmit.finished done [r] = done ++ [r] := by
        simp [Retransmit.finished, hmem]
      have hfilter := filter_entry hids hsub hr
      rw [← hid, List.filter_filter] at hfilter
      rw [hgrow] at hcalls hdone
      refine ⟨(r, received (reply m_service_map r)) :: calls, ?_, by simpa using hdone⟩
      have hin : r ∈ requests.filter (· ∉ done) := by simp [hr, hmem]
      have hrest : (requests.filter fun x => decide (x ≠ r) && decide (x ∉ done)) =
          requests.filter (· ∉ done ++ [r]) := by
        apply List.filter_congr
        intro x _
        simp [and_comm]
      rw [hrest] at hfilter
      simp only [hfind, hin, if_true, hfilter, hcalls]
      rfl

/-! ## What a write does -/

theorem write_client {c c' : TcpConnection TinyPBProtocol} {l : Bytes} {rts : List WriteResult}
    (hstate : c.m_state = .Connected) (htype : c.m_connection_type = .TcpConnectionByClient)
    (hv : c.m_out_buffer.Valid) (hwhole : ∀ c1, c.beforeWrite = some c1 → c1.WritesWhole rts)
    (h : c.write rts = some (c', l)) :
    ∃ (is_all_write : Bool) (m_out_buffer : TcpBuffer), m_out_buffer.Valid ∧
      m_out_buffer.readable = c.m_out_buffer.readable ++ wire (c.m_write_dones.map Prod.fst) ∧
      l = (if is_all_write then m_out_buffer.readable else []) ∧
      c' = { c with
        m_out_buffer
        m_write_dones := c.m_write_dones.map fun d => ((encodeTinyPB d.1).msg, d.2)
        m_fd_event := { c.m_fd_event with
          out_event := c.m_fd_event.out_event && !is_all_write } } := by
  unfold TcpConnection.write at h
  rw [if_neg (by simp [hstate])] at h
  obtain ⟨c1, hbefore, h⟩ := Option.bind_eq_some_iff.mp h
  obtain ⟨is_all_write, hloop, h⟩ := Option.bind_eq_some_iff.mp h
  obtain ⟨rfl, rfl⟩ := Prod.mk.inj (Option.some.inj h)
  have hc1 := hwhole c1 hbefore
  obtain ⟨hserver, -⟩ | ⟨-, sent, m_out_buffer, henc, rfl⟩ := TcpConnection.beforeWrite_cases hbefore
  · rw [htype] at hserver
    simp at hserver
  obtain ⟨out, hout, hv', hread⟩ := encode_spec (c.m_write_dones.map Prod.fst) hv
  obtain ⟨rfl, rfl⟩ := Prod.mk.inj (Option.some.inj (hout.symm.trans henc))
  refine ⟨is_all_write, out, hv', hread, hc1.written_eq hv' hloop, ?_⟩
  rw [List.map_map, List.zip_map']
  cases is_all_write <;> simp [TcpConnection.afterWrite]

theorem write_server {c c' : TcpConnection Unit} {l : Bytes} {rts : List WriteResult}
    (hstate : c.m_state = .Connected) (htype : c.m_connection_type = .TcpConnectionByServer)
    (hv : c.m_out_buffer.Valid) (hwhole : c.WritesWhole rts) (h : c.write rts = some (c', l)) :
    ∃ is_all_write : Bool, l = (if is_all_write then c.m_out_buffer.readable else []) ∧
      c' = { c with m_fd_event := { c.m_fd_event with
        out_event := c.m_fd_event.out_event && !is_all_write } } := by
  unfold TcpConnection.write at h
  rw [if_neg (by simp [hstate])] at h
  simp only [TcpConnection.beforeWrite, htype, Option.bind_eq_bind, Option.bind_some] at h
  obtain ⟨is_all_write, hloop, h⟩ := Option.bind_eq_some_iff.mp h
  obtain ⟨rfl, rfl⟩ := Prod.mk.inj (Option.some.inj h)
  refine ⟨is_all_write, hwhole.written_eq hv hloop, ?_⟩
  cases is_all_write <;> simp [TcpConnection.afterWrite]

theorem pushReadMessages {requests : List TinyPBProtocol} {c : TcpConnection TinyPBProtocol}
    (hmsgs : ∀ r ∈ requests, RoundTrip r)
    (hids : (c.m_read_dones.map Prod.fst ++ requests.map (·.m_msg_id)).Nodup) :
    (requests.map fun r => ((encodeTinyPB r).msg, r)).foldl
      (fun c d => (c.pushReadMessage d.1.m_msg_id d.2).listenRead) c = { c with
        m_read_dones := c.m_read_dones ++ requests.map entry
        m_fd_event := { c.m_fd_event with
          in_event := c.m_fd_event.in_event || !requests.isEmpty } } := by
  induction requests generalizing c with
  | nil => simp
  | cons r requests ih =>
    have hid : (encodeTinyPB r).msg.m_msg_id = r.m_msg_id := (hmsgs r List.mem_cons_self).sentId_eq
    have hnew : r.m_msg_id ∉ c.m_read_dones.map Prod.fst := by
      rw [List.map_cons, List.nodup_append] at hids
      exact fun hmem => hids.2.2 _ hmem _ List.mem_cons_self rfl
    have hpush : (c.pushReadMessage r.m_msg_id r).listenRead = { c with
        m_read_dones := c.m_read_dones ++ [entry r]
        m_fd_event := { c.m_fd_event with in_event := true } } := by
      unfold TcpConnection.pushReadMessage
      rw [if_neg hnew]
      rfl
    rw [List.map_cons, List.foldl_cons, hid, hpush, ih]
    · simp
    · exact fun x hx => hmsgs x (List.mem_cons_of_mem _ hx)
    · simpa [entry] using hids

theorem runWriteDones_eq {c : TcpConnection TinyPBProtocol} {requests : List TinyPBProtocol}
    (htype : c.m_connection_type = .TcpConnectionByClient)
    (hdones : c.m_write_dones = requests.map fun r => ((encodeTinyPB r).msg, r))
    (hmsgs : ∀ r ∈ requests, RoundTrip r)
    (hids : (c.m_read_dones.map Prod.fst ++ requests.map (·.m_msg_id)).Nodup) :
    runWriteDones c = { c with
      m_write_dones := []
      m_read_dones := c.m_read_dones ++ requests.map entry
      m_fd_event := { c.m_fd_event with
        in_event := c.m_fd_event.in_event || !requests.isEmpty } } := by
  unfold runWriteDones
  rw [hdones, pushReadMessages hmsgs hids]
  simp [TcpConnection.clearWriteDones, htype]

/-! ## What a read does -/

section Reads

variable {δ : Type} {c c' : TcpConnection δ} {stream rest : Bytes} {rts : List ReadResult}
  {turns : Nat} {dispatch : TinyPBProtocol → TinyPBProtocol} {calls : List (δ × TinyPBProtocol)}
  {ms : List TinyPBProtocol}

theorem read_excute (hstate : c.m_state = .Connected) (hready : c.m_in_buffer.Ready)
    (hempty : c.m_in_buffer.readable = []) (hreads : c.ReadsFrames rts turns ms)
    (h : c.read stream rts turns dispatch = some (c', calls, rest)) :
    ∃ b b', stream = wire ms ++ rest ∧ b'.Ready ∧ b'.readable = [] ∧
      (decode turns b).val = some (ms.map received, b') ∧
      { c with m_in_buffer := b : TcpConnection δ }.excute turns dispatch = some (c', calls) := by
  obtain ⟨b, b', hon, hdec, hready', hempty'⟩ := hreads.onRead hstate hready hempty
  unfold TcpConnection.read at h
  simp only [hon, Option.bind_eq_bind, Option.bind_some, if_true] at h
  obtain ⟨⟨rest', hrest'⟩, h⟩ := Option.ite_none_right_eq_some.mp h
  obtain ⟨⟨c1, calls1⟩, hexc, h⟩ := Option.bind_eq_some_iff.mp h
  obtain ⟨rfl, hpair⟩ := Prod.mk.inj (Option.some.inj h)
  obtain ⟨rfl, rfl⟩ := Prod.mk.inj hpair
  refine ⟨b, b', ?_, hready', hempty', hdec, hexc⟩
  rw [← hrest', List.drop_left]

theorem read_server (hstate : c.m_state = .Connected)
    (htype : c.m_connection_type = .TcpConnectionByServer) (hready : c.m_in_buffer.Ready)
    (hempty : c.m_in_buffer.readable = []) (hv : c.m_out_buffer.Valid)
    (hreads : c.ReadsFrames rts turns ms)
    (h : c.read stream rts turns dispatch = some (c', calls, rest)) :
    ∃ m_in_buffer m_out_buffer, stream = wire ms ++ rest ∧ m_in_buffer.Ready ∧
      m_in_buffer.readable = [] ∧ m_out_buffer.Valid ∧
      m_out_buffer.readable = c.m_out_buffer.readable ++ wire ((ms.map received).map dispatch) ∧
      c' = { c with
        m_in_buffer, m_out_buffer, m_fd_event := { c.m_fd_event with out_event := true } } := by
  obtain ⟨b, b', hstream, hready', hempty', hdec, hexc⟩ :=
    read_excute hstate hready hempty hreads h
  obtain ⟨result, m_in_buffer, hresult, hcases⟩ := TcpConnection.excute_cases hexc
  obtain ⟨rfl, rfl⟩ := Prod.mk.inj (Option.some.inj (hdec.symm.trans hresult))
  obtain ⟨-, -, sent, m_out_buffer, henc, rfl⟩ | ⟨hclient, -⟩ := hcases
  · obtain ⟨hv', hread⟩ := Writer.encode_out henc hv
    exact ⟨b', m_out_buffer, hstream, hready', hempty', hv', hread, rfl⟩
  · simp [htype] at hclient

theorem read_client (hstate : c.m_state = .Connected)
    (htype : c.m_connection_type = .TcpConnectionByClient) (hready : c.m_in_buffer.Ready)
    (hempty : c.m_in_buffer.readable = []) (hreads : c.ReadsFrames rts turns ms)
    (h : c.read stream rts turns dispatch = some (c', calls, rest)) :
    ∃ m_in_buffer, stream = wire ms ++ rest ∧ m_in_buffer.Ready ∧ m_in_buffer.readable = [] ∧
      calls = (TcpConnection.takeReadDones (ms.map received) c.m_read_dones).1 ∧
      c' = { c with
        m_in_buffer
        m_read_dones := (TcpConnection.takeReadDones (ms.map received) c.m_read_dones).2 } := by
  obtain ⟨b, b', hstream, hready', hempty', hdec, hexc⟩ :=
    read_excute hstate hready hempty hreads h
  obtain ⟨result, m_in_buffer, hresult, hcases⟩ := TcpConnection.excute_cases hexc
  obtain ⟨rfl, rfl⟩ := Prod.mk.inj (Option.some.inj (hdec.symm.trans hresult))
  obtain ⟨hserver, -⟩ | ⟨-, hcalls, rfl⟩ := hcases
  · simp [htype] at hserver
  · exact ⟨b', hstream, hready', hempty', hcalls, rfl⟩

end Reads

end Session

end TinyRpc
