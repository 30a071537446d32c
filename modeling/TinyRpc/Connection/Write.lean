import TinyRpc.Connection.Spec
import TinyRpc.Lib.Runs

/-!
# The stream that a connection writes

Replies and requests are appended to the output buffer, and `onWrite` gives
its readable region to `write()`. Nothing moves the read index of that buffer.
-/

namespace TinyRpc

open Lib Coder

/-! ## The steps -/

inductive Phase where
  | idle | writing | callbacks
  deriving DecidableEq

/-- A connection, the bytes that its socket has accepted, and the encodings
that were appended to its output buffer. -/
structure Writer (δ : Type) where
  conn : TcpConnection δ
  phase : Phase := .idle
  accepted : Bytes := []
  appended : Bytes := []

inductive Writer.Event (δ : Type) where
  | receive (m_in_buffer : TcpBuffer)
  | excute (turns : Nat) (dispatch : TinyPBProtocol → TinyPBProtocol)
  | pushSendMessage (message : TinyPBProtocol) (done : δ)
  | pushReadMessage (req_id : Bytes) (done : δ)
  | setState (state : TcpState)
  | clear
  | shutDown
  | onWrite
  | wrote (rt : WriteResult)
  | ran

def WriteResult.count : WriteResult → Nat
  | .accepted n => n
  | .again => 0
  | .error => 0

def Writer.Event.count {δ : Type} : Event δ → Nat
  | .wrote rt => rt.count
  | _ => 0

namespace TcpConnection

variable {δ : Type}

def replies (c : TcpConnection δ) (turns : Nat) (dispatch : TinyPBProtocol → TinyPBProtocol) :
    List TinyPBProtocol :=
  match c.m_connection_type, c.result turns with
  | .TcpConnectionByServer, some r => r.1.map dispatch
  | _, _ => []

def waiting (c : TcpConnection δ) : List TinyPBProtocol :=
  match c.m_connection_type with
  | .TcpConnectionByServer => []
  | .TcpConnectionByClient => c.m_write_dones.map Prod.fst

end TcpConnection

namespace Writer

variable {δ : Type}

def leave (s : Writer δ) (is_all_write : Bool) : Writer δ :=
  { s with conn := s.conn.afterWrite is_all_write, phase := .callbacks }

def loop (s : Writer δ) : Writer δ :=
  if s.conn.m_out_buffer.readAble = 0 then s.leave true else { s with phase := .writing }

/-- A call on the connection, from the event loop or from a callback. -/
def call (s : Writer δ) (f : TcpConnection δ → TcpConnection δ) : Option (Writer δ) :=
  if s.phase = .writing then none else some { s with conn := f s.conn }

/-- One event. There is no next state when the event cannot happen here. -/
def next (s : Writer δ) : Event δ → Option (Writer δ)
  | .receive m_in_buffer => s.call fun c => { c with m_in_buffer }
  | .excute turns dispatch =>
    if s.phase = .idle then do
      let (conn, _) ← s.conn.excute turns dispatch
      return { s with conn, appended := s.appended ++ wire (s.conn.replies turns dispatch) }
    else none
  | .pushSendMessage message done => s.call fun c => c.pushSendMessage message done
  | .pushReadMessage req_id done => s.call fun c => c.pushReadMessage req_id done
  | .setState state => s.call fun c => c.setState state
  | .clear => s.call TcpConnection.clear
  | .shutDown => s.call TcpConnection.shutDown
  | .onWrite =>
    if s.phase ≠ .idle then none
    else if s.conn.m_state ≠ .Connected then some s
    else do
      let conn ← s.conn.beforeWrite
      return loop { s with conn, appended := s.appended ++ wire s.conn.waiting }
  | .wrote rt =>
    if s.phase ≠ .writing ∨ rt.count > s.conn.m_out_buffer.readAble then none
    else
      let s' := { s with accepted := s.accepted ++ s.conn.m_out_buffer.readable.take rt.count }
      match s.conn.writeTurn rt with
      | some is_all_write => some (s'.leave is_all_write)
      | none => some s'.loop
  | .ran =>
    if s.phase = .callbacks then some { s with conn := s.conn.clearWriteDones, phase := .idle }
    else none

def system : System (Writer δ) (Event δ) where
  start s := s.conn.m_out_buffer.Valid ∧ s.conn.m_out_buffer.readable = [] ∧ s.phase = .idle ∧
    s.accepted = [] ∧ s.appended = []
  step s e t := s.next e = some t

/-! ## What a step does to the stream -/

/-- The encodings of `ms` go to the end of the output buffer, and `n` more bytes are accepted. -/
structure Appends (s t : Writer δ) (ms : List TinyPBProtocol) (n : Nat) : Prop where
  valid : t.conn.m_out_buffer.Valid
  readable : t.conn.m_out_buffer.readable = s.conn.m_out_buffer.readable ++ wire ms
  appended : t.appended = s.appended ++ wire ms
  accepted : t.accepted.length = s.accepted.length + n

theorem appends_nothing {s t : Writer δ} (hv : s.conn.m_out_buffer.Valid)
    (hout : t.conn.m_out_buffer = s.conn.m_out_buffer) (happ : t.appended = s.appended)
    (hacc : t.accepted = s.accepted) : Appends s t [] 0 := by
  constructor
  · rw [hout]; exact hv
  · rw [hout, wire_nil, List.append_nil]
  · rw [happ, wire_nil, List.append_nil]
  · rw [hacc, Nat.add_zero]

theorem call_appends {s t : Writer δ} (hv : s.conn.m_out_buffer.Valid)
    {f : TcpConnection δ → TcpConnection δ} (hf : (f s.conn).m_out_buffer = s.conn.m_out_buffer)
    (h : s.call f = some t) : Appends s t [] 0 := by
  unfold call at h
  split at h
  · cases h
  · cases h
    exact appends_nothing hv hf rfl rfl

@[simp] theorem afterWrite_out (c : TcpConnection δ) (is_all_write : Bool) :
    (c.afterWrite is_all_write).m_out_buffer = c.m_out_buffer := by
  unfold TcpConnection.afterWrite
  split <;> rfl

@[simp] theorem leave_out (s : Writer δ) (is_all_write : Bool) :
    (s.leave is_all_write).conn.m_out_buffer = s.conn.m_out_buffer :=
  afterWrite_out s.conn is_all_write

@[simp] theorem leave_stream (s : Writer δ) (is_all_write : Bool) :
    (s.leave is_all_write).appended = s.appended ∧
      (s.leave is_all_write).accepted = s.accepted := ⟨rfl, rfl⟩

@[simp] theorem loop_out (s : Writer δ) : s.loop.conn.m_out_buffer = s.conn.m_out_buffer := by
  unfold loop
  split
  · exact leave_out s true
  · rfl

@[simp] theorem loop_stream (s : Writer δ) :
    s.loop.appended = s.appended ∧ s.loop.accepted = s.accepted := by
  unfold loop
  split <;> exact ⟨rfl, rfl⟩

theorem encode_out {out out' : TcpBuffer} {ms sent : List TinyPBProtocol}
    (h : encode ms out = some (sent, out')) (hv : out.Valid) :
    out'.Valid ∧ out'.readable = out.readable ++ wire ms := by
  obtain ⟨out1, henc, hv', hread⟩ := encode_spec ms hv
  rw [henc] at h
  cases h
  exact ⟨hv', hread⟩

theorem excute_out {c c' : TcpConnection δ} (hv : c.m_out_buffer.Valid) {turns : Nat}
    {dispatch : TinyPBProtocol → TinyPBProtocol} {calls : List (δ × TinyPBProtocol)}
    (h : c.excute turns dispatch = some (c', calls)) :
    c'.m_out_buffer.Valid ∧
      c'.m_out_buffer.readable = c.m_out_buffer.readable ++ wire (c.replies turns dispatch) := by
  obtain ⟨result, m_in_buffer, hres, hcases⟩ := TcpConnection.excute_cases h
  unfold TcpConnection.replies
  rcases hcases with ⟨htype, -, sent, m_out_buffer, henc, rfl⟩ | ⟨htype, -, rfl⟩
  · rw [htype, hres]
    exact encode_out henc hv
  · rw [htype, wire_nil, List.append_nil]
    exact ⟨hv, rfl⟩

theorem beforeWrite_out {c c' : TcpConnection δ} (hv : c.m_out_buffer.Valid)
    (h : c.beforeWrite = some c') :
    c'.m_out_buffer.Valid ∧
      c'.m_out_buffer.readable = c.m_out_buffer.readable ++ wire c.waiting := by
  unfold TcpConnection.waiting
  rcases TcpConnection.beforeWrite_cases h with ⟨htype, rfl⟩ | ⟨htype, sent, m_out_buffer, henc, rfl⟩
  · rw [htype, wire_nil, List.append_nil]
    exact ⟨hv, rfl⟩
  · rw [htype]
    exact encode_out henc hv

theorem next_excute {s t : Writer δ} {turns : Nat} {dispatch : TinyPBProtocol → TinyPBProtocol}
    (h : s.next (.excute turns dispatch) = some t) :
    ∃ conn calls, s.conn.excute turns dispatch = some (conn, calls) ∧
      t = { s with conn, appended := s.appended ++ wire (s.conn.replies turns dispatch) } := by
  obtain ⟨-, h⟩ := Option.ite_none_right_eq_some.mp h
  simp only [Option.bind_eq_bind, Option.bind_eq_some_iff] at h
  obtain ⟨⟨conn, calls⟩, hexc, h⟩ := h
  exact ⟨conn, calls, hexc, (Option.some.inj h).symm⟩

theorem excute_appends {s t : Writer δ} (hv : s.conn.m_out_buffer.Valid) {turns : Nat}
    {dispatch : TinyPBProtocol → TinyPBProtocol} (h : s.next (.excute turns dispatch) = some t) :
    Appends s t (s.conn.replies turns dispatch) 0 := by
  obtain ⟨conn, calls, hexc, rfl⟩ := next_excute h
  obtain ⟨hv', hread⟩ := excute_out hv hexc
  exact ⟨hv', hread, rfl, rfl⟩

theorem onWrite_appends {s t : Writer δ} (hv : s.conn.m_out_buffer.Valid)
    (h : s.next .onWrite = some t) : ∃ ms, Appends s t ms 0 := by
  unfold next at h
  simp only at h
  split at h
  · cases h
  · split at h
    · cases h
      exact ⟨[], appends_nothing hv rfl rfl rfl⟩
    · simp only [Option.bind_eq_bind, Option.bind_eq_some_iff] at h
      obtain ⟨conn, hconn, h⟩ := h
      cases h
      obtain ⟨hv', hread⟩ := beforeWrite_out hv hconn
      refine ⟨s.conn.waiting, ⟨?_, ?_, ?_, ?_⟩⟩
      · rw [loop_out]; exact hv'
      · rw [loop_out]; exact hread
      · rw [(loop_stream _).1]
      · rw [(loop_stream _).2]; rfl

theorem wrote_appends {s t : Writer δ} (hv : s.conn.m_out_buffer.Valid) {rt : WriteResult}
    (h : s.next (.wrote rt) = some t) : Appends s t [] rt.count := by
  unfold next at h
  simp only at h
  split at h
  · cases h
  · rename_i hcount
    have hlen : (s.conn.m_out_buffer.readable.take rt.count).length = rt.count := by
      rw [not_or, TcpBuffer.readAble_eq hv] at hcount
      rw [List.length_take]
      omega
    split at h
    · cases h
      constructor
      · rw [leave_out]; exact hv
      · rw [leave_out, wire_nil, List.append_nil]
      · rw [wire_nil, List.append_nil]; rfl
      · rw [(leave_stream _ _).2, List.length_append, hlen]
    · cases h
      constructor
      · rw [loop_out]; exact hv
      · rw [loop_out, wire_nil, List.append_nil]
      · rw [(loop_stream _).1, wire_nil, List.append_nil]
      · rw [(loop_stream _).2, List.length_append, hlen]

theorem ran_appends {s t : Writer δ} (hv : s.conn.m_out_buffer.Valid) (h : s.next .ran = some t) :
    Appends s t [] 0 := by
  unfold next at h
  simp only at h
  split at h
  · cases h
    refine appends_nothing hv ?_ rfl rfl
    unfold TcpConnection.clearWriteDones
    split <;> rfl
  · cases h

theorem next_appends {s t : Writer δ} (hv : s.conn.m_out_buffer.Valid) {e : Event δ}
    (h : s.next e = some t) : ∃ ms, Appends s t ms e.count := by
  have hcall := h
  unfold next at hcall
  cases e with
  | receive => exact ⟨[], call_appends hv rfl hcall⟩
  | excute turns dispatch => exact ⟨_, excute_appends hv h⟩
  | pushSendMessage => exact ⟨[], call_appends hv rfl hcall⟩
  | pushReadMessage =>
    exact ⟨[], call_appends hv (TcpConnection.pushReadMessage_sameSending _ _ _).out hcall⟩
  | setState => exact ⟨[], call_appends hv rfl hcall⟩
  | clear => exact ⟨[], call_appends hv (TcpConnection.clear_sameSending _).out hcall⟩
  | shutDown => exact ⟨[], call_appends hv (TcpConnection.shutDown_sameSending _).out hcall⟩
  | onWrite => exact onWrite_appends hv h
  | wrote rt => exact ⟨[], wrote_appends hv h⟩
  | ran => exact ⟨[], ran_appends hv h⟩

/-! ## Every run -/

/-- The output buffer still holds all that was ever appended to it. -/
structure Unsent (s : Writer δ) : Prop where
  valid : s.conn.m_out_buffer.Valid
  readable : s.conn.m_out_buffer.readable = s.appended

theorem Unsent.next {s t : Writer δ} (h : Unsent s) {e : Event δ} (hstep : s.next e = some t) :
    Unsent t := by
  obtain ⟨ms, h'⟩ := next_appends h.valid hstep
  exact ⟨h'.valid, by rw [h'.readable, h'.appended, h.readable]⟩

theorem unsent_run {es : List (Event δ)} {s : Writer δ} (hrun : system.Run es s) : Unsent s := by
  refine hrun.invariant ?_ fun _ _ _ h hstep => h.next hstep
  rintro s ⟨hv, hread, -, -, happ⟩
  exact ⟨hv, by rw [hread, happ]⟩

theorem accepted_nil_iff {es : List (Event δ)} {s : Writer δ} (hrun : system.Run es s) :
    s.accepted = [] ↔ ∀ e ∈ es, e.count = 0 := by
  induction hrun with
  | start h => simp [h.2.2.2.1]
  | step hrun h ih =>
    obtain ⟨ms, h'⟩ := next_appends (unsent_run hrun).valid h
    have hlen := h'.accepted
    simp only [List.mem_append, List.mem_singleton, or_imp, forall_and, forall_eq, ← ih,
      ← List.length_eq_zero_iff]
    omega

/-- The socket has accepted a prefix of the encodings, and the output buffer
holds the rest of them. -/
def InOrder (s : Writer δ) : Prop := s.appended = s.accepted ++ s.conn.m_out_buffer.readable

/-- The stream of a run is in order exactly as long as no `write()` has accepted a byte. -/
theorem inOrder_iff (es : List (Event δ)) (s : Writer δ) (hrun : system.Run es s) :
    InOrder s ↔ ∀ e ∈ es, e.count = 0 := by
  rw [← accepted_nil_iff hrun, InOrder, (unsent_run hrun).readable]
  constructor
  · intro h
    exact List.append_left_eq_self.mp h.symm
  · intro h
    rw [h, List.nil_append]

def client : Writer Unit where
  conn := TcpConnection.new 128 .TcpConnectionByClient

theorem client_start : system.start client :=
  ⟨TcpBuffer.new_valid _, TcpBuffer.new_readable _, rfl, rfl, rfl⟩

def sending (rts : List WriteResult) : List (Event Unit) :=
  [.setState .Connected, .pushSendMessage request (), .onWrite] ++ rts.map .wrote

theorem inOrder_iff_sending :
    ∃ s, system.Run (sending [.error, .again]) s ∧
      (InOrder s ↔ ∀ e ∈ sending [.error, .again], e.count = 0) := by
  have hsome : ((sending [.error, .again]).foldlM next client).isSome := by decide +kernel
  obtain ⟨s, hs⟩ := Option.isSome_iff_exists.mp hsome
  have hrun : system.Run _ s := System.Run.of_next (fun _ _ _ h => h) client_start hs
  exact ⟨s, hrun, inOrder_iff _ s hrun⟩

theorem sending_repeats :
    ∃ s, system.Run (sending [.accepted 10, .accepted 52]) s ∧ s.appended = wire [request] ∧
      s.accepted = (wire [request]).take 10 ++ wire [request] ∧ ¬ InOrder s := by
  have hlast : ((sending [.accepted 10, .accepted 52]).foldlM next client).map
      (fun s => (s.appended, s.accepted)) =
      some (wire [request], (wire [request]).take 10 ++ wire [request]) := by decide +kernel
  obtain ⟨s, hs, hstream⟩ := Option.map_eq_some_iff.mp hlast
  obtain ⟨happ, hacc⟩ := Prod.mk.inj hstream
  refine ⟨s, System.Run.of_next (fun _ _ _ h => h) client_start hs, happ, hacc, fun h => ?_⟩
  have hlen := congrArg List.length h
  have hwire : (wire [request]).length = 52 := by decide +kernel
  rw [happ, hacc] at hlen
  simp only [List.length_append, List.length_take, hwire] at hlen
  omega

end Writer

end TinyRpc
