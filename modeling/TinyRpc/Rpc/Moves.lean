import TinyRpc.Rpc.Completion

/-!
# The moves of a call

What an event makes of a call, as one case analysis of `next`. The connect of
a call ends once.
-/

namespace TinyRpc

open Lib Coder

namespace RpcChannel

variable {ι κ τ μ : Type} {ParseFromString : Bytes → μ × Bool}

/-! ## The connect -/

/-- What a connect that has failed leaves behind: the request is with a
connection that is never connected. -/
structure Stranded (c : RpcChannel ι κ τ μ) : Prop where
  code : c.m_client.m_connect_errcode = ERROR_PEER_CLOSE ∨
    c.m_client.m_connect_errcode = ERROR_FAILED_CONNECT
  ended : c.m_client.connecting = false
  state : c.m_client.m_connection.m_state ≠ .Connected
  request : c.m_client.m_connection.m_write_dones = [(c.req_protocol, .written)]
  listens : c.m_client.m_connection.m_state = .Closed ∨
    c.m_client.m_connection.m_fd_event.out_event = true

structure Attempt (c : RpcChannel ι κ τ μ) : Prop where
  connecting : c.m_client.connecting = true →
    c.m_client.m_connect_errcode = 0 ∧ c.m_client.m_connection.m_state ≠ .Connected
  failed : c.m_client.m_connect_errcode ≠ 0 → Stranded c

theorem Attempt.of_same {c t : RpcChannel ι κ τ μ} (ha : Attempt c)
    (hconn : t.m_client.connecting = c.m_client.connecting)
    (herr : t.m_client.m_connect_errcode = c.m_client.m_connect_errcode)
    (hreq : t.req_protocol = c.req_protocol)
    (hwrites : t.m_client.m_connection.m_write_dones = c.m_client.m_connection.m_write_dones)
    (hstate : t.m_client.m_connection.m_state = .Closed ∨
      t.m_client.m_connection.m_state = c.m_client.m_connection.m_state ∧
        t.m_client.m_connection.m_fd_event = c.m_client.m_connection.m_fd_event) : Attempt t := by
  have hopen (h : c.m_client.m_connection.m_state ≠ .Connected) :
      t.m_client.m_connection.m_state ≠ .Connected := by
    rcases hstate with hclosed | ⟨hsame, -⟩
    · rw [hclosed]
      decide
    · rw [hsame]
      exact h
  constructor
  · intro h
    rw [hconn] at h
    rw [herr]
    exact ⟨(ha.connecting h).1, hopen (ha.connecting h).2⟩
  · intro h
    rw [herr] at h
    have hc := ha.failed h
    refine ⟨?_, hconn.trans hc.ended, hopen hc.state, ?_, ?_⟩
    · rw [herr]
      exact hc.code
    · rw [hwrites, hreq]
      exact hc.request
    · rcases hstate with hclosed | ⟨hsame, hfd⟩
      · exact Or.inl hclosed
      · rw [hsame, hfd]
        exact hc.listens

variable [DecidableEq κ]

/-! ## The callbacks -/

theorem connectDone_eq (c : RpcChannel ι κ τ μ) :
    c.connectDone =
      { c with
        controllers :=
          if c.m_client.m_connect_errcode ≠ 0 then
            Function.update c.controllers c.m_controller
              ((c.controllers c.m_controller).SetError c.m_client.m_connect_errcode
                c.m_client.m_connect_error_info)
          else c.controllers
        m_client := c.m_client.writeMessage c.req_protocol .written } := by
  unfold connectDone
  split <;> rfl

theorem connectDone_attempt {c : RpcChannel ι κ τ μ} (hended : c.m_client.connecting = false)
    (hwrites : c.m_client.m_connection.m_write_dones = [])
    (hfailed : c.m_client.m_connect_errcode ≠ 0 →
      (c.m_client.m_connect_errcode = ERROR_PEER_CLOSE ∨
        c.m_client.m_connect_errcode = ERROR_FAILED_CONNECT) ∧
      c.m_client.m_connection.m_state ≠ .Connected) : Attempt c.connectDone := by
  rw [connectDone_eq]
  constructor
  · intro hconn
    replace hconn : c.m_client.connecting = true := hconn
    rw [hended] at hconn
    cases hconn
  · intro hfail
    obtain ⟨hcode, hstate⟩ := hfailed hfail
    refine ⟨hcode, hended, hstate, ?_, Or.inr rfl⟩
    simp only [TcpClient.writeMessage, TcpConnection.listenWrite, TcpConnection.pushSendMessage]
    rw [hwrites]
    rfl

theorem timerDone_code (c : RpcChannel ι κ τ μ) :
    (c.timerDone.controllers c.timerDone.my_controller).m_error_code = ERROR_RPC_CALL_TIMEOUT := by
  have hset (c : RpcChannel ι κ τ μ) (code : ErrorCode) (info : Bytes) :
      ((c.setError c.my_controller code info).controllers c.my_controller).m_error_code = code := by
    unfold setError updateController
    simp only [Function.update_self]
    rfl
  unfold timerDone runClosure
  simp only
  split <;> exact hset _ _ _

/-- The error that the callback of `readMessage` gives to the controller. -/
def replyError (ParseFromString : Bytes → μ × Bool) (m : TinyPBProtocol) :
    Option (ErrorCode × Bytes) :=
  if !(ParseFromString m.m_pb_data).2 then some (ERROR_FAILED_SERIALIZE, ascii "serialize error")
  else if m.m_err_code ≠ 0 then some (m.m_err_code, m.m_err_info)
  else none

variable [DecidableEq ι] {ev : ι}

theorem readDone_eq (ev : ι) {c : RpcChannel ι κ τ μ} (h : c.m_closure = true)
    (m : TinyPBProtocol) :
    readDone ev ParseFromString c m =
      { afterReply ev ParseFromString c m with
        controllers := (replyError ParseFromString m).elim c.controllers fun err =>
          Function.update c.controllers c.m_controller
            ((c.controllers c.m_controller).SetError err.1 err.2)
        runs := c.runs + if Accepted ParseFromString c m then 1 else 0 } := by
  obtain ⟨-, -, hruns⟩ := readDone_spec ev ParseFromString h m
  rw [← hruns]
  unfold readDone replyError
  simp only
  split
  · rfl
  · split
    · rfl
    · split
      · unfold runClosure
        split <;> rfl
      · rfl

/-! ## Moves -/

/-- No callback waits for this event. -/
def Unawaited (c : RpcChannel ι κ τ μ) : Event ι → Prop
  | .reconnect _ => False
  | .excute result => c.calls result = []
  | _ => True

/-- One of the four callbacks runs, or none does. Then the request stays where
it is, and only `clear` changes the state of the connection. -/
inductive Move (ev : ι) (ParseFromString : Bytes → μ × Bool) (c : RpcChannel ι κ τ μ) :
    Event ι → RpcChannel ι κ τ μ → Prop
  | connected (rt : ReconnectResult) (hconn : c.m_client.connecting = true) :
    Move ev ParseFromString c (.reconnect rt)
      { c with m_client := c.m_client.reconnect rt }.connectDone
  | written (is_all_write : Bool) (m_connection : TcpConnection Callback)
      (hstate : c.m_client.m_connection.m_state = .Connected) :
    Move ev ParseFromString c (.onWrite is_all_write) (c.setConnection m_connection)
  | reply (result : List TinyPBProtocol) (m : TinyPBProtocol)
      (m_connection : TcpConnection Callback) (hcalls : c.calls result = [(.reply, m)])
      (hwrites : m_connection.m_write_dones = c.m_client.m_connection.m_write_dones)
      (hstate : m_connection.m_state = c.m_client.m_connection.m_state ∧
        m_connection.m_fd_event = c.m_client.m_connection.m_fd_event) :
    Move ev ParseFromString c (.excute result)
      (readDone ev ParseFromString (c.setConnection m_connection) m)
  | timeout (now : Int) (readings : List (Int × Int)) (last : Int) (timer : Timer ι)
      (events : Timer.Events ι τ) (hfirst : c.expired = false) :
    Move ev ParseFromString c (.onTimer now readings last) { c with timer, events }.timerDone
  | nothing (e : Event ι) (timer : Timer ι) (events : Timer.Events ι τ)
      (m_connection : TcpConnection Callback) (hevent : Unawaited c e)
      (hwrites : m_connection.m_write_dones = c.m_client.m_connection.m_write_dones)
      (hstate : m_connection.m_state = .Closed ∨
        m_connection.m_state = c.m_client.m_connection.m_state ∧
          m_connection.m_fd_event = c.m_client.m_connection.m_fd_event) :
    Move ev ParseFromString c e ({ c with timer, events }.setConnection m_connection)

theorem Move.untouched {c : RpcChannel ι κ τ μ} {e : Event ι} (hevent : Unawaited c e)
    (timer : Timer ι) (events : Timer.Events ι τ) :
    Move ev ParseFromString c e { c with timer, events } :=
  .nothing e timer events c.m_client.m_connection hevent rfl (Or.inr ⟨rfl, rfl⟩)

theorem Sound.excute_move {c t : RpcChannel ι κ τ μ} (h : Sound ev c)
    {result : List TinyPBProtocol} (ht : next ev ParseFromString c (.excute result) = some t) :
    Move ev ParseFromString c (.excute result) t := by
  cases ht
  unfold RpcChannel.excute
  rcases h.calls_cases result with hnone | ⟨-, m, hsome⟩
  · rw [hnone]
    exact Move.nothing (.excute result) c.timer c.events _ hnone rfl (Or.inr ⟨rfl, rfl⟩)
  · rw [hsome]
    exact Move.reply result m _ hsome rfl ⟨rfl, rfl⟩

theorem Sound.onWrite_move {c t : RpcChannel ι κ τ μ} (h : Sound ev c) {is_all_write : Bool}
    (ht : next ev ParseFromString c (.onWrite is_all_write) = some t) :
    Move ev ParseFromString c (.onWrite is_all_write) t := by
  rcases h.onWrite_cases ht with rfl | ⟨m_connection, rfl, hstate, -, -⟩
  · exact Move.untouched (by trivial) t.timer t.events
  · exact Move.written is_all_write m_connection hstate

theorem Sound.onTimer_move {c t : RpcChannel ι κ τ μ} (h : Sound ev c) {now : Int}
    {readings : List (Int × Int)} {last : Int}
    (ht : next ev ParseFromString c (.onTimer now readings last) = some t) :
    Move ev ParseFromString c (.onTimer now readings last) t := by
  cases ht
  obtain ⟨timer, events, -, heq | ⟨heq, hfirst, -, -⟩⟩ := h.onTimer_cases now readings last
  · rw [heq]
    exact Move.untouched (by trivial) timer events
  · rw [heq]
    exact Move.timeout now readings last timer events hfirst

theorem next_move {c t : RpcChannel ι κ τ μ} {e : Event ι} (h : Sound ev c)
    (ht : next ev ParseFromString c e = some t) : Move ev ParseFromString c e t := by
  cases e with
  | reconnect rt =>
    simp only [next] at ht
    split at ht
    · rename_i hconn
      cases ht
      exact Move.connected rt hconn
    · cases ht
  | onWrite is_all_write => exact h.onWrite_move ht
  | excute result => exact h.excute_move ht
  | onTimer now readings last => exact h.onTimer_move ht
  | addTimerEvent e now =>
    simp only [next] at ht
    split at ht
    · cases ht
    · cases ht
      exact Move.untouched (by trivial) _ c.events
  | deleteTimerEvent e =>
    simp only [next] at ht
    split at ht
    · cases ht
    · cases ht
      exact Move.untouched (by trivial) _ _
  | setCancle e =>
    simp only [next] at ht
    split at ht
    · cases ht
    · cases ht
      exact Move.untouched (by trivial) c.timer _
  | clear =>
    cases ht
    apply Move.nothing .clear c.timer c.events _ trivial
    · unfold TcpConnection.clear
      split <;> rfl
    · unfold TcpConnection.clear
      split
      · rename_i hclosed
        exact Or.inl hclosed
      · exact Or.inl rfl

/-! ## Runs -/

theorem start_attempt {s : RpcChannel ι κ τ μ} (hs : (system ev ParseFromString).start s) :
    Attempt s := by
  obtain ⟨c, my_controller, method_full_name, msg_id, pb_data, cb, now, now', rt, h, rfl⟩ := hs
  unfold CallMethod
  rw [if_neg (by rw [h.is_init]; exact Bool.false_ne_true)]
  simp only
  have hnew : TcpState.NotConnected ≠ .Connected := by decide
  generalize hc1 : c.updateController my_controller _ = c1
  have hclient : c1.m_client = {} := by rw [← hc1]; exact h.client
  have hfresh : Attempt c1 := by
    constructor
    · rw [hclient]
      exact fun hconn => absurd hconn Bool.false_ne_true
    · rw [hclient]
      exact fun hfail => absurd rfl hfail
  cases pb_data with
  | none => exact ⟨hfresh.connecting, fun hfail => absurd (by rw [setError]; exact hclient ▸ rfl) hfail⟩
  | some m_pb_data =>
    simp only [hclient]
    cases rt with
    | success => exact connectDone_attempt rfl rfl (fun hfail => absurd rfl hfail)
    | inProgress => exact ⟨fun _ => ⟨rfl, hnew⟩, fun hfail => absurd rfl hfail⟩
    | failed sys_error => exact connectDone_attempt rfl rfl (fun _ => ⟨Or.inr rfl, hnew⟩)

theorem Move.attempt {c t : RpcChannel ι κ τ μ} {e : Event ι} (h : Sound ev c) (ha : Attempt c)
    (hmove : Move ev ParseFromString c e t) : Attempt t := by
  cases hmove with
  | connected rt hconn =>
    have hw := h.waiting
    have hwrites : c.m_client.m_connection.m_write_dones = [] := by
      unfold TcpClient.waiting at hw
      rw [hconn, Bool.toNat_true] at hw
      exact List.length_eq_zero_iff.mp (by omega)
    obtain ⟨hzero, hstate⟩ := ha.connecting hconn
    cases rt with
    | success => exact connectDone_attempt rfl hwrites fun hfail => absurd hzero hfail
    | refused sys_error => exact connectDone_attempt rfl hwrites fun _ => ⟨Or.inl rfl, hstate⟩
    | failed sys_error => exact connectDone_attempt rfl hwrites fun _ => ⟨Or.inr rfl, hstate⟩
  | written is_all_write m_connection hstate =>
    constructor
    · intro hconn
      exact absurd hstate (ha.connecting hconn).2
    · intro hfail
      exact absurd hstate (ha.failed hfail).state
  | reply result m m_connection hcalls hwrites hstate =>
    rw [readDone_eq ev (show (c.setConnection m_connection).m_closure = true from h.closure)]
    exact ha.of_same rfl rfl rfl hwrites (Or.inr hstate)
  | timeout now readings last timer events hfirst =>
    obtain ⟨controllers, -, hdone⟩ := timerDone_spec (c := { c with timer, events }) h.closure
    rw [hdone]
    exact ha.of_same rfl rfl rfl rfl (Or.inr ⟨rfl, rfl⟩)
  | nothing e timer events m_connection hevent hwrites hstate =>
    exact ha.of_same rfl rfl rfl hwrites hstate

theorem run_attempt {es : List (Event ι)} {c : RpcChannel ι κ τ μ}
    (hrun : (system ev ParseFromString).Run es c) : Attempt c := by
  induction hrun with
  | start hs => exact start_attempt hs
  | step hrun ht ih =>
    obtain ⟨hsound, -⟩ := run_sound hrun
    exact (next_move hsound ht).attempt hsound ih

end RpcChannel

end TinyRpc
