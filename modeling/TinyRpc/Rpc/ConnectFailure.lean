import TinyRpc.Rpc.Moves

/-!
# A connect that fails

The callback of `connect` sets the error of the controller, and goes on as
after a connect that succeeds.
-/

namespace TinyRpc

open Lib Coder

namespace RpcChannel

variable {ι κ τ μ : Type} {ParseFromString : Bytes → μ × Bool}

/-! ## What should hold -/

/-- The connect of the call has failed. -/
def ConnectFailed (c : RpcChannel ι κ τ μ) : Prop := c.m_client.m_connect_errcode ≠ 0

def Reports (c : RpcChannel ι κ τ μ) : Prop :=
  (c.controllers c.my_controller).m_error_code = c.m_client.m_connect_errcode

section

variable [DecidableEq κ] [DecidableEq ι]

/-- The request was not given to the connection, which does not listen to
write events, and the closure finds the error of the connect. -/
structure EndsCall (ev : ι) (ParseFromString : Bytes → μ × Bool) (c : RpcChannel ι κ τ μ) :
    Prop where
  request : (c.req_protocol, Callback.written) ∉ c.m_client.m_connection.m_write_dones
  silent : c.m_client.m_connection.m_fd_event.out_event = false
  reports : ∀ e t, next ev ParseFromString c e = some t → t.runs ≠ c.runs → Reports t

end

/-! ## What holds -/

variable [DecidableEq ι] {ev : ι}

theorem Stranded.no_reply {c : RpcChannel ι κ τ μ} (h : Sound ev c) (hs : Stranded c)
    (result : List TinyPBProtocol) : c.calls result = [] := by
  obtain ⟨-, hwait, -⟩ := h.take result
  have hw := h.waiting
  have hone : c.m_client.waiting = 1 + c.m_client.m_connection.m_read_dones.length := by
    unfold TcpClient.waiting
    rw [hs.ended, hs.request]
    rfl
  have htaken : ∀ m_read_dones : List (Bytes × Callback),
      1 ≤ (c.setConnection { c.m_client.m_connection with m_read_dones }).m_client.waiting := by
    intro m_read_dones
    simp only [TcpClient.waiting, setConnection, hs.request, List.length_singleton]
    omega
  have h1 := htaken (TcpConnection.takeReadDones result c.m_client.m_connection.m_read_dones).2
  exact List.length_eq_zero_iff.mp (by omega)

variable [DecidableEq κ]

/-- After a connect that has failed, only the timer runs the closure. -/
theorem Stranded.runs {c t : RpcChannel ι κ τ μ} {e : Event ι} (h : Sound ev c) (hs : Stranded c)
    (hmove : Move ev ParseFromString c e t) (hruns : t.runs ≠ c.runs) :
    (t.controllers t.my_controller).m_error_code = ERROR_RPC_CALL_TIMEOUT ∧
      t.m_client.m_connect_errcode = c.m_client.m_connect_errcode := by
  cases hmove with
  | connected rt hconn =>
    rw [hs.ended] at hconn
    cases hconn
  | written is_all_write m_connection hstate => exact absurd hstate hs.state
  | reply result m m_connection hcalls hwrites hstate =>
    rw [hs.no_reply h result] at hcalls
    cases hcalls
  | timeout now readings last timer events hfirst =>
    refine ⟨timerDone_code _, ?_⟩
    obtain ⟨controllers, -, hdone⟩ := timerDone_spec (c := { c with timer, events }) h.closure
    rw [hdone]
  | nothing e timer events m_connection hevent hwrites hstate => exact absurd rfl hruns

/-- Once the connect has failed, the request is with the connection, and the
closure finds the error of the timer. -/
theorem connect_failure_goes_on {es : List (Event ι)} {c : RpcChannel ι κ τ μ}
    (hrun : (system ev ParseFromString).Run es c) (hfailed : ConnectFailed c) :
    ¬ EndsCall ev ParseFromString c ∧
      (c.req_protocol, Callback.written) ∈ c.m_client.m_connection.m_write_dones ∧
      (c.m_client.m_connection.m_state = .Closed ∨
        c.m_client.m_connection.m_fd_event.out_event = true) ∧
      ∀ e t, next ev ParseFromString c e = some t → t.runs ≠ c.runs →
        (t.controllers t.my_controller).m_error_code = ERROR_RPC_CALL_TIMEOUT ∧ ¬ Reports t := by
  obtain ⟨hsound, -⟩ := run_sound hrun
  have hs := (run_attempt hrun).failed hfailed
  have hrequest : (c.req_protocol, Callback.written) ∈ c.m_client.m_connection.m_write_dones := by
    rw [hs.request]
    exact List.mem_singleton_self _
  refine ⟨fun hends => hends.request hrequest, hrequest, hs.listens, ?_⟩
  intro e t ht hruns
  obtain ⟨hcode, herr⟩ := hs.runs hsound (next_move hsound ht) hruns
  refine ⟨hcode, ?_⟩
  unfold Reports
  rw [hcode, herr]
  rcases hs.code with h | h <;> rw [h] <;> decide

def refused : RpcChannel Unit Unit Unit Bytes :=
  CallMethod () idle () (ascii "Order.makeOrder") (ascii "1") (some []) () 0 0
    (.failed (ascii "Network is unreachable"))

theorem refused_goes_on : ¬ EndsCall () (fun l => (l, true)) refused := by
  have hstart : (system () fun l => (l, true)).start refused :=
    ⟨idle, (), _, _, _, _, _, _, _, idle_ready, rfl⟩
  exact (connect_failure_goes_on (System.Run.start hstart) (by unfold ConnectFailed; decide)).1

def connectingCall : RpcChannel Unit Unit Unit Bytes :=
  CallMethod () idle () (ascii "Order.makeOrder") (ascii "1") (some []) () 0 0 .inProgress

def refusedLater : RpcChannel Unit Unit Unit Bytes :=
  { connectingCall with
    m_client := connectingCall.m_client.reconnect (.refused (ascii "Connection refused"))
    }.connectDone

theorem refusedLater_not_ends :
    (system () fun l => (l, true)).Run [.reconnect (.refused (ascii "Connection refused"))]
        refusedLater ∧
      ConnectFailed refusedLater ∧ ¬ EndsCall () (fun l => (l, true)) refusedLater := by
  have hstart : (system () fun l => (l, true)).start connectingCall :=
    ⟨idle, (), _, _, _, _, _, _, _, idle_ready, rfl⟩
  refine ⟨(System.Run.start hstart).step rfl, ?_, ?_⟩
  · unfold ConnectFailed
    decide
  · intro hends
    have hreports := hends.reports (.onTimer 1000 [] 1000)
      (onTimer () refusedLater 1000 [] 1000) rfl (by decide +kernel)
    revert hreports
    unfold Reports
    decide +kernel

end RpcChannel

end TinyRpc
