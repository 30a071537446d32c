import TinyRpc.Rpc.Moves

/-!
# Behind the timer

The callbacks of a call go on after its timer has run the closure. Only the
closure looks at `IsCanceled`: the response and the error do not.
-/

namespace TinyRpc

open Lib Coder

namespace RpcController

/-- The controller has this error already. -/
def Holds (c : RpcController) (err : ErrorCode × Bytes) : Prop :=
  c.m_error_code = err.1 ∧ c.m_error_info = err.2 ∧ c.m_is_failed = true

end RpcController

def ReconnectResult.error : ReconnectResult → Option (ErrorCode × Bytes)
  | .success => none
  | .refused sys_error =>
    some (ERROR_PEER_CLOSE, ascii "connect refused, sys error = " ++ sys_error)
  | .failed sys_error =>
    some (ERROR_FAILED_CONNECT, ascii "connect unkonwn error, sys error = " ++ sys_error)

namespace RpcChannel

variable {ι κ τ μ : Type} {ParseFromString : Bytes → μ × Bool}

/-- What the caller sees of its call. -/
structure Untouched (c t : RpcChannel ι κ τ μ) : Prop where
  controllers : t.controllers = c.controllers
  response : t.m_response = c.m_response
  runs : t.runs = c.runs

theorem Untouched.trans {c s t : RpcChannel ι κ τ μ} (h : Untouched c s) (h' : Untouched s t) :
    Untouched c t :=
  ⟨h'.controllers.trans h.controllers, h'.response.trans h.response, h'.runs.trans h.runs⟩

/-- The event brings nothing that the caller does not have. A reply has the
response that is there, and no error for a call that is cancelled, or an error
that the controller has. So has a connect. -/
def Quiet (ParseFromString : Bytes → μ × Bool) (c : RpcChannel ι κ τ μ) :
    Event ι → Prop
  | .reconnect rt => ∀ err ∈ rt.error, (c.controllers c.m_controller).Holds err
  | .excute result => ∀ d ∈ c.calls result,
      (ParseFromString d.2.m_pb_data).1 = c.m_response ∧
        (∀ err ∈ replyError ParseFromString d.2, (c.controllers c.m_controller).Holds err) ∧
        (replyError ParseFromString d.2 = none →
          (c.controllers c.m_controller).m_is_cancled = true)
  | _ => True

/-! ## The callbacks -/

variable [DecidableEq κ]

variable [DecidableEq ι] {ev : ι}

/-- The call that goes on from here. -/
def after (ev : ι) (ParseFromString : Bytes → μ × Bool) (c : RpcChannel ι κ τ μ) :
    System (RpcChannel ι κ τ μ) (Event ι) where
  start s := s = c
  step s e t := next ev ParseFromString s e = some t

end RpcChannel

end TinyRpc
