import TinyRpc.Connection.Spec
import TinyRpc.Rpc.ErrorCode

/-!
# The client

`tcp_client.cc`. The results of the two `::connect` calls are arguments.
-/

namespace TinyRpc

structure TcpClient (δ : Type) where
  m_connection : TcpConnection δ := TcpConnection.new 128 .TcpConnectionByClient
  m_connect_errcode : ErrorCode := 0
  m_connect_error_info : Bytes := []
  /-- The write event of the descriptor calls back into `connect`. -/
  connecting : Bool := false

/-- What the first `::connect` returns, with the text of its error. -/
inductive ConnectResult where
  | success
  | inProgress
  | failed (sys_error : Bytes)

/-- What the `::connect` of the write event returns. -/
inductive ReconnectResult where
  | success
  | refused (sys_error : Bytes)
  | failed (sys_error : Bytes)

namespace TcpClient

variable {δ : Type}

/-- The client, and whether `done` runs before `connect` returns. -/
def connect (c : TcpClient δ) (rt : ConnectResult) : TcpClient δ × Bool :=
  match rt with
  | .success => ({ c with m_connection := c.m_connection.setState .Connected }, true)
  | .inProgress => ({ c with connecting := true }, false)
  | .failed sys_error =>
    ({ c with
      m_connect_errcode := ERROR_FAILED_CONNECT
      m_connect_error_info := ascii "connect error,sys error=" ++ sys_error }, true)

def reconnect (c : TcpClient δ) (rt : ReconnectResult) : TcpClient δ :=
  match rt with
  | .success =>
    { c with connecting := false, m_connection := c.m_connection.setState .Connected }
  | .refused sys_error =>
    { c with
      connecting := false
      m_connect_errcode := ERROR_PEER_CLOSE
      m_connect_error_info := ascii "connect refused, sys error = " ++ sys_error }
  | .failed sys_error =>
    { c with
      connecting := false
      m_connect_errcode := ERROR_FAILED_CONNECT
      m_connect_error_info := ascii "connect unkonwn error, sys error = " ++ sys_error }

def writeMessage (c : TcpClient δ) (message : Coder.TinyPBProtocol) (done : δ) : TcpClient δ :=
  { c with m_connection := (c.m_connection.pushSendMessage message done).listenWrite }

def readMessage (c : TcpClient δ) (msg_id : Bytes) (done : δ) : TcpClient δ :=
  { c with m_connection := (c.m_connection.pushReadMessage msg_id done).listenRead }

end TcpClient

end TinyRpc
