import TinyRpc.Connection.Client
import TinyRpc.Lib.Runs
import TinyRpc.Timer.Spec

/-!
# One call of an RPC channel

`RpcChannel::CallMethod` and the callbacks that it leaves with the connection
and with the timer of its event loop. `ev` names the timer event of the call.
`CallMethod` may be given another controller than `init`: controllers have
names too.
-/

namespace TinyRpc

open Lib Coder

structure RpcController where
  m_error_code : ErrorCode := 0
  m_error_info : Bytes := []
  m_msg_id : Bytes := []
  m_is_failed : Bool := false
  m_is_cancled : Bool := false
  m_timeout : Int := 1000
  deriving DecidableEq

namespace RpcController

def StartCancel (c : RpcController) : RpcController := { c with m_is_cancled := true }

def SetError (c : RpcController) (err_code : ErrorCode) (error_info : Bytes) : RpcController :=
  { c with m_error_code := err_code, m_error_info := error_info, m_is_failed := true }

end RpcController

inductive Callback where
  | written | reply
  deriving DecidableEq

/-- A channel, the timer of its event loop, and the request of its call. -/
structure RpcChannel (ι κ τ μ : Type) where
  controllers : κ → RpcController
  m_controller : κ
  /-- The controller that `CallMethod` was given. -/
  my_controller : κ
  m_response : μ
  m_closure : Bool
  m_is_init : Bool
  m_client : TcpClient Callback := {}
  timer : Timer ι
  events : Timer.Events ι τ
  req_protocol : TinyPBProtocol := {}
  runs : Nat := 0
  /-- A reply was given to the read callback. -/
  replied : Bool := false
  /-- The callback of the timer has run. -/
  expired : Bool := false

namespace RpcChannel

variable {ι κ τ μ : Type} [DecidableEq κ]

/-! ## The callbacks -/

def updateController (c : RpcChannel ι κ τ μ) (k : κ) (f : RpcController → RpcController) :
    RpcChannel ι κ τ μ :=
  { c with controllers := Function.update c.controllers k (f (c.controllers k)) }

def setError (c : RpcChannel ι κ τ μ) (k : κ) (err_code : ErrorCode) (error_info : Bytes) :
    RpcChannel ι κ τ μ :=
  c.updateController k (·.SetError err_code error_info)

def runClosure (c : RpcChannel ι κ τ μ) : RpcChannel ι κ τ μ :=
  if c.m_closure then { c with runs := c.runs + 1 } else c

def timerDone (c : RpcChannel ι κ τ μ) : RpcChannel ι κ τ μ :=
  let c := { c.updateController c.my_controller (·.StartCancel) with expired := true }
  let m_timeout := (c.controllers c.my_controller).m_timeout
  (c.setError c.my_controller ERROR_RPC_CALL_TIMEOUT
    (ascii "rpc call time out" ++ ascii (toString m_timeout))).runClosure

def connectDone (c : RpcChannel ι κ τ μ) : RpcChannel ι κ τ μ :=
  let c :=
    if c.m_client.m_connect_errcode ≠ 0 then
      c.setError c.m_controller c.m_client.m_connect_errcode c.m_client.m_connect_error_info
    else c
  { c with m_client := c.m_client.writeMessage c.req_protocol .written }

def writeDone (c : RpcChannel ι κ τ μ) : RpcChannel ι κ τ μ :=
  { c with m_client := c.m_client.readMessage c.req_protocol.m_msg_id .reply }

section Steps

variable [DecidableEq ι] (ev : ι) (ParseFromString : Bytes → μ × Bool)

/-- The callback of `readMessage`. `ParseFromString` returns the message that
it leaves, and whether it succeeds. -/
def readDone (c : RpcChannel ι κ τ μ) (rsp_protocol : TinyPBProtocol) : RpcChannel ι κ τ μ :=
  let c := { c with events := Timer.setCancle c.events ev true, replied := true }
  let (m_response, ok) := ParseFromString rsp_protocol.m_pb_data
  let c := { c with m_response }
  if !ok then c.setError c.m_controller ERROR_FAILED_SERIALIZE (ascii "serialize error")
  else if rsp_protocol.m_err_code ≠ 0 then
    c.setError c.m_controller rsp_protocol.m_err_code rsp_protocol.m_err_info
  else if !(c.controllers c.m_controller).m_is_cancled then c.runClosure
  else c

def runCallback (c : RpcChannel ι κ τ μ) (done : Callback) (message : TinyPBProtocol) :
    RpcChannel ι κ τ μ :=
  match done with
  | .written => c.writeDone
  | .reply => readDone ev ParseFromString c message

/-! ## The call -/

/-- `pb_data` is the serialised request, and `msg_id` a fresh id. The timer
event takes the first reading of the clock, the descriptor the second. -/
def CallMethod (c : RpcChannel ι κ τ μ) (my_controller : κ) (method_full_name msg_id : Bytes)
    (pb_data : Option Bytes) (cb : τ) (now now' : Int) (rt : ConnectResult) :
    RpcChannel ι κ τ μ :=
  if !c.m_is_init then
    c.setError my_controller ERROR_RPC_CHANNEL_INIT (ascii "RpcChannle init error")
  else
    let controller := c.controllers my_controller
    let m_msg_id := if controller.m_msg_id = [] then msg_id else controller.m_msg_id
    let c := c.updateController my_controller ({ · with m_msg_id })
    match pb_data with
    | none => c.setError my_controller ERROR_FAILED_SERIALIZE (ascii "failed to serialize")
    | some m_pb_data =>
      let events :=
        Function.update c.events ev (TimerEvent.new controller.m_timeout false cb now)
      let (m_client, done) := c.m_client.connect rt
      let c := { c with
        my_controller
        req_protocol := { m_msg_id, m_method_name := method_full_name, m_pb_data }
        events
        timer := c.timer.addTimerEvent events ev now'
        m_client }
      if done then c.connectDone else c

inductive Event (ι : Type) where
  | reconnect (rt : ReconnectResult)
  | onWrite (is_all_write : Bool)
  /-- `excute`, with the messages that it decodes. -/
  | excute (result : List TinyPBProtocol)
  | onTimer (now : Int) (readings : List (Int × Int)) (last : Int)
  /-- Other events of the same timer. -/
  | addTimerEvent (e : ι) (now : Int)
  | deleteTimerEvent (e : ι)
  | setCancle (e : ι)
  | clear

def setConnection (c : RpcChannel ι κ τ μ) (m_connection : TcpConnection Callback) :
    RpcChannel ι κ τ μ :=
  { c with m_client := { c.m_client with m_connection } }

def onWrite (c : RpcChannel ι κ τ μ) (is_all_write : Bool) : Option (RpcChannel ι κ τ μ) :=
  if c.m_client.m_connection.m_state ≠ .Connected then some c
  else do
    let conn ← c.m_client.m_connection.beforeWrite
    let c := c.setConnection (conn.afterWrite is_all_write)
    let c := conn.m_write_dones.foldl (fun c d => runCallback ev ParseFromString c d.2 d.1) c
    return c.setConnection c.m_client.m_connection.clearWriteDones

/-- The callbacks that a client's `excute` runs for the messages `result`. -/
def calls (c : RpcChannel ι κ τ μ) (result : List TinyPBProtocol) : List (Callback × TinyPBProtocol) :=
  (TcpConnection.takeReadDones result c.m_client.m_connection.m_read_dones).1

def excute (c : RpcChannel ι κ τ μ) (result : List TinyPBProtocol) : RpcChannel ι κ τ μ :=
  let conn := c.m_client.m_connection
  let m_read_dones := (TcpConnection.takeReadDones result conn.m_read_dones).2
  (c.calls result).foldl (fun c d => runCallback ev ParseFromString c d.1 d.2)
    (c.setConnection { conn with m_read_dones })

/-- The tasks of `onTimer` that are the callback of this call run it. -/
def onTimer (c : RpcChannel ι κ τ μ) (now : Int) (readings : List (Int × Int)) (last : Int) :
    RpcChannel ι κ τ μ :=
  let r := c.timer.onTimer c.events now readings last
  r.tasks.foldl (fun c task => if task.1 = ev then c.timerDone else c)
    { c with timer := r.timer, events := r.events }

def next (c : RpcChannel ι κ τ μ) : Event ι → Option (RpcChannel ι κ τ μ)
  | .reconnect rt =>
    if c.m_client.connecting then
      some { c with m_client := c.m_client.reconnect rt }.connectDone
    else none
  | .onWrite is_all_write => onWrite ev ParseFromString c is_all_write
  | .excute result => some (excute ev ParseFromString c result)
  | .onTimer now readings last => some (onTimer ev c now readings last)
  | .addTimerEvent e now =>
    if e = ev then none else some { c with timer := c.timer.addTimerEvent c.events e now }
  | .deleteTimerEvent e =>
    if e = ev then none
    else
      let events := Timer.setCancle c.events e true
      some { c with events, timer := c.timer.deleteTimerEvent events e }
  | .setCancle e =>
    if e = ev then none else some { c with events := Timer.setCancle c.events e true }
  | .clear => some (c.setConnection c.m_client.m_connection.clear)

/-- A channel that `init` has prepared, before its call. -/
structure Ready (c : RpcChannel ι κ τ μ) : Prop where
  is_init : c.m_is_init = true
  closure : c.m_closure = true
  client : c.m_client = {}
  fresh : ∀ p ∈ c.timer.m_pending_events.entries, p.2 ≠ ev
  one_shot : (c.events ev).m_is_repeated = false
  untouched : c.runs = 0 ∧ c.replied = false ∧ c.expired = false

def system : System (RpcChannel ι κ τ μ) (Event ι) where
  start s := ∃ (c : RpcChannel ι κ τ μ) (my_controller : κ) (method_full_name msg_id : Bytes)
    (pb_data : Option Bytes) (cb : τ) (now now' : Int) (rt : ConnectResult), Ready ev c ∧
      s = CallMethod ev c my_controller method_full_name msg_id pb_data cb now now' rt
  step s e t := next ev ParseFromString s e = some t

end Steps

end RpcChannel

end TinyRpc
