import TinyRpc.Coder.RoundTrip

/-!
# A connection

`tcp_connection.cc`. The sockets are outside: `onRead` takes the results of
its `read()` calls, and the loop of `onWrite` is one turn for each `write()`.
A callback is a value of type `δ`. The functions that run callbacks return
them with their arguments.
-/

namespace TinyRpc

open Coder

inductive TcpState where
  | NotConnected | Connected | HalfClosing | Closed
  deriving DecidableEq

inductive TcpConnectionType where
  | TcpConnectionByServer | TcpConnectionByClient
  deriving DecidableEq

structure FdEvent where
  in_event : Bool := false
  out_event : Bool := false
  deriving DecidableEq

structure TcpConnection (δ : Type) where
  m_in_buffer : TcpBuffer
  m_out_buffer : TcpBuffer
  m_fd_event : FdEvent := {}
  m_state : TcpState := .NotConnected
  m_connection_type : TcpConnectionType := .TcpConnectionByServer
  m_write_dones : List (TinyPBProtocol × δ) := []
  m_read_dones : List (Bytes × δ) := []

/-- One result of `read()`. -/
inductive ReadResult where
  | bytes (l : Bytes)
  /-- 0: the peer has closed. -/
  | close
  /-- -1 with `EAGAIN`. -/
  | again
  | error
  deriving DecidableEq

inductive WriteResult where
  | accepted (n : Nat)
  | again
  | error
  deriving DecidableEq

namespace TcpConnection

variable {δ : Type}

/-! ## The state -/

def listenWrite (c : TcpConnection δ) : TcpConnection δ :=
  { c with m_fd_event := { c.m_fd_event with out_event := true } }

def listenRead (c : TcpConnection δ) : TcpConnection δ :=
  { c with m_fd_event := { c.m_fd_event with in_event := true } }

def new (buffer_size : Nat) (type : TcpConnectionType) : TcpConnection δ :=
  let c : TcpConnection δ :=
    { m_in_buffer := TcpBuffer.new buffer_size
      m_out_buffer := TcpBuffer.new buffer_size
      m_connection_type := type }
  if type = .TcpConnectionByServer then c.listenRead else c

/-- Whatever the argument is, the connection is connected. -/
def setState (c : TcpConnection δ) (_state : TcpState) : TcpConnection δ :=
  { c with m_state := .Connected }

def clear (c : TcpConnection δ) : TcpConnection δ :=
  if c.m_state = .Closed then c else { c with m_fd_event := {}, m_state := .Closed }

def shutDown (c : TcpConnection δ) : TcpConnection δ :=
  if c.m_state = .Closed ∨ c.m_state = .NotConnected then c
  else { c with m_state := .HalfClosing }

def pushSendMessage (c : TcpConnection δ) (message : TinyPBProtocol) (done : δ) :
    TcpConnection δ :=
  { c with m_write_dones := c.m_write_dones ++ [(message, done)] }

/-- `m_read_dones.insert`: an id that is there keeps its callback. -/
def pushReadMessage (c : TcpConnection δ) (req_id : Bytes) (done : δ) : TcpConnection δ :=
  if req_id ∈ c.m_read_dones.map Prod.fst then c
  else { c with m_read_dones := c.m_read_dones ++ [(req_id, done)] }

/-- What the connection has to send is the same. -/
structure SameSending (c c' : TcpConnection δ) : Prop where
  type : c'.m_connection_type = c.m_connection_type
  dones : c'.m_write_dones = c.m_write_dones
  out : c'.m_out_buffer = c.m_out_buffer

theorem clear_sameSending (c : TcpConnection δ) : c.SameSending c.clear := by
  unfold clear
  split <;> exact ⟨rfl, rfl, rfl⟩

theorem shutDown_sameSending (c : TcpConnection δ) : c.SameSending c.shutDown := by
  unfold shutDown
  split <;> exact ⟨rfl, rfl, rfl⟩

theorem pushReadMessage_sameSending (c : TcpConnection δ) (req_id : Bytes) (done : δ) :
    c.SameSending (c.pushReadMessage req_id done) := by
  unfold pushReadMessage
  split <;> exact ⟨rfl, rfl, rfl⟩

/-! ## Reading -/

/-- The vector doubles when it is full. Its new size is an `int`. -/
def grow (b : TcpBuffer) : Option TcpBuffer :=
  if b.writeAble = 0 then b.resizeBuffer (intOfSize (2 * b.m_buffer.length)) else some b

/-- What the loop of `onRead` leaves: whether the peer has closed, the buffer,
and the bytes that `read()` has returned. -/
structure ReadLoop where
  is_close : Bool
  buffer : TcpBuffer
  got : Bytes
  deriving DecidableEq

/-- The `while` loop of `onRead`. There is no result when the results of
`read()` run out, or when one of them is not a result of that `read()`. -/
def readLoop : List ReadResult → TcpBuffer → Option ReadLoop
  | [], _ => none
  | rt :: rts, m_in_buffer => do
    let m_in_buffer ← grow m_in_buffer
    let read_count := m_in_buffer.writeAble
    match rt with
    | .bytes l =>
      if l = [] then none
      else do
        let m_buffer ← TcpBuffer.stored m_in_buffer.m_buffer m_in_buffer.m_write_index l
        let m_in_buffer ← { m_in_buffer with m_buffer : TcpBuffer }.moveWriteIndex l.length
        if l.length = read_count then do
          let out ← readLoop rts m_in_buffer
          return { out with got := l ++ out.got }
        else
          return ⟨false, m_in_buffer, l⟩
    | .close => return ⟨true, m_in_buffer, []⟩
    | .again => return ⟨false, m_in_buffer, []⟩
    | .error => readLoop rts m_in_buffer

/-- The connection when `onRead` has left its loop, whether it goes on to
`excute()`, and the bytes that `read()` has returned. -/
structure OnRead (δ : Type) where
  conn : TcpConnection δ
  excutes : Bool
  got : Bytes

def onRead (c : TcpConnection δ) (rts : List ReadResult) : Option (OnRead δ) :=
  if c.m_state ≠ .Connected then some ⟨c, false, []⟩
  else do
    let out ← readLoop rts c.m_in_buffer
    let c := { c with m_in_buffer := out.buffer }
    return if out.is_close then ⟨c.clear, false, out.got⟩ else ⟨c, true, out.got⟩

/-- The callbacks that the messages are given to, and the callbacks that stay. -/
def takeReadDones : List TinyPBProtocol → List (Bytes × δ) →
    List (δ × TinyPBProtocol) × List (Bytes × δ)
  | [], m_read_dones => ([], m_read_dones)
  | m :: result, m_read_dones =>
    match m_read_dones.find? fun d => d.1 = m.m_msg_id with
    | none => takeReadDones result m_read_dones
    | some d =>
      let r := takeReadDones result (m_read_dones.filter fun d => d.1 ≠ m.m_msg_id)
      ((d.2, m) :: r.1, r.2)

def encodeOut (c : TcpConnection δ) (message : List TinyPBProtocol) :
    Option (List TinyPBProtocol × TcpConnection δ) := do
  let (message, m_out_buffer) ← encode message c.m_out_buffer
  return (message, { c with m_out_buffer })

theorem encodeOut_eq {c c' : TcpConnection δ} {message sent : List TinyPBProtocol}
    (h : c.encodeOut message = some (sent, c')) :
    ∃ m_out_buffer, encode message c.m_out_buffer = some (sent, m_out_buffer) ∧
      c' = { c with m_out_buffer } := by
  unfold encodeOut at h
  simp only [Option.bind_eq_bind, Option.bind_eq_some_iff] at h
  obtain ⟨⟨sent', m_out_buffer⟩, henc, h⟩ := h
  cases h
  exact ⟨m_out_buffer, henc, rfl⟩

def result (c : TcpConnection δ) (turns : Nat) : Option (List TinyPBProtocol × TcpBuffer) :=
  (decode turns c.m_in_buffer).val

/-- A server answers each request as `dispatch` does. A client runs the
callbacks that wait for its messages: they are returned. -/
def excute (c : TcpConnection δ) (turns : Nat) (dispatch : TinyPBProtocol → TinyPBProtocol) :
    Option (TcpConnection δ × List (δ × TinyPBProtocol)) := do
  let (result, m_in_buffer) ← c.result turns
  let c := { c with m_in_buffer }
  match c.m_connection_type with
  | .TcpConnectionByServer => do
    let (_, c) ← c.encodeOut (result.map dispatch)
    return (c.listenWrite, [])
  | .TcpConnectionByClient =>
    let (calls, m_read_dones) := takeReadDones result c.m_read_dones
    return ({ c with m_read_dones }, calls)

theorem excute_cases {c c' : TcpConnection δ} {turns : Nat}
    {dispatch : TinyPBProtocol → TinyPBProtocol} {calls : List (δ × TinyPBProtocol)}
    (h : c.excute turns dispatch = some (c', calls)) :
    ∃ result m_in_buffer, c.result turns = some (result, m_in_buffer) ∧
      ((c.m_connection_type = .TcpConnectionByServer ∧ calls = [] ∧
          ∃ sent m_out_buffer,
            encode (result.map dispatch) c.m_out_buffer = some (sent, m_out_buffer) ∧
            c' = ({ c with m_in_buffer, m_out_buffer } : TcpConnection δ).listenWrite) ∨
        (c.m_connection_type = .TcpConnectionByClient ∧
          calls = (takeReadDones result c.m_read_dones).1 ∧
          c' = { c with m_in_buffer, m_read_dones := (takeReadDones result c.m_read_dones).2 })) := by
  unfold excute at h
  simp only [Option.bind_eq_bind, Option.bind_eq_some_iff] at h
  obtain ⟨⟨result, m_in_buffer⟩, hresult, h⟩ := h
  refine ⟨result, m_in_buffer, hresult, ?_⟩
  simp only at h
  split at h
  · rename_i htype
    obtain ⟨⟨sent, c1⟩, hout, h⟩ := Option.bind_eq_some_iff.mp h
    obtain ⟨m_out_buffer, henc, rfl⟩ := encodeOut_eq hout
    cases h
    exact Or.inl ⟨htype, rfl, sent, m_out_buffer, henc, rfl⟩
  · rename_i htype
    cases h
    exact Or.inr ⟨htype, rfl, rfl⟩

/-! ## Writing -/

/-- `onWrite` in front of its loop: a client encodes the messages that wait. -/
def beforeWrite (c : TcpConnection δ) : Option (TcpConnection δ) :=
  match c.m_connection_type with
  | .TcpConnectionByServer => some c
  | .TcpConnectionByClient => do
    let (message, c) ← c.encodeOut (c.m_write_dones.map Prod.fst)
    return { c with m_write_dones := message.zip (c.m_write_dones.map Prod.snd) }

theorem encode_length {ms sent : List TinyPBProtocol} {out out' : TcpBuffer}
    (h : encode ms out = some (sent, out')) : sent.length = ms.length := by
  induction ms generalizing sent out with
  | nil =>
    cases h
    rfl
  | cons m ms ih =>
    unfold encode at h
    simp only [Option.bind_eq_bind, Option.bind_eq_some_iff] at h
    obtain ⟨out1, -, ⟨sent1, out2⟩, henc, h⟩ := h
    cases h
    rw [List.length_cons, List.length_cons, ih henc]

theorem beforeWrite_cases {c c' : TcpConnection δ} (h : c.beforeWrite = some c') :
    (c.m_connection_type = .TcpConnectionByServer ∧ c' = c) ∨
    (c.m_connection_type = .TcpConnectionByClient ∧
      ∃ sent m_out_buffer,
        encode (c.m_write_dones.map Prod.fst) c.m_out_buffer = some (sent, m_out_buffer) ∧
        c' = { c with
          m_out_buffer, m_write_dones := sent.zip (c.m_write_dones.map Prod.snd) }) := by
  unfold beforeWrite at h
  split at h
  · exact Or.inl ⟨‹_›, (Option.some.inj h).symm⟩
  · rename_i htype
    obtain ⟨⟨sent, c1⟩, hout, h⟩ := Option.bind_eq_some_iff.mp h
    obtain ⟨m_out_buffer, henc, rfl⟩ := encodeOut_eq hout
    cases h
    exact Or.inr ⟨htype, sent, m_out_buffer, henc, rfl⟩

theorem beforeWrite_dones {c c' : TcpConnection δ} (h : c.beforeWrite = some c') :
    c'.m_write_dones.map Prod.snd = c.m_write_dones.map Prod.snd ∧
      c'.m_read_dones = c.m_read_dones ∧ c'.m_connection_type = c.m_connection_type := by
  rcases beforeWrite_cases h with ⟨-, rfl⟩ | ⟨-, sent, m_out_buffer, henc, rfl⟩
  · exact ⟨rfl, rfl, rfl⟩
  · have hlen := encode_length henc
    rw [List.length_map] at hlen
    refine ⟨?_, rfl, rfl⟩
    exact List.map_snd_zip (by rw [List.length_map, hlen])

/-- Whether the loop of `onWrite` is left after a `write()`, and with which `is_all_write`. -/
def writeTurn (c : TcpConnection δ) (rt : WriteResult) : Option Bool :=
  match rt with
  | .accepted n => if n ≥ c.m_out_buffer.readAble then some true else none
  | .again => some false
  | .error => none

def afterWrite (c : TcpConnection δ) (is_all_write : Bool) : TcpConnection δ :=
  if is_all_write then { c with m_fd_event := { c.m_fd_event with out_event := false } } else c

def clearWriteDones (c : TcpConnection δ) : TcpConnection δ :=
  match c.m_connection_type with
  | .TcpConnectionByServer => c
  | .TcpConnectionByClient => { c with m_write_dones := [] }

end TcpConnection

end TinyRpc
