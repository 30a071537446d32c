import TinyRpc.Connection.Lifecycle
import TinyRpc.EventLoop.Owners

/-!
# The server

`tcp_server.cc`, with the io threads of `io_thread_group.cc` and their event
loops. The main thread accepts a client and gives it to an io thread. What the
main thread asks of the loop of an io thread is a task of that loop.
-/

namespace TinyRpc

open Function Lib Coder

/-! ## The io threads -/

structure IOThreadGroup where
  m_size : Int
  /-- How many threads there are. -/
  m_io_thread_groups : Nat
  m_index : Nat := 0

namespace IOThreadGroup

/-- `resize` throws on a negative size. -/
def new (size : Int) : Option IOThreadGroup :=
  if size < 0 then none else some { m_size := size, m_io_thread_groups := size.toNat }

/-- The number of the thread. There is none when the index is outside the vector. -/
def getIOThread (g : IOThreadGroup) : Option (Nat × IOThreadGroup) :=
  let m_index := if g.m_index = g.m_io_thread_groups ∨ g.m_size = -1 then 0 else g.m_index
  if m_index < g.m_io_thread_groups then some (m_index, { g with m_index := m_index + 1 })
  else none

end IOThreadGroup

/-! ## The model -/

/-- An epoll that has nothing registered yet. -/
def Kernel.fresh (opened : Finset Nat) : Kernel where
  opened
  epoll _ := none
  opened_of_epoll _ h := absurd h Bool.false_ne_true

namespace TcpServer

/-- A closure of `listen`, with the connection of its `this`. The server never
closes a descriptor, so a connection is known by its own. -/
inductive Callback where
  | onRead (fd : Nat)
  | onWrite (fd : Nat)
  deriving DecidableEq

def Callback.fd : Callback → Nat
  | .onRead fd | .onWrite fd => fd

inductive Task where
  /-- The closures that `addEpollEvent` and `deleteEpollEvent` queue. -/
  | addEpollEvent (fd : Nat)
  | deleteEpollEvent (fd : Nat)
  | callback (cb : Option Callback)
  deriving DecidableEq

def Task.fd : Task → Option Nat
  | .addEpollEvent fd | .deleteEpollEvent fd => some fd
  | .callback cb => cb.map Callback.fd

/-- One bit of the events that `epoll_wait` has returned. -/
inductive Ready where
  | event (fd : Nat) (event_type : TriggerEvent)
  | error (fd : Nat)
  deriving DecidableEq

def Ready.fd : Ready → Nat
  | .event fd _ | .error fd => fd

inductive Phase where
  | top
  | draining (tmp_tasks : List Task)
  | posting (events : List Ready)

/-- An io thread with its event loop. -/
structure IoThread where
  kernel : Kernel
  m_listen_fds : Finset Nat := ∅
  phase : Phase := .top
  m_pending_tasks : List Task := []

structure Callbacks where
  m_read_callback : Option Callback := none
  m_write_callback : Option Callback := none

def Callbacks.handle (cb : Callbacks) : TriggerEvent → Option Callback
  | .IN_EVENT => cb.m_read_callback
  | .OUT_EVENT => cb.m_write_callback

structure Connection where
  /-- The io thread of its `m_event_loop`. -/
  io_thread : Nat
  conn : TcpConnection Unit

end TcpServer

structure TcpServer where
  m_io_thread_group : IOThreadGroup
  io : Nat → TcpServer.IoThread
  fdEvents : Nat → FdEvent := fun _ => {}
  callbacks : Nat → TcpServer.Callbacks := fun _ => {}
  connections : Nat → Option TcpServer.Connection := fun _ => none
  /-- The connection that `onAccept` has made, until it is connected and in `m_client`. -/
  accepting : Option Nat := none
  m_client : List Nat := []
  /-- The descriptors that `EPOLLERR` was reported for. -/
  errors : List Nat := []

namespace TcpServer

def setIo (s : TcpServer) (k : Nat) (t : IoThread) : TcpServer := { s with io := update s.io k t }

def setConn (s : TcpServer) (fd : Nat) (c : Connection) : TcpServer :=
  { s with
    connections := update s.connections fd (some c)
    fdEvents := update s.fdEvents fd c.conn.m_fd_event }

def listen (s : TcpServer) (cb : Callback) (event_type : TriggerEvent) : TcpServer :=
  let old := s.callbacks cb.fd
  { s with callbacks := update s.callbacks cb.fd (match event_type with
      | .IN_EVENT => { old with m_read_callback := some cb }
      | .OUT_EVENT => { old with m_write_callback := some cb }) }

def addTask (s : TcpServer) (k : Nat) (task : Task) : TcpServer :=
  s.setIo k { s.io k with m_pending_tasks := (s.io k).m_pending_tasks ++ [task] }

/-- The event loop of an io thread. -/
def loop (s : TcpServer) (k : Nat) : EventLoop where
  kernel := (s.io k).kernel
  m_listen_fds := (s.io k).m_listen_fds
  fdEvents := s.fdEvents

def setLoop (s : TcpServer) (k : Nat) (l : EventLoop) : TcpServer :=
  s.setIo k { s.io k with kernel := l.kernel, m_listen_fds := l.m_listen_fds }

/-- `isInLoopThread()` compares the running thread with that of the loop.
There is no number for the main thread. -/
def addEpollEvent (s : TcpServer) (running : Option Nat) (k fd : Nat) : TcpServer :=
  if running = some k then s.setLoop k ((s.loop k).addEpollEvent fd)
  else s.addTask k (.addEpollEvent fd)

def deleteEpollEvent (s : TcpServer) (running : Option Nat) (k fd : Nat) : TcpServer :=
  if running = some k then s.setLoop k ((s.loop k).deleteEpollEvent fd)
  else s.addTask k (.deleteEpollEvent fd)

/-- `accept()` returns the lowest free descriptor. All threads have the same descriptors. -/
def accept (s : TcpServer) : Nat × TcpServer :=
  ((s.io 0).kernel.socket.1,
    { s with io := fun k => { s.io k with kernel := (s.io k).kernel.socket.2 } })

def Connection.new (io_thread : Nat) (event : FdEvent) : Connection where
  io_thread
  conn := { (TcpConnection.new 128 .TcpConnectionByServer : TcpConnection Unit) with
    m_fd_event := event.listen .IN_EVENT }

/-- The constructor of the connection, with its `listenRead`. The main thread runs it. -/
def newConnection (s : TcpServer) (k client_fd : Nat) : TcpServer :=
  ((s.setConn client_fd (.new k (s.fdEvents client_fd))).listen
    (.onRead client_fd) .IN_EVENT).addEpollEvent none k client_fd

def take (s : TcpServer) (client_fd : Nat) (m_io_thread_group : IOThreadGroup) : TcpServer :=
  { s with m_io_thread_group, accepting := some client_fd }

/-- `onAccept` up to the end of the constructor of the connection. -/
def onAccept (s : TcpServer) : Option TcpServer := do
  let (k, m_io_thread_group) ← s.m_io_thread_group.getIOThread
  return (s.accept.2.take s.accept.1 m_io_thread_group).newConnection k s.accept.1

/-- The rest of `onAccept`. -/
def connected (s : TcpServer) : Option TcpServer := do
  let client_fd ← s.accepting
  let c ← s.connections client_fd
  return { s.setConn client_fd { c with conn := c.conn.setState .Connected } with
    accepting := none, m_client := s.m_client ++ [client_fd] }

/-- What the world gives to a callback. -/
structure Input where
  reads : List ReadResult
  turns : Nat
  dispatch : TinyPBProtocol → TinyPBProtocol
  writes : List WriteResult

/-- `onRead`, on the thread `k`. -/
def onRead (s : TcpServer) (k fd : Nat) (c : Connection) (input : Input) : Option TcpServer :=
  if c.conn.m_state ≠ .Connected then some s
  else do
    let out ← c.conn.onRead input.reads
    if out.excutes then do
      let (conn, _) ← out.conn.excute input.turns input.dispatch
      return ((s.setConn fd { c with conn }).listen (.onWrite fd) .OUT_EVENT).addEpollEvent
        (some k) c.io_thread fd
    else
      return (s.setConn fd { c with conn := out.conn }).deleteEpollEvent (some k) c.io_thread fd

def onWrite (s : TcpServer) (k fd : Nat) (c : Connection) (input : Input) : Option TcpServer :=
  if c.conn.m_state ≠ .Connected then some s
  else do
    let is_all_write ← c.conn.writeLoop input.writes
    let conn := c.conn.afterWrite is_all_write
    return if is_all_write then
      (s.setConn fd { c with conn }).addEpollEvent (some k) c.io_thread fd
    else s.setConn fd { c with conn }

/-- A task that the thread `k` runs. -/
def run (s : TcpServer) (k : Nat) (input : Input) : Task → Option TcpServer
  | .addEpollEvent fd => some (s.setLoop k ((s.loop k).addEpollEvent fd))
  | .deleteEpollEvent fd => some (s.setLoop k ((s.loop k).deleteEpollEvent fd))
  | .callback none => some s
  | .callback (some (.onRead fd)) => do s.onRead k fd (← s.connections fd) input
  | .callback (some (.onWrite fd)) => do s.onWrite k fd (← s.connections fd) input

/-- What the loop does with a bit of `epoll_wait`. There is no error callback. -/
def post (s : TcpServer) (k : Nat) : Ready → TcpServer
  | .event fd event_type => s.addTask k (.callback ((s.callbacks fd).handle event_type))
  | .error fd => { s.deleteEpollEvent (some k) k fd with errors := fd :: s.errors }

/-- The bits that the kernel can report: those that were asked for, and errors. -/
def reported (t : IoThread) : Ready → Bool
  | .event fd event_type => (t.kernel.epoll fd).any (·.enabled event_type)
  | .error fd => (t.kernel.epoll fd).isSome

inductive Op where
  | accept
  | connected
  | swap (k : Nat)
  | runTask (k : Nat) (input : Input)
  | epoll_wait (k : Nat) (events : List Ready)
  | post (k : Nat)
  | again (k : Nat)

def next (s : TcpServer) : Op → Option TcpServer
  | .accept => if s.accepting = none then s.onAccept else none
  | .connected => s.connected
  | .swap k =>
    match (s.io k).phase with
    | .top => some (s.setIo k { s.io k with
        phase := .draining (s.io k).m_pending_tasks, m_pending_tasks := [] })
    | _ => none
  | .runTask k input =>
    match (s.io k).phase with
    | .draining (task :: tmp_tasks) =>
      (s.setIo k { s.io k with phase := .draining tmp_tasks }).run k input task
    | _ => none
  | .epoll_wait k events =>
    match (s.io k).phase with
    | .draining [] =>
      if events.all (reported (s.io k)) then
        some (s.setIo k { s.io k with phase := .posting events })
      else none
    | _ => none
  | .post k =>
    match (s.io k).phase with
    | .posting (r :: events) =>
      some ((s.setIo k { s.io k with phase := .posting events }).post k r)
    | _ => none
  | .again k =>
    match (s.io k).phase with
    | .posting [] => some (s.setIo k { s.io k with phase := .top })
    | _ => none

/-- A new process, with the descriptors that it has opened before it accepts. -/
def start (s : TcpServer) : Prop :=
  ∃ size opened, ∃ g ∈ IOThreadGroup.new size,
    s = { m_io_thread_group := g, io := fun _ => { kernel := Kernel.fresh opened } }

def system : System TcpServer Op where
  start := start
  step s e t := s.next e = some t

end TcpServer

end TinyRpc
