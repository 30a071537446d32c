import TinyRpc.Rpc.ExactlyOnce
import TinyRpc.Server.Confinement

/-!
# The server and its clients

A client at the other end of each descriptor of the server. Each of them has a
session of its own, whatever the threads of the server and the other clients do.
-/

namespace TinyRpc

open Function Lib Coder RpcDispatcher

/-! ## The model -/

/-- A client, with the bytes between it and the server. -/
structure Peer where
  client : TcpConnection TinyPBProtocol :=
    Session.connected TinyPBProtocol .TcpConnectionByClient
  requests : List TinyPBProtocol := []
  toServer : Bytes := []
  toClient : Bytes := []
  invoked : List (TinyPBProtocol × TinyPBProtocol) := []

/-- A client is known by the descriptor that `accept()` returns for it. It may
write before that. -/
structure Network where
  server : TcpServer
  peers : Nat → Peer := fun _ => {}

def Peer.session (p : Peer) (server : TcpConnection Unit) : Session where
  client := p.client
  server := server
  requests := p.requests
  toServer := p.toServer
  toClient := p.toClient
  invoked := p.invoked

namespace Session

def peer (s : Session) : Peer where
  client := s.client
  requests := s.requests
  toServer := s.toServer
  toClient := s.toClient
  invoked := s.invoked

def Op.ofClient : Op → Bool
  | .call _ | .clientWrite _ | .clientRead _ _ => true
  | .serverRead _ _ | .serverWrite _ => false

theorem next_ofClient {dispatch : TinyPBProtocol → TinyPBProtocol} {s t : Session}
    {op : Op} (hclient : op.ofClient) (h : s.next dispatch op = some t) : t.server = s.server := by
  cases op with
  | call message =>
    obtain rfl := Option.some.inj h
    rfl
  | clientWrite rts =>
    obtain ⟨⟨client, l⟩, -, h⟩ := Option.bind_eq_some_iff.mp h
    obtain rfl := Option.some.inj h
    rfl
  | clientRead rts turns =>
    obtain ⟨⟨client, calls, toClient⟩, -, h⟩ := Option.bind_eq_some_iff.mp h
    obtain rfl := Option.some.inj h
    rfl
  | serverRead rts turns => simp [Op.ofClient] at hclient
  | serverWrite rts => simp [Op.ofClient] at hclient

end Session

namespace TcpServer

/-- What a callback is in the session of its client. -/
def Callback.op (input : Input) : Callback → Session.Op
  | .onRead _ => .serverRead input.reads input.turns
  | .onWrite _ => .serverWrite input.writes

/-- What an operation is in a session: a callback of a connection that is connected. -/
def called (s : TcpServer) : Op → Option (Nat × Session.Op)
  | .runTask k input =>
    match (s.io k).phase with
    | .draining (.callback (some cb) :: _) => do
      let c ← s.connections cb.fd
      if c.conn.m_state = .Connected then some (cb.fd, cb.op input) else none
    | _ => none
  | _ => none

/-- All threads have the same dispatcher. -/
def Op.answering (dispatch : TinyPBProtocol → TinyPBProtocol) : Op → Op
  | .runTask k input => .runTask k { input with dispatch }
  | op => op

/-- The connection of a client, as `onAccept` leaves it. -/
def serverEnd (s : TcpServer) (fd : Nat) : TcpConnection Unit :=
  match s.connections fd with
  | none => Session.connected Unit .TcpConnectionByServer
  | some c => if c.conn.m_state = .NotConnected then c.conn.setState .Connected else c.conn

end TcpServer

namespace Network

inductive Op where
  | client (fd : Nat) (op : Session.Op)
  | server (op : TcpServer.Op)

def session (n : Network) (fd : Nat) : Session :=
  (n.peers fd).session (n.server.serverEnd fd)

/-- What an operation is in a session, if it is something in one. -/
def acts (n : Network) : Op → Option (Nat × Session.Op)
  | .client fd op => some (fd, op)
  | .server op => n.server.called op

def moved (dispatch : TinyPBProtocol → TinyPBProtocol) (n : Network) :
    Op → Option TcpServer
  | .client _ op => if op.ofClient then some n.server else none
  | .server op => n.server.next (op.answering dispatch)

/-- The server makes its own step. The bytes and the client are those of the session. -/
def next (dispatch : TinyPBProtocol → TinyPBProtocol) (n : Network) (op : Op) :
    Option Network := do
  let server ← n.moved dispatch op
  match n.acts op with
  | none => return { n with server }
  | some (fd, sop) =>
    let s ← (n.session fd).next dispatch sop
    return { server, peers := update n.peers fd s.peer }

def system (dispatch : TinyPBProtocol → TinyPBProtocol) : System Network Op where
  start n := TcpServer.system.start n.server ∧ n.peers = fun _ => {}
  step n op m := n.next dispatch op = some m

/-- What is asked of each session. -/
def Orderly {μ : Type} (m_service_map : Registry μ) (n : Network) (op : Op) : Prop :=
  ∀ fd sop, n.acts op = some (fd, sop) → Session.Orderly m_service_map (n.session fd) sop

end Network

/-! ## What a step of the server does to a connection -/

namespace TcpServer

variable {s t : TcpServer} {op : Op} {k fd : Nat} {c : Connection} {input : Input}
  {dispatch : TinyPBProtocol → TinyPBProtocol} {sop : Session.Op} {x x' : Session}

theorem serverEnd_congr (h : t.connections fd = s.connections fd) :
    t.serverEnd fd = s.serverEnd fd := by
  unfold serverEnd
  rw [h]

theorem serverEnd_eq (hconn : s.connections fd = some c)
    (hstate : c.conn.m_state ≠ .NotConnected) : s.serverEnd fd = c.conn := by
  unfold serverEnd
  rw [hconn]
  exact if_neg hstate

theorem addEpollEvent_connections (s : TcpServer) (running : Option Nat) (k fd : Nat) :
    (s.addEpollEvent running k fd).connections = s.connections := by
  unfold addEpollEvent
  split <;> rfl

theorem deleteEpollEvent_connections (s : TcpServer) (running : Option Nat) (k fd : Nat) :
    (s.deleteEpollEvent running k fd).connections = s.connections := by
  unfold deleteEpollEvent
  split <;> rfl

theorem post_connections (s : TcpServer) (k : Nat) (r : Ready) :
    (s.post k r).connections = s.connections := by
  cases r with
  | event fd event_type => rfl
  | error fd => exact deleteEpollEvent_connections s (some k) k fd

/-! ### The callbacks -/

theorem onRead_conn {stream rest : Bytes} {conn : TcpConnection Unit}
    {calls : List (Unit × TinyPBProtocol)}
    (hserver : c.conn.m_connection_type = .TcpConnectionByServer)
    (hstate : c.conn.m_state = .Connected) (ht : s.onRead k fd c input = some t)
    (hread : c.conn.read stream input.reads input.turns input.dispatch =
      some (conn, calls, rest)) :
    t.connections = update s.connections fd (some { c with conn }) ∧
      conn.m_state ≠ .NotConnected := by
  unfold onRead at ht
  rw [if_neg (not_not.mpr hstate)] at ht
  unfold TcpConnection.read at hread
  obtain ⟨out, hout, ht⟩ := Option.bind_eq_some_iff.mp ht
  simp only [hout, Option.bind_eq_bind, Option.bind_some] at hread
  obtain ⟨-, hread⟩ := Option.ite_none_right_eq_some.mp hread
  obtain ⟨hexcutes, m_in_buffer, hc'⟩ | ⟨hexcutes, m_in_buffer, hc'⟩ := onRead_cases hstate hout
  · rw [if_pos hexcutes] at ht hread
    obtain ⟨⟨conn', calls'⟩, hexcute, hread⟩ := Option.bind_eq_some_iff.mp hread
    obtain ⟨rfl, -⟩ := Prod.mk.inj (Option.some.inj hread)
    simp only [hexcute, Option.bind_eq_bind, Option.bind_some] at ht
    obtain rfl := Option.some.inj ht
    refine ⟨addEpollEvent_connections _ _ _ _, ?_⟩
    rw [(excute_server (by simpa [hc'] using hserver) hexcute).1]
    simp [hc', hstate]
  · rw [if_neg (by simp [hexcutes])] at ht hread
    obtain ⟨rfl, -⟩ := Prod.mk.inj (Option.some.inj hread)
    obtain rfl := Option.some.inj ht
    exact ⟨deleteEpollEvent_connections _ _ _ _, by simp [hc']⟩

theorem onWrite_conn {conn : TcpConnection Unit} {l : Bytes}
    (hserver : c.conn.m_connection_type = .TcpConnectionByServer)
    (hstate : c.conn.m_state = .Connected) (ht : s.onWrite k fd c input = some t)
    (hwrite : c.conn.write input.writes = some (conn, l)) :
    t.connections = update s.connections fd (some { c with conn }) ∧
      conn.m_state ≠ .NotConnected := by
  unfold onWrite at ht
  rw [if_neg (not_not.mpr hstate)] at ht
  unfold TcpConnection.write at hwrite
  rw [if_neg (not_not.mpr hstate)] at hwrite
  simp only [TcpConnection.beforeWrite, hserver, Option.bind_eq_bind, Option.bind_some] at hwrite
  obtain ⟨is_all_write, hloop, hwrite⟩ := Option.bind_eq_some_iff.mp hwrite
  obtain ⟨rfl, -⟩ := Prod.mk.inj (Option.some.inj hwrite)
  simp only [hloop, Option.bind_eq_bind, Option.bind_some] at ht
  obtain rfl := Option.some.inj ht
  cases is_all_write with
  | true => exact ⟨addEpollEvent_connections _ _ _ _, by simp [TcpConnection.afterWrite, hstate]⟩
  | false => exact ⟨rfl, by simp [TcpConnection.afterWrite, hstate]⟩

theorem callback_conn {cb : Callback}
    (hserver : c.conn.m_connection_type = .TcpConnectionByServer)
    (hconn : s.connections cb.fd = some c) (hstate : c.conn.m_state = .Connected)
    (ht : s.run k input (.callback (some cb)) = some t) (hx : x.server = c.conn)
    (hnext : x.next input.dispatch (cb.op input) = some x') :
    t.connections = update s.connections cb.fd (some { c with conn := x'.server }) ∧
      x'.server.m_state ≠ .NotConnected := by
  cases cb with
  | onRead fd =>
    simp only [run, Callback.fd] at ht hconn
    simp only [hconn, Option.bind_eq_bind, Option.bind_some] at ht
    obtain ⟨⟨conn, calls, rest⟩, hread, hnext⟩ := Option.bind_eq_some_iff.mp hnext
    obtain rfl := Option.some.inj hnext
    rw [hx] at hread
    exact onRead_conn hserver hstate ht hread
  | onWrite fd =>
    simp only [run, Callback.fd] at ht hconn
    simp only [hconn, Option.bind_eq_bind, Option.bind_some] at ht
    obtain ⟨⟨conn, l⟩, hwrite, hnext⟩ := Option.bind_eq_some_iff.mp hnext
    obtain rfl := Option.some.inj hnext
    rw [hx] at hwrite
    exact onWrite_conn hserver hstate ht hwrite

theorem callback_refused {cb : Callback} (hconn : s.connections cb.fd = some c)
    (hstate : c.conn.m_state ≠ .Connected)
    (ht : s.run k input (.callback (some cb)) = some t) : t = s := by
  cases cb with
  | onRead fd =>
    simp only [run, Callback.fd] at ht hconn
    simp only [hconn, Option.bind_eq_bind, Option.bind_some, onRead, if_pos hstate] at ht
    exact (Option.some.inj ht).symm
  | onWrite fd =>
    simp only [run, Callback.fd] at ht hconn
    simp only [hconn, Option.bind_eq_bind, Option.bind_some, onWrite, if_pos hstate] at ht
    exact (Option.some.inj ht).symm

/-! ### The operations -/

theorem called_cases (h : s.called op = some (fd, sop)) :
    ∃ k input cb c tmp_tasks, op = .runTask k input ∧ cb.fd = fd ∧ cb.op input = sop ∧
      (s.io k).phase = .draining (.callback (some cb) :: tmp_tasks) ∧
      s.connections fd = some c ∧ c.conn.m_state = .Connected := by
  unfold called at h
  split at h
  · split at h
    · rename_i k input _ cb tmp_tasks hphase
      obtain ⟨c, hconn, h⟩ := Option.bind_eq_some_iff.mp h
      obtain ⟨hstate, h⟩ := Option.ite_none_right_eq_some.mp h
      obtain ⟨rfl, rfl⟩ := Prod.mk.inj (Option.some.inj h)
      exact ⟨k, input, cb, c, tmp_tasks, rfl, rfl, rfl, hphase, hconn, hstate⟩
    · simp at h
  · simp at h

theorem called_runTask {task : Task} (hfirst : (s.io k).tasks.head? = some task)
    (h : s.called (.runTask k input) = some (fd, sop)) :
    ∃ cb, task = .callback (some cb) ∧ cb.fd = fd ∧ cb.op input = sop := by
  obtain ⟨k', _, cb, c, tmp_tasks, hop, hfd, hsop, hphase, -⟩ := called_cases h
  obtain ⟨rfl, rfl⟩ := Op.runTask.inj hop
  simp only [IoThread.tasks, hphase] at hfirst
  exact ⟨cb, (Option.some.inj hfirst).symm, hfd, hsop⟩

theorem next_runTask {task : Task} {tmp_tasks : List Task}
    (hphase : (s.io k).phase = .draining (task :: tmp_tasks))
    (h : s.next (.runTask k input) = some t) :
    (s.pop k tmp_tasks).run k input task = some t := by
  simp only [next, hphase] at h
  exact h

/-- A callback does to its connection what it does in the session, and nothing to the others. -/
theorem next_called (hinv : Invariant s) (hcalled : s.called op = some (fd, sop))
    (h : s.next (op.answering dispatch) = some t) (hx : x.server = s.serverEnd fd)
    (hnext : x.next dispatch sop = some x') (n : Nat) :
    t.serverEnd n = if n = fd then x'.server else s.serverEnd n := by
  obtain ⟨k, input, cb, c, tmp_tasks, rfl, rfl, rfl, hphase, hconn, hstate⟩ := called_cases hcalled
  have hserver := ((hinv.good cb.fd).of_conn hconn).server
  rw [serverEnd_eq hconn (by simp [hstate])] at hx
  obtain ⟨hconns, hstate'⟩ := callback_conn (s := s.pop k tmp_tasks) hserver hconn hstate
    (next_runTask hphase h) hx hnext
  split
  · rename_i hn
    have hconn' : t.connections n = some { c with conn := x'.server } := by
      rw [hconns, hn, update_self]
    exact serverEnd_eq hconn' hstate'
  · rename_i hn
    apply serverEnd_congr
    rw [hconns, update_of_ne hn]
    rfl

theorem onAccept_serverEnd (hinv : Invariant s) (h : s.onAccept = some t) (n : Nat) :
    t.serverEnd n = s.serverEnd n := by
  obtain ⟨⟨k, g⟩, -, h⟩ := Option.bind_eq_some_iff.mp h
  obtain rfl := Option.some.inj h
  by_cases hn : n = s.accept.1
  · subst hn
    have hfresh := accept_fresh (hinv.good s.accept.1)
    have huntouched := hinv.good s.accept.1
    unfold Good at huntouched
    rw [hfresh] at huntouched
    have hevent : s.fdEvents s.accept.1 = {} := huntouched.event
    have hview := view_newConnection (s.accept.2.take s.accept.1 g) k s.accept.1
    have hconn : ((s.accept.2.take s.accept.1 g).newConnection k s.accept.1).connections
        s.accept.1 = some (.new k (s.fdEvents s.accept.1)) := congrArg View.conn hview
    unfold serverEnd
    rw [hconn, hfresh, hevent]
    rfl
  · exact serverEnd_congr (congrArg View.conn (newConnection_ne hn))

theorem connected_serverEnd (hinv : Invariant s) (h : s.connected = some t) (n : Nat) :
    t.serverEnd n = s.serverEnd n := by
  obtain ⟨fd, hfd, h⟩ := Option.bind_eq_some_iff.mp h
  obtain ⟨c, hconn, h⟩ := Option.bind_eq_some_iff.mp h
  obtain rfl := Option.some.inj h
  obtain ⟨c', hconn', hstate⟩ := hinv.accepting fd hfd
  obtain rfl := Option.some.inj (hconn.symm.trans hconn')
  by_cases hn : n = fd
  · subst hn
    simp [serverEnd, setConn, hconn, hstate, TcpConnection.setState]
  · apply serverEnd_congr
    simp [setConn, update_of_ne hn]

theorem next_quiet (hinv : Invariant s) (hcalled : s.called op = none)
    (h : s.next (op.answering dispatch) = some t) (n : Nat) : t.serverEnd n = s.serverEnd n := by
  cases op with
  | accept => exact onAccept_serverEnd hinv (Option.ite_none_right_eq_some.mp h).2 n
  | connected => exact connected_serverEnd hinv h n
  | runTask k input =>
    apply serverEnd_congr
    cases hphase : (s.io k).phase with
    | top | posting events => simp [Op.answering, next, hphase] at h
    | draining tmp_tasks =>
      cases tmp_tasks with
      | nil => simp [Op.answering, next, hphase] at h
      | cons task tmp_tasks =>
        have ht := next_runTask hphase h
        cases task with
        | addEpollEvent fd | deleteEpollEvent fd =>
          obtain rfl := Option.some.inj ht
          rfl
        | callback cb =>
          cases cb with
          | none =>
            obtain rfl := Option.some.inj ht
            rfl
          -- A callback that is nothing in a session has found its connection not connected.
          | some cb =>
            obtain ⟨c, hconn, -⟩ := pop_called (hinv.good cb.fd) rfl hphase
            replace hconn : s.connections cb.fd = some c := hconn
            have hstate : c.conn.m_state ≠ .Connected := by
              simpa [called, hphase, hconn] using hcalled
            rw [callback_refused (s := s.pop k tmp_tasks) hconn hstate ht]
            rfl
  | swap k | again k =>
    simp only [Op.answering, next] at h
    split at h
    · obtain rfl := Option.some.inj h
      rfl
    · simp at h
  | epoll_wait k events =>
    simp only [Op.answering, next] at h
    split at h
    · obtain rfl := Option.some.inj (Option.ite_none_right_eq_some.mp h).2
      rfl
    · simp at h
  | post k =>
    simp only [Op.answering, next] at h
    split at h
    · obtain rfl := Option.some.inj h
      exact serverEnd_congr (congrFun (post_connections _ _ _) n)
    · simp at h

end TcpServer

/-! ## Each client has a session of its own -/

namespace Network

variable {n m : Network} {op : Op} {fd : Nat} {es : List Op}
  {dispatch : TinyPBProtocol → TinyPBProtocol}

theorem next_cases (h : n.next dispatch op = some m) :
    n.moved dispatch op = some m.server ∧ (n.acts op = none ∧ m.peers = n.peers ∨
      ∃ fd sop s, n.acts op = some (fd, sop) ∧ (n.session fd).next dispatch sop = some s ∧
        m.peers = update n.peers fd s.peer) := by
  unfold next at h
  obtain ⟨server, hmoved, h⟩ := Option.bind_eq_some_iff.mp h
  split at h
  · rename_i hacts
    obtain rfl := Option.some.inj h
    exact ⟨hmoved, Or.inl ⟨hacts, rfl⟩⟩
  · rename_i fd sop hacts
    obtain ⟨s, hs, h⟩ := Option.bind_eq_some_iff.mp h
    obtain rfl := Option.some.inj h
    exact ⟨hmoved, Or.inr ⟨fd, sop, s, hacts, hs, rfl⟩⟩

theorem server_run (hrun : (system dispatch).Run es n) :
    ∃ fs, TcpServer.system.Run fs n.server := by
  refine hrun.component (A := TcpServer.system) Network.server (fun _ h => h.1) ?_
  intro es n op m _ hstep
  obtain ⟨hmoved, -⟩ := next_cases hstep
  cases op with
  | client fd op => exact Or.inl (Option.some.inj (Option.ite_none_right_eq_some.mp hmoved).2).symm
  | server op => exact Or.inr ⟨op.answering dispatch, hmoved⟩

theorem next_session (hinv : TcpServer.Invariant n.server) (h : n.next dispatch op = some m)
    (fd : Nat) : m.session fd = n.session fd ∨
      ∃ sop, n.acts op = some (fd, sop) ∧
        (n.session fd).next dispatch sop = some (m.session fd) := by
  obtain ⟨hmoved, ⟨hacts, hpeers⟩ | ⟨fd', sop, s, hacts, hs, hpeers⟩⟩ := next_cases h
  · -- Only the server can do something that is nothing in a session.
    left
    cases op with
    | client fd op => simp [acts] at hacts
    | server op =>
      have hend := TcpServer.next_quiet hinv hacts hmoved fd
      simp [session, hpeers, hend]
  · have hend (k : Nat) : m.server.serverEnd k =
        if k = fd' then s.server else n.server.serverEnd k := by
      cases op with
      | client fd'' op =>
        obtain ⟨hclient, hserver⟩ := Option.ite_none_right_eq_some.mp hmoved
        obtain ⟨rfl, rfl⟩ := Prod.mk.inj (Option.some.inj hacts)
        rw [Session.next_ofClient hclient hs, ← Option.some.inj hserver]
        split
        · rename_i hk
          rw [hk]
          rfl
        · rfl
      | server op => exact TcpServer.next_called hinv hacts hmoved rfl hs k
    by_cases hfd : fd = fd'
    · subst hfd
      refine Or.inr ⟨sop, hacts, ?_⟩
      rw [hs]
      simp only [session, hpeers, update_self, hend, if_true]
      rfl
    · left
      simp [session, hpeers, hend, hfd]

variable {μ : Type} {m_service_map : Registry μ}

/-- Whatever the threads and the other clients do, each client is in a run of one session. -/
theorem sessions_run
    (hrun : ((system (Session.reply m_service_map)).restrict (Orderly m_service_map)).Run es n)
    (fd : Nat) : ∃ fs, ((Session.system (Session.reply m_service_map)).restrict
      (Session.Orderly m_service_map)).Run fs (n.session fd) := by
  refine hrun.component (fun n => n.session fd) ?_ ?_
  · rintro n ⟨⟨size, opened, g, -, hserver⟩, hpeers⟩
    simp only [session, hserver, hpeers]
    rfl
  · intro es n op m hrun hstep
    obtain ⟨fs, hserver⟩ := server_run hrun.of_restrict
    obtain hsame | ⟨sop, hacts, hnext⟩ :=
      next_session (TcpServer.run_invariant hserver) hstep.2 fd
    · exact Or.inl hsame
    · exact Or.inr ⟨sop, hstep.1 fd sop hacts, hnext⟩

/-! ## Every client is served -/

/-- There is nothing more to do for a client that the server has accepted: its thread has
no task for it, and epoll no event. -/
structure AtRest (n : Network) (fd : Nat) (c : TcpServer.Connection) : Prop where
  accepted : n.server.connections fd = some c
  connected : c.conn.m_state = .Connected
  errors : fd ∉ n.server.errors
  tasks : ∀ task ∈ (n.server.io c.io_thread).tasks, task.fd ≠ some fd
  readable : TcpServer.reported (n.server.io c.io_thread) (.event fd .IN_EVENT) →
    (n.peers fd).toServer = []
  writable : ¬ TcpServer.reported (n.server.io c.io_thread) (.event fd .OUT_EVENT)
  client : (n.peers fd).client.m_fd_event.out_event = false ∧ (n.peers fd).toClient = []

theorem AtRest.quiet {c : TcpServer.Connection} (h : n.AtRest fd c)
    (hinv : TcpServer.Invariant n.server) : (n.session fd).Quiet := by
  have hreg := ((hinv.good fd).of_conn h.accepted).registered
  have hopen : c.conn.m_state ≠ .Closed := by simp [h.connected]
  have hepoll : (n.server.io c.io_thread).kernel.epoll fd = some c.conn.m_fd_event :=
    (hreg.registered hopen h.errors).resolve_right fun htask => h.tasks _ htask rfl
  have hend : n.server.serverEnd fd = c.conn :=
    TcpServer.serverEnd_eq h.accepted (by simp [h.connected])
  refine ⟨h.client.1, ?_, h.readable ?_, h.client.2⟩
  · have hwritable := h.writable
    simp only [session, Peer.session, hend]
    simpa [TcpServer.reported, hepoll, FdEvent.enabled] using hwritable
  · simp [TcpServer.reported, hepoll, FdEvent.enabled, hreg.reading hopen]

/-- Each client is in a run of one session: it gets no answer twice, or one that is not
for its own request, and when there is nothing more to do for it, it has all its answers. -/
theorem clients_served
    (hrun : ((system (Session.reply m_service_map)).restrict (Orderly m_service_map)).Run es n)
    (fd : Nat) :
    (∃ fs, ((Session.system (Session.reply m_service_map)).restrict
      (Session.Orderly m_service_map)).Run fs (n.session fd)) ∧
    ((n.peers fd).invoked.map Prod.fst).Nodup ∧
    (∀ c ∈ (n.peers fd).invoked,
      c.1 ∈ (n.peers fd).requests ∧ Session.Answered m_service_map c.1 c.2) ∧
    ((∃ c, n.AtRest fd c) →
      ∀ request ∈ (n.peers fd).requests, request ∈ (n.peers fd).invoked.map Prod.fst) := by
  obtain ⟨fs, hserver⟩ := server_run hrun.of_restrict
  obtain ⟨gs, hsession⟩ := sessions_run hrun fd
  obtain ⟨a, hkept, hstands⟩ := Session.run_stands hsession
  refine ⟨⟨gs, hsession⟩, ?_, fun c hc => hstands.answered hkept hc, ?_⟩
  · have hinvoked : (n.peers fd).invoked.map Prod.fst = a.done := hstands.invoked_eq
    rw [hinvoked]
    exact hkept.once
  · rintro ⟨c, hrest⟩
    exact hstands.all_answered hkept (hrest.quiet (TcpServer.run_invariant hserver))

/-! ## Two clients with one message id -/

def input (reads : List ReadResult) (writes : List WriteResult) : TcpServer.Input where
  reads
  turns := 2
  dispatch := id
  writes

/-- The server has not come to the second client yet. -/
def two : List Op :=
  [.server .accept, .server .connected, .server .accept, .server .connected,
    .client 3 (.call request), .client 4 (.call request),
    .client 4 (.clientWrite [.accepted 52]), .client 3 (.clientWrite [.accepted 52]),
    .server (.swap 0), .server (.runTask 0 (input [] [])),
    .server (.epoll_wait 0 [.event 3 .IN_EVENT]), .server (.post 0), .server (.again 0),
    .server (.swap 0), .server (.runTask 0 (input [.bytes (wire [request])] [])),
    .server (.epoll_wait 0 [.event 3 .OUT_EVENT]), .server (.post 0), .server (.again 0),
    .server (.swap 0), .server (.runTask 0 (input [] [.accepted 52])),
    .client 3 (.clientRead [.bytes (wire [Session.echoed request])] 2)]

def serving : Network where
  server := TcpServer.serving

theorem two_orderly : ∀ i (hi : i < two.length) u,
    (two.take i).foldlM (next Session.echoed) serving = some u →
      Orderly (registry [Session.echo]) u two[i] := by
  have hcall {s : Session} (h : s.requests = []) :
      Session.Orderly (registry [Session.echo]) s (.call request) := by
    refine ⟨⟨by decide +kernel, by decide +kernel, by decide +kernel⟩, ?_⟩
    simp [h]
  intro i hi u hu fd sop hacts
  have hfirst (task : TcpServer.Task)
      (h : ((two.take i).foldlM (next Session.echoed) serving).map
        (fun n => (n.server.io 0).tasks.head?) = some (some task)) :
      (u.server.io 0).tasks.head? = some task :=
    System.view_eq (fun n => (n.server.io 0).tasks.head?) h hu
  have hi' : i < 21 := hi
  interval_cases i
  -- These are no operations of a session.
  all_goals try exact absurd hacts (Option.some_ne_none (fd, sop)).symm
  · obtain ⟨rfl, rfl⟩ := Prod.mk.inj (Option.some.inj hacts)
    exact hcall (System.view_eq (fun n => (n.session 3).requests) (by decide +kernel) hu)
  · obtain ⟨rfl, rfl⟩ := Prod.mk.inj (Option.some.inj hacts)
    exact hcall (System.view_eq (fun n => (n.session 4).requests) (by decide +kernel) hu)
  · obtain ⟨rfl, rfl⟩ := Prod.mk.inj (Option.some.inj hacts)
    exact Session.clientWrite_orderly (System.view_eq
      (fun n => (n.session 4).client.beforeWrite.map (·.m_out_buffer.readAble))
      (by decide +kernel) hu)
  · obtain ⟨rfl, rfl⟩ := Prod.mk.inj (Option.some.inj hacts)
    exact Session.clientWrite_orderly (System.view_eq
      (fun n => (n.session 3).client.beforeWrite.map (·.m_out_buffer.readAble))
      (by decide +kernel) hu)
  · obtain ⟨cb, hcb, -⟩ :=
      TcpServer.called_runTask (hfirst (.addEpollEvent 3) (by decide +kernel)) hacts
    simp at hcb
  · obtain ⟨cb, hcb, rfl, rfl⟩ :=
      TcpServer.called_runTask (hfirst (.callback (some (.onRead 3))) (by decide +kernel)) hacts
    obtain rfl := Option.some.inj (TcpServer.Task.callback.inj hcb)
    exact ⟨_, Session.readsFrames_new
      (System.view_eq (fun n => (n.session 3).server.m_in_buffer) (by decide +kernel) hu)
      (by decide +kernel) (by decide +kernel) (by decide +kernel)⟩
  · obtain ⟨cb, hcb, rfl, rfl⟩ :=
      TcpServer.called_runTask (hfirst (.callback (some (.onWrite 3))) (by decide +kernel)) hacts
    obtain rfl := Option.some.inj (TcpServer.Task.callback.inj hcb)
    exact TcpConnection.writesWhole_once (System.view_eq
      (fun n => (n.session 3).server.m_out_buffer.readAble) (by decide +kernel) hu)
  · obtain ⟨rfl, rfl⟩ := Prod.mk.inj (Option.some.inj hacts)
    exact ⟨_, Session.readsFrames_new
      (System.view_eq (fun n => (n.session 3).client.m_in_buffer) (by decide +kernel) hu)
      (by decide +kernel) (by decide +kernel) (by decide +kernel)⟩

theorem clients_served_two : ∃ n : Network,
    ((∃ c, n.AtRest 3 c) ∧ (n.peers 4).toServer = wire [request] ∧
      (n.peers 3).invoked = [(request, received (Session.echoed request))]) ∧
    (∃ fs, ((Session.system Session.echoed).restrict
      (Session.Orderly (registry [Session.echo]))).Run fs (n.session 3)) ∧
    ((n.peers 3).invoked.map Prod.fst).Nodup ∧
    (∀ c ∈ (n.peers 3).invoked,
      c.1 ∈ (n.peers 3).requests ∧ Session.Answered (registry [Session.echo]) c.1 c.2) ∧
    ((∃ c, n.AtRest 3 c) →
      ∀ request ∈ (n.peers 3).requests, request ∈ (n.peers 3).invoked.map Prod.fst) := by
  have hconn : ((two.foldlM (next Session.echoed) serving).bind fun n =>
      (n.server.connections 3).map fun c => (c.io_thread, c.conn.m_state)) =
      some (0, .Connected) := by
    decide +kernel
  have hserver : (two.foldlM (next Session.echoed) serving).map (fun n =>
      (n.server.errors, (n.server.io 0).tasks, (n.server.io 0).kernel.epoll 3)) =
      some ([], [], some { in_event := true }) := by
    decide +kernel
  have hbytes : (two.foldlM (next Session.echoed) serving).map (fun n =>
      ((n.peers 3).toServer, (n.peers 3).toClient, (n.peers 4).toServer)) =
      some ([], [], wire [request]) := by
    decide +kernel
  have hclient : (two.foldlM (next Session.echoed) serving).map (fun n =>
      ((n.peers 3).client.m_fd_event.out_event, (n.peers 3).invoked)) =
      some (false, [(request, received (Session.echoed request))]) := by
    decide +kernel
  obtain ⟨n, hn, hserver⟩ := Option.map_eq_some_iff.mp hserver
  rw [hn] at hconn hbytes hclient
  obtain ⟨c, hc, hstate⟩ := Option.map_eq_some_iff.mp hconn
  simp only [Prod.mk.injEq, Option.map_some, Option.some.injEq] at hserver hbytes hclient hstate
  obtain ⟨herrors, htasks, hepoll⟩ := hserver
  obtain ⟨htoServer, htoClient, hother⟩ := hbytes
  obtain ⟨hout, hinvoked⟩ := hclient
  obtain ⟨hthread, hstate⟩ := hstate
  have hrest : n.AtRest 3 c := by
    refine ⟨hc, hstate, by simp [herrors], ?_, fun _ => htoServer, ?_, hout, htoClient⟩
    · simp [hthread, htasks]
    · simp [hthread, TcpServer.reported, hepoll, FdEvent.enabled]
  have hstart : (system Session.echoed).start serving :=
    ⟨⟨2, {0, 1, 2}, _, rfl, rfl⟩, rfl⟩
  exact ⟨n, ⟨⟨c, hrest⟩, hother, hinvoked⟩,
    clients_served (System.Run.of_allowed (fun _ _ _ h => h) hstart hn two_orderly) 3⟩

end Network

end TinyRpc
