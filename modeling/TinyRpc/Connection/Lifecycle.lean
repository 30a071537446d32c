import TinyRpc.EventLoop.Epoll
import TinyRpc.Lib.Runs

/-!
# The life of a connection

A connection with its registration in the event loop. `clear` ends it, and
`shutDown` leaves it half closed.
-/

namespace TinyRpc

open Coder Lib

/-! ## The model -/

/-- A connection and its event loop. The descriptor is open, and the loop knows
it when the kernel does. -/
structure Live (δ : Type) where
  m_fd : Nat
  conn : TcpConnection δ
  m_event_loop : EventLoop
  opened : m_fd ∈ m_event_loop.kernel.opened
  listed : (m_event_loop.kernel.epoll m_fd).isSome → m_fd ∈ m_event_loop.m_listen_fds

def TcpState.rank : TcpState → Nat
  | .NotConnected => 0
  | .Connected => 1
  | .HalfClosing => 2
  | .Closed => 3

/-- An `onWrite` runs to its callbacks. What they call are operations of their
own, and `written` is the end of the `onWrite`. -/
inductive Live.Op (δ : Type) where
  | listenRead
  | listenWrite
  | pushSendMessage (message : TinyPBProtocol) (done : δ)
  | pushReadMessage (req_id : Bytes) (done : δ)
  | onRead (rts : List ReadResult) (turns : Nat) (dispatch : TinyPBProtocol → TinyPBProtocol)
  | onWrite (rts : List WriteResult)
  | written
  | shutDown
  | clear

/-- The loop of `onWrite` and its `is_all_write`. There is no result when the
results of `write()` run out. -/
def TcpConnection.writeLoop {δ : Type} (c : TcpConnection δ) : List WriteResult → Option Bool
  | [] => if c.m_out_buffer.readAble = 0 then some true else none
  | rt :: rts =>
    if c.m_out_buffer.readAble = 0 then some true
    else match c.writeTurn rt with
      | some is_all_write => some is_all_write
      | none => c.writeLoop rts

namespace Live

variable {δ : Type}

def keep (s : Live δ) (conn : TcpConnection δ) : Live δ := { s with conn }

theorem add_opened (s : Live δ) (e : FdEvent) :
    s.m_fd ∈ ((s.m_event_loop.setFdEvent s.m_fd e).addEpollEvent s.m_fd).kernel.opened := by
  rw [EventLoop.addEpollEvent_opened]
  exact s.opened

/-- `addEpollEvent` with the `FdEvent` that the connection has now. -/
def add (s : Live δ) (conn : TcpConnection δ) : Live δ where
  m_fd := s.m_fd
  conn := conn
  m_event_loop := (s.m_event_loop.setFdEvent s.m_fd conn.m_fd_event).addEpollEvent s.m_fd
  opened := s.add_opened conn.m_fd_event
  listed _ := Finset.mem_insert_self _ _

theorem delete_opened (s : Live δ) (e : FdEvent) :
    s.m_fd ∈ ((s.m_event_loop.setFdEvent s.m_fd e).deleteEpollEvent s.m_fd).kernel.opened := by
  rw [EventLoop.deleteEpollEvent_opened]
  exact s.opened

theorem delete_epoll (s : Live δ) (e : FdEvent) :
    ((s.m_event_loop.setFdEvent s.m_fd e).deleteEpollEvent s.m_fd).kernel.epoll s.m_fd = none := by
  rw [EventLoop.deleteEpollEvent_epoll]
  split
  · rfl
  · rename_i h
    have hunlisted : s.m_fd ∉ s.m_event_loop.m_listen_fds := fun hmem => h ⟨rfl, hmem⟩
    exact Option.not_isSome_iff_eq_none.mp fun hs => hunlisted (s.listed hs)

theorem delete_listed (s : Live δ) (e : FdEvent)
    (h : (((s.m_event_loop.setFdEvent s.m_fd e).deleteEpollEvent s.m_fd).kernel.epoll
      s.m_fd).isSome) :
    s.m_fd ∈ ((s.m_event_loop.setFdEvent s.m_fd e).deleteEpollEvent s.m_fd).m_listen_fds := by
  rw [s.delete_epoll e] at h
  cases h

def delete (s : Live δ) (conn : TcpConnection δ) : Live δ where
  m_fd := s.m_fd
  conn := conn
  m_event_loop := (s.m_event_loop.setFdEvent s.m_fd conn.m_fd_event).deleteEpollEvent s.m_fd
  opened := s.delete_opened conn.m_fd_event
  listed := s.delete_listed conn.m_fd_event

def clear (s : Live δ) : Live δ := if s.conn.m_state = .Closed then s else s.delete s.conn.clear

def onRead (s : Live δ) (rts : List ReadResult) (turns : Nat)
    (dispatch : TinyPBProtocol → TinyPBProtocol) : Option (Live δ) :=
  if s.conn.m_state ≠ .Connected then some s
  else do
    let out ← s.conn.onRead rts
    if out.excutes then do
      let (conn, _) ← out.conn.excute turns dispatch
      return if conn.m_connection_type = .TcpConnectionByServer then s.add conn else s.keep conn
    else return s.delete out.conn

def onWrite (s : Live δ) (rts : List WriteResult) : Option (Live δ) :=
  if s.conn.m_state ≠ .Connected then some s
  else do
    let conn ← s.conn.beforeWrite
    let is_all_write ← conn.writeLoop rts
    let conn := conn.afterWrite is_all_write
    return if is_all_write then s.add conn else s.keep conn

def next (s : Live δ) : Op δ → Option (Live δ)
  | .listenRead => some (s.add s.conn.listenRead)
  | .listenWrite => some (s.add s.conn.listenWrite)
  | .pushSendMessage message done => some (s.keep (s.conn.pushSendMessage message done))
  | .pushReadMessage req_id done => some (s.keep (s.conn.pushReadMessage req_id done))
  | .onRead rts turns dispatch => s.onRead rts turns dispatch
  | .onWrite rts => s.onWrite rts
  | .written => some (s.keep s.conn.clearWriteDones)
  | .shutDown => some (s.keep s.conn.shutDown)
  | .clear => some s.clear

def system : System (Live δ) (Op δ) where
  start s := s.conn.m_state = .Connected
  step s e t := s.next e = some t

/-! ## What a life should be -/

/-- One of these results of `read()` is 0, and the loop comes to it. -/
def PeerClosed (c : TcpConnection δ) (rts : List ReadResult) : Prop :=
  ∃ out, TcpConnection.readLoop rts c.m_in_buffer = some out ∧ out.is_close = true

/-- A readable event whose `read()` returns 0. -/
def ReadsClose (s : Live δ) : Op δ → Prop
  | .onRead rts _ _ => PeerClosed s.conn rts
  | _ => False

def registered (s : Live δ) : Prop := (s.m_event_loop.kernel.epoll s.m_fd).isSome

/-- Closed, with nothing to listen to, and out of the event loop. -/
structure Ended (s : Live δ) : Prop where
  closed : s.conn.m_state = .Closed
  cancled : s.conn.m_fd_event = {}
  unlisted : s.m_fd ∉ s.m_event_loop.m_listen_fds
  unregistered : ¬ s.registered

structure Proper (s : Live δ) (e : Op δ) (t : Live δ) : Prop where
  forward : s.conn.m_state.rank ≤ t.conn.m_state.rank
  ends : s.conn.m_state = .Connected ∨ s.conn.m_state = .HalfClosing → s.ReadsClose e → t.Ended
  silent : s.conn.m_state = .Closed → t.registered → s.registered

/-- A connection that is half closed is not told that its peer has closed, and
nothing asks a closed one to listen. -/
def Orderly (s : Live δ) : Op δ → Prop
  | .listenRead | .listenWrite => s.conn.m_state ≠ .Closed
  | .onRead rts _ _ => s.conn.m_state = .HalfClosing → ¬ PeerClosed s.conn rts
  | _ => True

/-- What the runs keep. -/
structure Settled (s : Live δ) : Prop where
  connected : s.conn.m_state ≠ .NotConnected
  ended : s.conn.m_state = .Closed → s.Ended

/-! ## What keeps the state -/

theorem excute_state {c c' : TcpConnection δ} {turns : Nat}
    {dispatch : TinyPBProtocol → TinyPBProtocol} {calls : List (δ × TinyPBProtocol)}
    (h : c.excute turns dispatch = some (c', calls)) : c'.m_state = c.m_state := by
  obtain ⟨result, m_in_buffer, -, hcases⟩ := TcpConnection.excute_cases h
  rcases hcases with ⟨-, -, sent, m_out_buffer, -, rfl⟩ | ⟨-, -, rfl⟩
  · rfl
  · rfl

theorem beforeWrite_state {c c' : TcpConnection δ} (h : c.beforeWrite = some c') :
    c'.m_state = c.m_state := by
  rcases TcpConnection.beforeWrite_cases h with ⟨-, rfl⟩ | ⟨-, sent, m_out_buffer, -, rfl⟩
  · rfl
  · rfl

/-! ## Each operation -/

/-- What an operation can do to a connection and its registration. -/
inductive Change (s : Live δ) (e : Op δ) : Live δ → Prop
  /-- It is listened to, and its state stays. -/
  | add (conn : TcpConnection δ) (hstate : conn.m_state = s.conn.m_state)
      (horderly : s.Orderly e ↔ s.conn.m_state ≠ .Closed) (hread : ¬ s.ReadsClose e) :
    Change s e (s.add conn)
  | keep (conn : TcpConnection δ) (hforward : s.conn.m_state.rank ≤ conn.m_state.rank)
      (hclosed : conn.m_state = .Closed →
        s.conn.m_state = .Closed ∧ conn.m_fd_event = s.conn.m_fd_event)
      (horderly : s.Orderly e) (hread : ¬ s.ReadsClose e) : Change s e (s.keep conn)
  | delete (conn : TcpConnection δ) (hopen : s.conn.m_state ≠ .Closed)
      (hclosed : conn.m_state = .Closed) (hcancled : conn.m_fd_event = {})
      (horderly : s.Orderly e) : Change s e (s.delete conn)
  /-- A readable event of a connection that does not read. -/
  | unread (hstate : s.conn.m_state ≠ .Connected)
      (horderly : s.Orderly e ↔ (s.conn.m_state = .HalfClosing → ¬ s.ReadsClose e)) : Change s e s

theorem clear_eq {c : TcpConnection δ} (hopen : c.m_state ≠ .Closed) :
    c.clear = { c with m_fd_event := {}, m_state := .Closed } := if_neg hopen

theorem onRead_change {s t : Live δ} {rts : List ReadResult} {turns : Nat}
    {dispatch : TinyPBProtocol → TinyPBProtocol} (ht : s.onRead rts turns dispatch = some t) :
    Change s (.onRead rts turns dispatch) t := by
  unfold onRead at ht
  split at ht
  · -- Nothing is read, and a half closed connection does not find out.
    rename_i hstate
    cases ht
    exact .unread hstate Iff.rfl
  · rename_i hstate
    replace hstate : s.conn.m_state = .Connected := not_not.mp hstate
    have horderly : s.Orderly (.onRead rts turns dispatch) := by
      intro hhalf
      rw [hstate] at hhalf
      cases hhalf
    have hopen : s.conn.m_state ≠ .Closed := by
      rw [hstate]
      decide
    simp only [Option.bind_eq_bind, Option.bind_eq_some_iff] at ht
    obtain ⟨out, hout, ht⟩ := ht
    unfold TcpConnection.onRead at hout
    rw [if_neg (not_not.mpr hstate)] at hout
    simp only [Option.bind_eq_bind, Option.bind_eq_some_iff] at hout
    obtain ⟨loop, hloop, hout⟩ := hout
    split at hout
    · cases hout
      have hclear := clear_eq (c := { s.conn with m_in_buffer := loop.buffer }) hopen
      cases ht
      exact .delete _ hopen (by rw [hclear]) (by rw [hclear]) horderly
    · rename_i hclose
      cases hout
      have hread : ¬ s.ReadsClose (.onRead rts turns dispatch) := by
        rintro ⟨out, hout, hpeer⟩
        rw [hloop] at hout
        cases hout
        exact hclose hpeer
      simp only [if_true, Option.bind_eq_some_iff] at ht
      obtain ⟨⟨conn, calls⟩, hexcute, ht⟩ := ht
      have hsame : conn.m_state = s.conn.m_state := (excute_state hexcute).trans rfl
      split at ht
      · cases ht
        exact .add conn hsame ⟨fun _ => hopen, fun _ => horderly⟩ hread
      · cases ht
        exact .keep conn (Nat.le_of_eq (by rw [hsame]))
          (fun hclosed => absurd (hsame.symm.trans hclosed) hopen) horderly hread

theorem onWrite_change {s t : Live δ} {rts : List WriteResult} (ht : s.onWrite rts = some t) :
    Change s (.onWrite rts) t := by
  unfold onWrite at ht
  split at ht
  · cases ht
    exact .keep s.conn (Nat.le_refl _) (fun hclosed => ⟨hclosed, rfl⟩) trivial not_false
  · rename_i hstate
    replace hstate : s.conn.m_state = .Connected := not_not.mp hstate
    have hopen : s.conn.m_state ≠ .Closed := by
      rw [hstate]
      decide
    simp only [Option.bind_eq_bind, Option.bind_eq_some_iff] at ht
    obtain ⟨conn, hconn, is_all_write, -, ht⟩ := ht
    have hsame : (conn.afterWrite is_all_write).m_state = s.conn.m_state := by
      rw [← beforeWrite_state hconn]
      unfold TcpConnection.afterWrite
      split <;> rfl
    split at ht
    · cases ht
      exact .add _ hsame ⟨fun _ => hopen, fun _ => trivial⟩ not_false
    · cases ht
      exact .keep _ (Nat.le_of_eq (by rw [hsame]))
        (fun hclosed => absurd (hsame.symm.trans hclosed) hopen) trivial not_false

theorem next_change {s t : Live δ} {e : Op δ} (ht : s.next e = some t) : Change s e t := by
  cases e with
  | listenRead | listenWrite =>
    cases ht
    exact .add _ rfl Iff.rfl not_false
  | pushSendMessage message done =>
    cases ht
    exact .keep _ (Nat.le_refl _) (fun hclosed => ⟨hclosed, rfl⟩) trivial not_false
  | pushReadMessage req_id done =>
    cases ht
    unfold TcpConnection.pushReadMessage
    split <;> exact .keep _ (Nat.le_refl _) (fun hclosed => ⟨hclosed, rfl⟩) trivial not_false
  | onRead rts turns dispatch => exact onRead_change ht
  | onWrite rts => exact onWrite_change ht
  | written =>
    cases ht
    unfold TcpConnection.clearWriteDones
    split <;> exact .keep _ (Nat.le_refl _) (fun hclosed => ⟨hclosed, rfl⟩) trivial not_false
  | shutDown =>
    cases ht
    unfold TcpConnection.shutDown
    split
    · exact .keep _ (Nat.le_refl _) (fun hclosed => ⟨hclosed, rfl⟩) trivial not_false
    · rename_i hstate
      have hforward : s.conn.m_state.rank ≤ TcpState.rank .HalfClosing := by
        cases hs : s.conn.m_state <;> simp_all [TcpState.rank]
      exact .keep _ hforward (fun hclosed => by cases hclosed) trivial not_false
  | clear =>
    cases ht
    unfold clear
    split
    · exact .keep s.conn (Nat.le_refl _) (fun hclosed => ⟨hclosed, rfl⟩) trivial not_false
    · rename_i hopen
      exact .delete _ hopen (by rw [clear_eq hopen]) (by rw [clear_eq hopen]) trivial

/-! ## What a change does -/

theorem rank_closed (state : TcpState) : state.rank ≤ TcpState.rank .Closed := by
  cases state <;> decide

theorem Change.forward {s t : Live δ} {e : Op δ} (h : Change s e t) :
    s.conn.m_state.rank ≤ t.conn.m_state.rank := by
  cases h with
  | add conn hstate horderly hread => exact Nat.le_of_eq (congrArg TcpState.rank hstate.symm)
  | keep conn hforward hclosed horderly hread => exact hforward
  | delete conn hopen hclosed hcancled horderly =>
    change s.conn.m_state.rank ≤ conn.m_state.rank
    rw [hclosed]
    exact rank_closed _
  | unread hstate horderly => exact Nat.le_refl _

theorem Ended.registered_add {s : Live δ} (h : s.Ended) (conn : TcpConnection δ) :
    (s.add conn).registered :=
  EventLoop.addEpollEvent_new (l := s.m_event_loop.setFdEvent s.m_fd conn.m_fd_event) s.opened
    h.unlisted (Option.not_isSome_iff_eq_none.mp h.unregistered)

theorem delete_ended (s : Live δ) {conn : TcpConnection δ} (hclosed : conn.m_state = .Closed)
    (hcancled : conn.m_fd_event = {}) : (s.delete conn).Ended := by
  constructor
  · exact hclosed
  · exact hcancled
  · change s.m_fd ∉ EventLoop.m_listen_fds (EventLoop.deleteEpollEvent _ s.m_fd)
    rw [EventLoop.deleteEpollEvent_listen_fds]
    exact Finset.notMem_erase _ _
  · intro hr
    have hnone := s.delete_epoll conn.m_fd_event
    replace hr : (((s.m_event_loop.setFdEvent s.m_fd conn.m_fd_event).deleteEpollEvent
      s.m_fd).kernel.epoll s.m_fd).isSome := hr
    rw [hnone] at hr
    cases hr

theorem Change.proper_iff {s t : Live δ} {e : Op δ} (h : Change s e t) (hs : s.Settled) :
    Proper s e t ↔ s.Orderly e := by
  have hforward := h.forward
  cases h with
  | add conn hstate horderly hread =>
    rw [horderly]
    constructor
    · intro hp hclosed
      have hended := hs.ended hclosed
      exact hended.unregistered (hp.silent hclosed (hended.registered_add conn))
    · intro hopen
      exact ⟨hforward, fun _ hclose => absurd hclose hread, fun hclosed => absurd hclosed hopen⟩
  | keep conn _ hclosed horderly hread =>
    refine ⟨fun _ => horderly, fun _ => ?_⟩
    exact ⟨hforward, fun _ hclose => absurd hclose hread, fun _ hr => hr⟩
  | delete conn hopen hclosed hcancled horderly =>
    refine ⟨fun _ => horderly, fun _ => ?_⟩
    exact ⟨hforward, fun _ _ => s.delete_ended hclosed hcancled,
      fun hsclosed => absurd hsclosed hopen⟩
  | unread hstate horderly =>
    rw [horderly]
    constructor
    · intro hp hhalf hclose
      have hended := hp.ends (Or.inr hhalf) hclose
      rw [hended.closed] at hhalf
      cases hhalf
    · intro hnot
      refine ⟨hforward, ?_, fun _ hr => hr⟩
      rintro (hconn | hhalf) hclose
      · exact absurd hconn hstate
      · exact absurd hclose (hnot hhalf)

theorem Change.settled {s t : Live δ} {e : Op δ} (h : Change s e t) (hs : s.Settled)
    (horderly : s.Orderly e) : t.Settled := by
  have hforward := h.forward
  constructor
  · intro hnot
    apply hs.connected
    rw [hnot] at hforward
    cases hstate : s.conn.m_state <;> simp [hstate, TcpState.rank] at hforward ⊢
  · intro hc
    cases h with
    | add conn hstate hiff hread => exact absurd (hstate.symm.trans hc) (hiff.mp horderly)
    | keep conn _ hclosed _ hread =>
      obtain ⟨hsclosed, hevent⟩ := hclosed hc
      have hended := hs.ended hsclosed
      exact ⟨hc, hevent.trans hended.cancled, hended.unlisted, hended.unregistered⟩
    | delete conn hopen hclosed hcancled _ => exact s.delete_ended hclosed hcancled
    | unread hstate _ => exact hs.ended hc

/-! ## Runs -/

/-- The state moves forward only. In the orderly runs a closed connection is
out of the event loop for ever, and the first step that is not orderly is one
that goes wrong. -/
theorem proper_iff_orderly :
    (∀ (s t : Live δ) (e : Op δ), s.next e = some t →
        s.conn.m_state.rank ≤ t.conn.m_state.rank) ∧
      ∀ (es : List (Op δ)) (s : Live δ), (system.restrict Orderly).Run es s →
        (s.conn.m_state = .Closed → s.Ended) ∧
          ∀ e t, s.next e = some t → (Proper s e t ↔ s.Orderly e) := by
  refine ⟨fun s t e ht => (next_change ht).forward, ?_⟩
  intro es s hrun
  have hs : s.Settled := by
    apply hrun.invariant (I := Settled)
    · intro s hstart
      replace hstart : s.conn.m_state = .Connected := hstart
      constructor <;> rw [hstart]
      · decide
      · exact fun hclosed => by cases hclosed
    · intro s e t hs ⟨horderly, ht⟩
      exact (next_change ht).settled hs horderly
  exact ⟨hs.ended, fun e t ht => (next_change ht).proper_iff hs⟩

/-! ## A server connection -/

theorem socket_listed (l : EventLoop) (h : (l.socket.2.kernel.epoll l.socket.1).isSome) :
    l.socket.1 ∈ l.socket.2.m_listen_fds := by
  have hnone : l.kernel.epoll l.socket.1 = none :=
    Kernel.not_registered (Kernel.lowestFree_notMem l.kernel.opened)
  replace h : (l.kernel.epoll l.socket.1).isSome := h
  rw [hnone] at h
  cases h

/-- The constructor, with a descriptor that is new. -/
def create (l : EventLoop) (buffer_size : Nat) (type : TcpConnectionType) : Live δ :=
  let s : Live δ :=
    { m_fd := l.socket.1
      conn := TcpConnection.new buffer_size type
      m_event_loop := l.socket.2
      opened := Finset.mem_insert_self _ _
      listed := socket_listed l }
  if type = .TcpConnectionByServer then s.add s.conn else s

def accepted : Live Unit :=
  let l : EventLoop := { kernel := ⟨{0, 1, 2}, fun _ => none, by simp⟩, fdEvents := fun _ => {} }
  let s := create l 128 .TcpConnectionByServer
  s.keep (s.conn.setState .Connected)

theorem accepted_start : system.start accepted := rfl

theorem peerClosed_close (s : Live δ) (h : s.conn.m_in_buffer = TcpBuffer.new 128) :
    PeerClosed s.conn [.close] := by
  refine ⟨⟨true, TcpBuffer.new 128, []⟩, ?_, rfl⟩
  rw [h]
  decide +kernel

theorem onRead_peerClosed {s : Live δ} (hstate : s.conn.m_state = .Connected)
    {rts : List ReadResult} (h : PeerClosed s.conn rts) (turns : Nat)
    (dispatch : TinyPBProtocol → TinyPBProtocol) :
    ∃ t, s.next (.onRead rts turns dispatch) = some t := by
  obtain ⟨out, hout, hclose⟩ := h
  simp [next, onRead, TcpConnection.onRead, hstate, hout, hclose]

theorem accepted_ends :
    ∃ t, accepted.next (.onRead [.close] 1 id) = some t ∧ t.Ended := by
  have horderly : accepted.Orderly (.onRead [.close] 1 id) := by
    intro hhalf
    cases hhalf
  have hpeer := peerClosed_close accepted rfl
  obtain ⟨t, ht⟩ := onRead_peerClosed accepted_start hpeer 1 id
  have hproper := (proper_iff_orderly.2 [] accepted (System.Run.start accepted_start)).2 _ _ ht
  exact ⟨t, ht, (hproper.mpr horderly).ends (Or.inl rfl) hpeer⟩

theorem accepted_not_proper :
    (∃ s t : Live Unit, system.Run [.shutDown] s ∧ s.next (.onRead [.close] 1 id) = some t ∧
        t.conn.m_state = .HalfClosing ∧ ¬ Proper s (.onRead [.close] 1 id) t) ∧
      ∃ s t : Live Unit, system.Run [.clear] s ∧ s.next .listenWrite = some t ∧
        t.registered ∧ ¬ Proper s .listenWrite t := by
  constructor
  · refine ⟨accepted.keep accepted.conn.shutDown, _, (System.Run.start accepted_start).step rfl, rfl,
      rfl, ?_⟩
    intro hp
    have hended := hp.ends (Or.inr rfl) (peerClosed_close _ rfl)
    cases hended.closed
  · have hended : accepted.clear.Ended := accepted.delete_ended rfl rfl
    have hreg := hended.registered_add accepted.clear.conn.listenWrite
    refine ⟨accepted.clear, _, (System.Run.start accepted_start).step rfl, rfl, hreg, ?_⟩
    exact fun hp => hended.unregistered (hp.silent hended.closed hreg)

end Live

end TinyRpc
