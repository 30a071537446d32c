import TinyRpc.Server.Connections

/-!
# What an io thread has belongs to its connections

The invariant of each descriptor, over whole runs of the server.
-/

namespace TinyRpc.TcpServer

open Function Lib

variable {s t u : TcpServer} {k fd : Nat} {c : Connection}

/-! ## What a thread does not change -/

/-- A step that accepts no client. -/
structure Quiet (s t : TcpServer) : Prop where
  group : t.m_io_thread_group = s.m_io_thread_group
  accepting : t.accepting = s.accepting
  client : t.m_client = s.m_client
  opened : ∀ k, (t.io k).kernel.opened = (s.io k).kernel.opened
  /-- Only a callback of a connected connection does something. -/
  connections : ∀ fd c, s.connections fd = some c → ∃ c', t.connections fd = some c' ∧
    c'.io_thread = c.io_thread ∧ (c.conn.m_state ≠ .Connected → c' = c)

theorem Quiet.refl (s : TcpServer) : Quiet s s :=
  ⟨rfl, rfl, rfl, fun _ => rfl, fun _ c hconn => ⟨c, hconn, rfl, fun _ => rfl⟩⟩

theorem Quiet.trans (h : Quiet s t) (h' : Quiet t u) : Quiet s u where
  group := h'.group.trans h.group
  client := h'.client.trans h.client
  accepting := h'.accepting.trans h.accepting
  opened k := (h'.opened k).trans (h.opened k)
  connections fd c hconn := by
    obtain ⟨c₁, hconn₁, hthread₁, hsame₁⟩ := h.connections fd c hconn
    obtain ⟨c₂, hconn₂, hthread₂, hsame₂⟩ := h'.connections fd c₁ hconn₁
    refine ⟨c₂, hconn₂, hthread₂.trans hthread₁, fun hstate => ?_⟩
    obtain rfl := hsame₁ hstate
    exact hsame₂ hstate

theorem quiet_setIo {v : IoThread} (hopened : v.kernel.opened = (s.io k).kernel.opened) :
    Quiet s (s.setIo k v) := by
  refine ⟨rfl, rfl, rfl, fun j => ?_, fun _ c hconn => ⟨c, hconn, rfl, fun _ => rfl⟩⟩
  by_cases hj : j = k
  · simp [setIo, hj, hopened]
  · simp [setIo, update_of_ne hj]

theorem quiet_phase (s : TcpServer) (k : Nat) (phase : Phase) :
    Quiet s (s.setIo k { s.io k with phase }) :=
  quiet_setIo rfl

theorem quiet_setConn (hconn : s.connections fd = some c) (hstate : c.conn.m_state = .Connected)
    (conn : TcpConnection Unit) : Quiet s (s.setConn fd { c with conn }) := by
  refine ⟨rfl, rfl, rfl, fun _ => rfl, fun n c' hconn' => ?_⟩
  by_cases hn : n = fd
  · subst hn
    rw [hconn] at hconn'
    obtain rfl := Option.some.inj hconn'
    exact ⟨{ c with conn }, by simp [setConn], rfl, fun h => absurd hstate h⟩
  · exact ⟨c', by simpa [setConn, update_of_ne hn] using hconn', rfl, fun _ => rfl⟩

theorem quiet_listen (s : TcpServer) (cb : Callback) (event_type : TriggerEvent) :
    Quiet s (s.listen cb event_type) :=
  ⟨rfl, rfl, rfl, fun _ => rfl, fun _ c hconn => ⟨c, hconn, rfl, fun _ => rfl⟩⟩

theorem quiet_addEpollEvent (s : TcpServer) (running : Option Nat) (k fd : Nat) :
    Quiet s (s.addEpollEvent running k fd) := by
  unfold addEpollEvent
  split
  · exact quiet_setIo (EventLoop.addEpollEvent_opened _ _)
  · exact quiet_setIo rfl

theorem quiet_deleteEpollEvent (s : TcpServer) (running : Option Nat) (k fd : Nat) :
    Quiet s (s.deleteEpollEvent running k fd) := by
  unfold deleteEpollEvent
  split
  · exact quiet_setIo (EventLoop.deleteEpollEvent_opened _ _)
  · exact quiet_setIo rfl

theorem quiet_onRead {input : Input} (hconn : s.connections fd = some c)
    (ht : s.onRead k fd c input = some t) : Quiet s t := by
  unfold onRead at ht
  split at ht
  · obtain rfl := Option.some.inj ht
    exact .refl _
  rename_i hstate
  have hset := quiet_setConn hconn (not_not.mp hstate)
  obtain ⟨out, -, ht⟩ := Option.bind_eq_some_iff.mp ht
  split at ht
  · obtain ⟨⟨conn, calls⟩, -, ht⟩ := Option.bind_eq_some_iff.mp ht
    obtain rfl := Option.some.inj ht
    exact ((hset _).trans (quiet_listen _ _ _)).trans (quiet_addEpollEvent _ _ _ _)
  · obtain rfl := Option.some.inj ht
    exact (hset _).trans (quiet_deleteEpollEvent _ _ _ _)

theorem quiet_onWrite {input : Input} (hconn : s.connections fd = some c)
    (ht : s.onWrite k fd c input = some t) : Quiet s t := by
  unfold onWrite at ht
  split at ht
  · obtain rfl := Option.some.inj ht
    exact .refl _
  rename_i hstate
  have hset := quiet_setConn hconn (not_not.mp hstate)
  obtain ⟨is_all_write, -, ht⟩ := Option.bind_eq_some_iff.mp ht
  obtain rfl := Option.some.inj ht
  split
  · exact (hset _).trans (quiet_addEpollEvent _ _ _ _)
  · exact hset _

theorem quiet_run {input : Input} {task : Task} (ht : s.run k input task = some t) :
    Quiet s t := by
  unfold run at ht
  split at ht
  · obtain rfl := Option.some.inj ht
    exact quiet_setIo (EventLoop.addEpollEvent_opened _ _)
  · obtain rfl := Option.some.inj ht
    exact quiet_setIo (EventLoop.deleteEpollEvent_opened _ _)
  · obtain rfl := Option.some.inj ht
    exact .refl _
  · obtain ⟨c, hconn, ht⟩ := Option.bind_eq_some_iff.mp ht
    exact quiet_onRead hconn ht
  · obtain ⟨c, hconn, ht⟩ := Option.bind_eq_some_iff.mp ht
    exact quiet_onWrite hconn ht

theorem quiet_post (s : TcpServer) (k : Nat) (r : Ready) : Quiet s (s.post k r) := by
  unfold post
  split
  · exact quiet_setIo rfl
  · obtain ⟨hgroup, haccepting, hclient, hopened, hconnections⟩ :=
      quiet_deleteEpollEvent s (some k) k _
    exact ⟨hgroup, haccepting, hclient, hopened, hconnections⟩

/-! ## The operations -/

/-- What an operation has met, when it is not one of the main thread. -/
inductive Turn (s : TcpServer) (k : Nat) : TcpServer → Prop
  | swap (hphase : (s.io k).phase = .top) :
    Turn s k (s.setIo k { s.io k with
      phase := .draining (s.io k).m_pending_tasks, m_pending_tasks := [] })
  | runTask {input : Input} {task : Task} {tmp_tasks : List Task} {t : TcpServer}
    (hphase : (s.io k).phase = .draining (task :: tmp_tasks))
    (ht : (s.pop k tmp_tasks).run k input task = some t) : Turn s k t
  | epoll_wait {events : List Ready} (hphase : (s.io k).phase = .draining [])
    (hevents : events.all (reported (s.io k))) :
    Turn s k (s.setIo k { s.io k with phase := .posting events })
  | post {r : Ready} {events : List Ready} (hphase : (s.io k).phase = .posting (r :: events)) :
    Turn s k ((s.setIo k { s.io k with phase := .posting events }).post k r)
  | again (hphase : (s.io k).phase = .posting []) :
    Turn s k (s.setIo k { s.io k with phase := .top })

theorem next_cases {op : Op} (h : s.next op = some t) :
    (op = .accept ∧ s.accepting = none ∧ s.onAccept = some t) ∨
      (op = .connected ∧ s.connected = some t) ∨ ∃ k, Turn s k t := by
  cases op with
  | accept =>
    obtain ⟨haccepting, h⟩ := Option.ite_none_right_eq_some.mp h
    exact Or.inl ⟨rfl, haccepting, h⟩
  | connected => exact Or.inr (Or.inl ⟨rfl, h⟩)
  | swap k =>
    refine Or.inr (Or.inr ⟨k, ?_⟩)
    simp only [next] at h
    split at h
    · obtain rfl := Option.some.inj h
      exact .swap ‹_›
    · simp at h
  | runTask k input =>
    refine Or.inr (Or.inr ⟨k, ?_⟩)
    simp only [next] at h
    split at h
    · exact .runTask ‹_› h
    · simp at h
  | epoll_wait k events =>
    refine Or.inr (Or.inr ⟨k, ?_⟩)
    simp only [next] at h
    split at h
    · obtain ⟨hevents, h⟩ := Option.ite_none_right_eq_some.mp h
      obtain rfl := Option.some.inj h
      exact .epoll_wait ‹_› hevents
    · simp at h
  | post k =>
    refine Or.inr (Or.inr ⟨k, ?_⟩)
    simp only [next] at h
    split at h
    · obtain rfl := Option.some.inj h
      exact .post ‹_›
    · simp at h
  | again k =>
    refine Or.inr (Or.inr ⟨k, ?_⟩)
    simp only [next] at h
    split at h
    · obtain rfl := Option.some.inj h
      exact .again ‹_›
    · simp at h

theorem Turn.quiet (h : Turn s k t) : Quiet s t := by
  cases h with
  | runTask _ ht => exact (quiet_phase s k _).trans (quiet_run ht)
  | post => exact (quiet_phase s k _).trans (quiet_post _ _ _)
  | swap | epoll_wait | again => exact quiet_setIo rfl

theorem Turn.good (hturn : Turn s k t) (h : ∀ n, Good s n) (n : Nat) : Good t n := by
  obtain hphase | ⟨hphase, ht⟩ | ⟨hphase, hevents⟩ | hphase | hphase := hturn
  · exact swap_good (h n) hphase
  · exact runTask_good h hphase ht n
  · exact epoll_wait_good (h n) hphase hevents
  · exact post_good h hphase n
  · exact again_good (h n) hphase

/-! ## The main thread -/

/-- The connection that `onAccept` has made is not connected before it says so. -/
def Accepting (s : TcpServer) : Prop :=
  ∀ fd, s.accepting = some fd → ∃ c, s.connections fd = some c ∧ c.conn.m_state = .NotConnected

structure Invariant (s : TcpServer) : Prop where
  good : ∀ fd, Good s fd
  shared : Shared s
  accepting : Accepting s

theorem Quiet.shared (h : Quiet s t) (hshared : Shared s) : Shared t := by
  intro k
  rw [h.opened, h.opened, hshared k]

theorem Quiet.keeps_accepting (h : Quiet s t) (haccepting : Accepting s) : Accepting t := by
  intro fd hfd
  rw [h.accepting] at hfd
  obtain ⟨c, hconn, hstate⟩ := haccepting fd hfd
  obtain ⟨c', hconn', -, hsame⟩ := h.connections fd c hconn
  obtain rfl := hsame (by simp [hstate])
  exact ⟨c', hconn', hstate⟩

theorem newConnection_opened (s : TcpServer) (k fd j : Nat) :
    ((s.newConnection k fd).io j).kernel.opened = (s.io j).kernel.opened :=
  (quiet_addEpollEvent _ none k fd).opened j

theorem onAccept_invariant (h : Invariant s) (ht : s.onAccept = some t) : Invariant t := by
  refine ⟨onAccept_good h.shared h.good ht, ?_, ?_⟩
  · obtain ⟨⟨k, g⟩, -, ht⟩ := Option.bind_eq_some_iff.mp ht
    obtain rfl := Option.some.inj ht
    intro j
    rw [newConnection_opened, newConnection_opened]
    have hj : (s.io j).kernel.socket.2.opened = (s.io 0).kernel.socket.2.opened := by
      simp [Kernel.socket, h.shared j]
    exact hj
  · obtain ⟨⟨k, g⟩, -, ht⟩ := Option.bind_eq_some_iff.mp ht
    obtain rfl := Option.some.inj ht
    intro fd hfd
    rw [newConnection_accepting] at hfd
    obtain rfl : s.accept.1 = fd := Option.some.inj hfd
    exact ⟨_, congrArg View.conn (view_newConnection _ k s.accept.1), rfl⟩

theorem connected_invariant (h : Invariant s) (ht : s.connected = some t) : Invariant t := by
  obtain ⟨fd, hfd, ht⟩ := Option.bind_eq_some_iff.mp ht
  obtain ⟨c, hconn, ht⟩ := Option.bind_eq_some_iff.mp ht
  obtain rfl := Option.some.inj ht
  have hkept := (h.good fd).of_conn hconn
  obtain ⟨c', hconn', hstate⟩ := h.accepting fd hfd
  rw [hconn] at hconn'
  obtain rfl := Option.some.inj hconn'
  refine ⟨fun n => ?_, h.shared, by simp [Accepting]⟩
  by_cases hn : n = fd
  · subst hn
    have hset : Good (s.setConn n { c with conn := c.conn.setState .Connected }) n :=
      hkept.setConn rfl hkept.server (by simp [hstate]) rfl
    exact hset.of_view rfl
  · apply (h.good n).of_view
    exact view_setConn_ne hn _

/-! ## Whole runs -/

theorem start_invariant (h : system.start s) : Invariant s := by
  obtain ⟨size, opened, g, -, rfl⟩ := h
  refine ⟨fun fd => ?_, fun k => rfl, by simp [Accepting]⟩
  refine ⟨rfl, ⟨rfl, rfl⟩, fun k => ⟨rfl, ?_, rfl, rfl⟩⟩
  simp [view, IoThread.view]

theorem step_invariant {op : Op} (h : Invariant s) (hstep : s.next op = some t) :
    Invariant t := by
  obtain ⟨-, -, haccept⟩ | ⟨-, hconnected⟩ | ⟨k, hturn⟩ := next_cases hstep
  · exact onAccept_invariant h haccept
  · exact connected_invariant h hconnected
  · exact ⟨hturn.good h.good, hturn.quiet.shared h.shared,
      hturn.quiet.keeps_accepting h.accepting⟩

theorem run_invariant {es : List Op} (hrun : system.Run es s) : Invariant s :=
  hrun.invariant (fun _ => start_invariant) fun _ _ _ => step_invariant

/-- A connection stays with its thread, and nothing happens to it when it is closed. -/
def Keeps (s t : TcpServer) : Prop :=
  ∀ fd c, s.connections fd = some c → ∃ c', t.connections fd = some c' ∧
    c'.io_thread = c.io_thread ∧ (c.conn.m_state = .Closed → c' = c)

theorem step_keeps {op : Op} (h : Invariant s) (hstep : s.next op = some t) : Keeps s t := by
  intro fd c hconn
  obtain ⟨-, -, haccept⟩ | ⟨-, hconnected⟩ | ⟨k, hturn⟩ := next_cases hstep
  · obtain ⟨⟨k, g⟩, -, ht⟩ := Option.bind_eq_some_iff.mp haccept
    obtain rfl := Option.some.inj ht
    have hfresh := accept_fresh (h.good _)
    have hne : fd ≠ s.accept.1 := by
      rintro rfl
      rw [hconn] at hfresh
      simp at hfresh
    refine ⟨c, ?_, rfl, fun _ => rfl⟩
    exact (congrArg View.conn (newConnection_ne hne)).trans hconn
  · obtain ⟨n, hn, ht⟩ := Option.bind_eq_some_iff.mp hconnected
    obtain ⟨c', hconn', ht⟩ := Option.bind_eq_some_iff.mp ht
    obtain rfl := Option.some.inj ht
    obtain ⟨c'', hconn'', hstate⟩ := h.accepting n hn
    rw [hconn'] at hconn''
    obtain rfl := Option.some.inj hconn''
    by_cases hfd : fd = n
    · subst hfd
      rw [hconn] at hconn'
      obtain rfl := Option.some.inj hconn'
      refine ⟨{ c with conn := c.conn.setState .Connected }, by simp [setConn], rfl, fun hclosed => ?_⟩
      rw [hstate] at hclosed
      simp at hclosed
    · exact ⟨c, by simpa [setConn, update_of_ne hfd] using hconn, rfl, fun _ => rfl⟩
  · obtain ⟨c', hconn', hthread, hsame⟩ := hturn.quiet.connections fd c hconn
    exact ⟨c', hconn', hthread, fun hclosed => hsame (by simp [hclosed])⟩

theorem run_keeps {es es' : List Op} (hs : system.Run es s) (ht : (system.after s).Run es' t) :
    Keeps s t := by
  induction ht with
  | start h =>
    obtain rfl : _ = s := h
    exact fun fd c hconn => ⟨c, hconn, rfl, fun _ => rfl⟩
  | step hrun hstep ih =>
    intro fd c hconn
    obtain ⟨c₁, hconn₁, hthread₁, hsame₁⟩ := ih fd c hconn
    obtain ⟨c₂, hconn₂, hthread₂, hsame₂⟩ :=
      step_keeps (run_invariant (hs.append hrun)) hstep fd c₁ hconn₁
    refine ⟨c₂, hconn₂, hthread₂.trans hthread₁, fun hclosed => ?_⟩
    obtain rfl := hsame₁ hclosed
    exact hsame₂ hclosed

/-! ## Confinement -/

/-- The thread that the client was given to. -/
def owner (s : TcpServer) (fd : Nat) : Option Nat := (s.connections fd).map (·.io_thread)

/-- All that a thread has of a descriptor is of a connection that it was given.
So the callbacks never queue a task for the loop of another thread. -/
structure Confined (s : TcpServer) : Prop where
  registered : ∀ k fd, s.owner fd ≠ some k → (s.io k).kernel.epoll fd = none
  listed : ∀ k, ∀ fd ∈ (s.io k).m_listen_fds, s.owner fd = some k
  tasks : ∀ k, ∀ task ∈ (s.io k).tasks, ∀ fd, task.fd = some fd → s.owner fd = some k
  events : ∀ k, ∀ r ∈ (s.io k).events, s.owner r.fd = some k
  deletes : ∀ k fd, .deleteEpollEvent fd ∉ (s.io k).tasks

theorem Good.owner_of_busy (h : Good s fd) (hbusy : ¬ ((s.view fd).io k).Free) :
    s.owner fd = some k := by
  obtain ⟨c, hconn, rfl, -⟩ := h.kept hbusy
  simp [owner, hconn]

theorem Invariant.confined (h : Invariant s) : Confined s where
  registered k fd howner := by
    by_contra hepoll
    exact howner ((h.good fd).owner_of_busy fun hfree => hepoll hfree.epoll)
  listed k fd hfd := (h.good fd).owner_of_busy fun hfree => hfree.listed hfd
  tasks k task htask fd hfd := by
    have hmem : task ∈ ((s.view fd).io k).tasks := by simp [view, IoThread.view, htask, hfd]
    exact (h.good fd).owner_of_busy (not_free_of_task hmem)
  events k r hr := by
    have hmem : r ∈ ((s.view r.fd).io k).events := by simp [view, IoThread.view, hr]
    exact (h.good r.fd).owner_of_busy (not_free_of_event hmem)
  deletes k fd htask := by
    have hmem : .deleteEpollEvent fd ∈ ((s.view fd).io k).tasks := by
      simp [view, IoThread.view, htask, Task.fd]
    obtain ⟨c, hconn, rfl, hkept⟩ := (h.good fd).kept (not_free_of_task hmem)
    exact hkept.stage.no_delete hmem

/-- A thread keeps what it was given, and no other thread ever has anything of it. -/
theorem thread_confined {es es' : List Op} (hs : system.Run es s)
    (ht : (system.after s).Run es' t) :
    Confined t ∧ ∀ fd k, s.owner fd = some k → t.owner fd = some k := by
  refine ⟨(run_invariant (hs.append ht)).confined, fun fd k howner => ?_⟩
  obtain ⟨c, hconn, rfl⟩ := Option.map_eq_some_iff.mp howner
  obtain ⟨c', hconn', hthread, -⟩ := run_keeps hs ht fd c hconn
  simp [owner, hconn', hthread]

def serving : TcpServer where
  m_io_thread_group := { m_size := 2, m_io_thread_groups := 2 }
  io _ := { kernel := Kernel.fresh {0, 1, 2} }

theorem run_serving {es : List Op} (h : es.foldlM next serving = some t) : system.Run es t :=
  System.Run.of_next (S := system) (fun _ _ _ h => h) ⟨2, {0, 1, 2}, _, rfl, rfl⟩ h

theorem run_after {es : List Op} (h : es.foldlM next s = some t) : (system.after s).Run es t :=
  System.Run.of_next (S := system.after s) (fun _ _ _ h => h) rfl h

def readings (reads : List ReadResult) : Input where
  reads
  turns := 1
  dispatch := id
  writes := []

theorem thread_confined_accepted : ∃ s t : TcpServer, s.owner 3 = some 0 ∧
    (Confined t ∧ ∀ fd k, s.owner fd = some k → t.owner fd = some k) := by
  have hreach {s t : TcpServer}
      (hs : [.accept, .connected, .accept].foldlM next serving = some s)
      (ht : [.connected, .swap 0, .runTask 0 (readings [])].foldlM next s = some t) :=
    thread_confined (run_serving hs) (run_after ht)
  refine ⟨_, _, ?_, hreach rfl rfl⟩
  rfl

/-! ## Registration -/

/-- The kernel has the events of a connection, `EPOLLIN` with them, until it is
closed or `EPOLLERR` is reported. Its descriptor stays open even then. -/
structure Registered (s : TcpServer) (fd : Nat) (c : Connection) : Prop where
  opened : ∀ k, fd ∈ (s.io k).kernel.opened
  reading : c.conn.m_state ≠ .Closed → c.conn.m_fd_event.in_event = true
  registered : c.conn.m_state ≠ .Closed → fd ∉ s.errors →
    (s.io c.io_thread).kernel.epoll fd = some c.conn.m_fd_event ∨
      .addEpollEvent fd ∈ (s.io c.io_thread).tasks
  closed : c.conn.m_state = .Closed → c.conn.m_fd_event = {} ∧
    ∀ k, (s.io k).kernel.epoll fd = none ∧ fd ∉ (s.io k).m_listen_fds

theorem Kept.registered (h : Kept fd c (s.view fd)) : Registered s fd c where
  opened := h.opened
  reading hstate := by
    rw [h.same]
    obtain ⟨-, hevent⟩ | ⟨-, hevent⟩ | ⟨hclosed⟩ := h.stage
    · rw [hevent]
    · exact hevent
    · exact absurd hclosed hstate
  registered hstate herrors := by
    rw [h.same]
    obtain ⟨-, -, htasks⟩ | ⟨-, -, -, hreg⟩ | ⟨hclosed⟩ := h.stage
    · have hmem : .addEpollEvent fd ∈ ((s.view fd).io c.io_thread).tasks := by simp [htasks]
      exact Or.inr (List.mem_of_mem_filter hmem)
    · obtain ⟨hepoll, -⟩ | ⟨herrored, -⟩ := hreg
      · exact Or.inl hepoll
      · exact absurd herrored herrors
    · exact absurd hclosed hstate
  closed hclosed := by
    rw [h.same]
    obtain ⟨hstate, -⟩ | ⟨hstate, -⟩ | ⟨-, hevent, -, hepoll, hlisted⟩ := h.stage
    iterate 2
      rw [hclosed] at hstate
      simp at hstate
    refine ⟨hevent, fun k => ?_⟩
    by_cases hk : k = c.io_thread
    · subst hk
      exact ⟨hepoll, hlisted⟩
    · have hfree := h.elsewhere k hk
      exact ⟨hfree.epoll, hfree.listed⟩

/-- A connection is never forgotten, and a closed one is never taken up again. -/
theorem connection_registered {es es' : List Op} (hs : system.Run es s)
    (ht : (system.after s).Run es' t) (hconn : s.connections fd = some c) :
    ∃ c', t.connections fd = some c' ∧ Registered t fd c' ∧
      (c.conn.m_state = .Closed → c' = c) := by
  obtain ⟨c', hconn', -, hsame⟩ := run_keeps hs ht fd c hconn
  have hgood := (run_invariant (hs.append ht)).good fd
  exact ⟨c', hconn', (hgood.of_conn hconn').registered, hsame⟩

set_option maxRecDepth 2000 in
theorem connection_registered_closed : ∃ (s t : TcpServer) (c : Connection),
    (s.connections 3 = some c ∧ c.conn.m_state = .Closed) ∧
      ∃ c', t.connections 3 = some c' ∧ Registered t 3 c' ∧
        (c.conn.m_state = .Closed → c' = c) := by
  have hreach {s t : TcpServer} {c : Connection}
      (hs : [.accept, .connected, .swap 0, .runTask 0 (readings []),
        .epoll_wait 0 [.event 3 .IN_EVENT], .post 0, .again 0, .swap 0,
        .runTask 0 (readings [.close])].foldlM next serving = some s)
      (ht : [.accept, .connected].foldlM next s = some t)
      (hclosed : s.connections 3 = some c ∧ c.conn.m_state = .Closed) :=
    And.intro hclosed (connection_registered (run_serving hs) (run_after ht) hclosed.1)
  exact ⟨_, _, _, hreach rfl rfl ⟨rfl, rfl⟩⟩

end TinyRpc.TcpServer
