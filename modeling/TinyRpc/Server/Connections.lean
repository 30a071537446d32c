import TinyRpc.EventLoop.Connecting
import TinyRpc.Server.TcpServer

/-!
# Each connection stays with its io thread

What the server has on one descriptor is a view of its state. Every step keeps
what is said here about the view, whatever the other descriptors do.
-/

namespace TinyRpc.TcpServer

open Function Coder

/-! ## Views -/

def IoThread.tasks (t : IoThread) : List Task :=
  (match t.phase with | .draining tmp_tasks => tmp_tasks | _ => []) ++ t.m_pending_tasks

def IoThread.events (t : IoThread) : List Ready :=
  match t.phase with | .posting events => events | _ => []

/-- What an io thread has on one descriptor. -/
structure IoView where
  opened : Prop
  epoll : Option FdEvent
  listed : Prop
  tasks : List Task
  events : List Ready

def IoThread.view (t : IoThread) (fd : Nat) : IoView where
  opened := fd ∈ t.kernel.opened
  epoll := t.kernel.epoll fd
  listed := fd ∈ t.m_listen_fds
  tasks := t.tasks.filter fun task => task.fd = some fd
  events := t.events.filter fun r => r.fd = fd

structure View where
  conn : Option Connection
  event : FdEvent
  callbacks : Callbacks
  errored : Prop
  io : Nat → IoView

def View.setIo (v : View) (k : Nat) (u : IoView) : View := { v with io := update v.io k u }

def view (s : TcpServer) (fd : Nat) : View where
  conn := s.connections fd
  event := s.fdEvents fd
  callbacks := s.callbacks fd
  errored := fd ∈ s.errors
  io k := (s.io k).view fd

/-! ## What is kept -/

/-- The io thread has nothing to do with the descriptor. -/
structure IoView.Free (v : IoView) : Prop where
  epoll : v.epoll = none
  listed : ¬ v.listed
  tasks : v.tasks = []
  events : v.events = []

def IoView.Calls (v : IoView) : Prop := ∀ task ∈ v.tasks, ∃ cb, task = .callback (some cb)

/-- How far a connection is, by what its io thread has on its descriptor. -/
inductive Stage (c : Connection) (event : FdEvent) (errored : Prop) (v : IoView) (fd : Nat) : Prop
  /-- It waits for its first registration. -/
  | waiting (hstate : c.conn.m_state = .NotConnected ∨ c.conn.m_state = .Connected)
      (hevent : event = { in_event := true }) (htasks : v.tasks = [.addEpollEvent fd])
      (hevents : v.events = []) (hepoll : v.epoll = none) (hlisted : ¬ v.listed)
  /-- It is registered, unless there was an error on it. -/
  | live (hstate : c.conn.m_state = .NotConnected ∨ c.conn.m_state = .Connected)
      (hevent : event.in_event = true) (htasks : v.Calls)
      (hreg : v.epoll = some event ∧ v.listed ∨ errored ∧ v.epoll = none ∧ ¬ v.listed)
  | closed (hstate : c.conn.m_state = .Closed) (hevent : event = {}) (htasks : v.Calls)
      (hepoll : v.epoll = none) (hlisted : ¬ v.listed)

structure Kept (fd : Nat) (c : Connection) (v : View) : Prop where
  opened : ∀ k, (v.io k).opened
  elsewhere : ∀ k, k ≠ c.io_thread → (v.io k).Free
  same : c.conn.m_fd_event = v.event
  server : c.conn.m_connection_type = .TcpConnectionByServer
  read : v.callbacks.m_read_callback = some (.onRead fd)
  write : ∀ cb, v.callbacks.m_write_callback = some cb → cb = .onWrite fd
  stage : Stage c v.event v.errored (v.io c.io_thread) fd

structure Untouched (v : View) : Prop where
  event : v.event = {}
  callbacks : v.callbacks.m_read_callback = none ∧ v.callbacks.m_write_callback = none
  free : ∀ k, (v.io k).Free

def Good (s : TcpServer) (fd : Nat) : Prop :=
  match s.connections fd with
  | none => Untouched (s.view fd)
  | some c => Kept fd c (s.view fd)

/-! ## The parts of a step -/

theorem view_setIo (s : TcpServer) (k fd : Nat) (t : IoThread) :
    (s.setIo k t).view fd = (s.view fd).setIo k (t.view fd) := by
  unfold view setIo View.setIo
  simp only [View.mk.injEq, true_and]
  funext j
  by_cases hj : j = k
  · simp [hj]
  · simp [update_of_ne hj]

theorem view_setIo_same {s : TcpServer} {k fd : Nat} {t : IoThread}
    (h : t.view fd = (s.io k).view fd) : (s.setIo k t).view fd = s.view fd := by
  rw [view_setIo, h]
  simp [view, View.setIo, update_eq_self]

theorem view_setConn_ne {s : TcpServer} {fd fd' : Nat} (hne : fd ≠ fd') (c : Connection) :
    (s.setConn fd' c).view fd = s.view fd := by
  unfold view setConn
  simp only [update_of_ne hne]

theorem view_setConn (s : TcpServer) (fd : Nat) (c : Connection) :
    (s.setConn fd c).view fd = { s.view fd with conn := some c, event := c.conn.m_fd_event } := by
  unfold view setConn
  simp only [update_self]

theorem view_listen_ne {s : TcpServer} {fd : Nat} {cb : Callback} (hne : fd ≠ cb.fd)
    (event_type : TriggerEvent) : (s.listen cb event_type).view fd = s.view fd := by
  unfold view listen
  simp only [update_of_ne hne]

theorem view_addTask_ne {s : TcpServer} {fd : Nat} {task : Task} (hne : task.fd ≠ some fd)
    (k : Nat) : (s.addTask k task).view fd = s.view fd := by
  apply view_setIo_same
  simp [IoThread.view, IoThread.tasks, IoThread.events, hne]

theorem view_addTask {s : TcpServer} {fd : Nat} {task : Task} (h : task.fd = some fd) (k : Nat) :
    (s.addTask k task).view fd = (s.view fd).setIo k
      { (s.view fd).io k with tasks := ((s.view fd).io k).tasks ++ [task] } := by
  unfold addTask
  rw [view_setIo]
  simp [view, IoThread.view, IoThread.tasks, IoThread.events, h]

/-! ### The loop of an io thread -/

theorem addEpollEvent_other (l : EventLoop) {fd n : Nat} (hn : n ≠ fd) :
    (l.addEpollEvent fd).kernel.epoll n = l.kernel.epoll n := by
  unfold EventLoop.addEpollEvent EventLoop.epoll_ctl Kernel.epoll_ctl
  by_cases hfd : fd ∈ l.m_listen_fds
  · simp only [hfd, if_true]
    split
    · simp [Kernel.register, update_of_ne hn]
    · simp
  · simp only [hfd, if_false]
    split
    · split
      · simp
      · simp [Kernel.register, update_of_ne hn]
    · simp

theorem view_setLoop_ne {s : TcpServer} {k fd : Nat} {l : EventLoop}
    (hopen : l.kernel.opened = (s.io k).kernel.opened)
    (hepoll : l.kernel.epoll fd = (s.io k).kernel.epoll fd)
    (hlisted : fd ∈ l.m_listen_fds ↔ fd ∈ (s.io k).m_listen_fds) :
    (s.setLoop k l).view fd = s.view fd := by
  apply view_setIo_same
  simp [IoThread.view, IoThread.tasks, IoThread.events, hopen, hepoll, hlisted]

theorem view_add_ne {s : TcpServer} {k fd fd' : Nat} (hne : fd ≠ fd') :
    (s.setLoop k ((s.loop k).addEpollEvent fd')).view fd = s.view fd := by
  apply view_setLoop_ne
  · exact EventLoop.addEpollEvent_opened _ fd'
  · exact addEpollEvent_other _ hne
  · simp [EventLoop.addEpollEvent_listen_fds, hne, loop]

theorem view_delete_ne {s : TcpServer} {k fd fd' : Nat} (hne : fd ≠ fd') :
    (s.setLoop k ((s.loop k).deleteEpollEvent fd')).view fd = s.view fd := by
  apply view_setLoop_ne
  · exact EventLoop.deleteEpollEvent_opened _ fd'
  · rw [EventLoop.deleteEpollEvent_epoll, if_neg (by simp [hne])]
    rfl
  · simp [EventLoop.deleteEpollEvent_listen_fds, hne, loop]

/-- What is listed is registered. -/
def IoView.Same (v : IoView) : Prop := v.listed ↔ v.epoll.isSome

theorem view_add {s : TcpServer} {k fd : Nat} (hopen : ((s.view fd).io k).opened)
    (hsame : ((s.view fd).io k).Same) :
    (s.setLoop k ((s.loop k).addEpollEvent fd)).view fd =
      (s.view fd).setIo k
        { (s.view fd).io k with epoll := some (s.view fd).event, listed := True } := by
  have hregistrable : (s.loop k).Registrable fd := ⟨hopen, hsame.mp⟩
  have hepoll := EventLoop.Connecting.addEpollEvent_registered (l := s.loop k) hsame.mpr
  rw [if_pos hregistrable] at hepoll
  unfold setLoop
  rw [view_setIo]
  simp only [IoThread.view, hepoll, EventLoop.addEpollEvent_opened,
    EventLoop.addEpollEvent_listen_fds, Finset.mem_insert_self]
  rfl

theorem view_delete {s : TcpServer} {k fd : Nat} (hsame : ((s.view fd).io k).Same) :
    (s.setLoop k ((s.loop k).deleteEpollEvent fd)).view fd =
      (s.view fd).setIo k { (s.view fd).io k with epoll := none, listed := False } := by
  have hepoll := EventLoop.Connecting.deleteEpollEvent_registered (l := s.loop k) hsame.mpr
  unfold setLoop
  rw [view_setIo]
  simp only [IoThread.view, hepoll, EventLoop.deleteEpollEvent_opened,
    EventLoop.deleteEpollEvent_listen_fds, Finset.mem_erase, ne_eq, not_true, false_and]
  rfl

theorem Stage.same {c : Connection} {event : FdEvent} {errored : Prop} {v : IoView} {fd : Nat}
    (h : Stage c event errored v fd) : v.Same := by
  unfold IoView.Same
  cases h with
  | waiting _ _ _ _ hepoll hlisted => simp [hepoll, hlisted]
  | live _ _ _ hreg =>
    obtain ⟨hepoll, hlisted⟩ | ⟨-, hepoll, hlisted⟩ := hreg <;> simp [hepoll, hlisted]
  | closed _ _ _ hepoll hlisted => simp [hepoll, hlisted]

theorem Stage.no_delete {c : Connection} {event : FdEvent} {errored : Prop} {v : IoView}
    {fd fd' : Nat} (h : Stage c event errored v fd) : .deleteEpollEvent fd' ∉ v.tasks := by
  intro hmem
  obtain ⟨-, -, htasks⟩ | ⟨-, -, hall⟩ | ⟨-, -, hall⟩ := h
  · simp [htasks] at hmem
  all_goals
    obtain ⟨cb, hcb⟩ := hall _ hmem
    simp at hcb

/-! ## What a step does to one descriptor -/

variable {s t : TcpServer} {k fd : Nat} {c : Connection}

theorem Good.of_view (h : Good s fd) (hview : t.view fd = s.view fd) : Good t fd := by
  have hconn : t.connections fd = s.connections fd := congrArg View.conn hview
  unfold Good at h ⊢
  rw [hconn, hview]
  exact h

theorem Good.kept (h : Good s fd) (hbusy : ¬ ((s.view fd).io k).Free) :
    ∃ c, s.connections fd = some c ∧ c.io_thread = k ∧ Kept fd c (s.view fd) := by
  unfold Good at h
  cases hconn : s.connections fd with
  | none =>
    rw [hconn] at h
    exact absurd (h.free k) hbusy
  | some c =>
    rw [hconn] at h
    refine ⟨c, rfl, ?_, h⟩
    by_contra hne
    exact hbusy (h.elsewhere k fun hk => hne hk.symm)

theorem Good.of_conn (h : Good s fd) (hconn : s.connections fd = some c) :
    Kept fd c (s.view fd) := by
  unfold Good at h
  rw [hconn] at h
  exact h

theorem Kept.good (h : Kept fd c (t.view fd)) (hconn : t.connections fd = some c) : Good t fd := by
  unfold Good
  rw [hconn]
  exact h

theorem Kept.setIo {v : View} (h : Kept fd c v) {u : IoView} (hopened : u.opened)
    (hstage : Stage c v.event v.errored u fd) : Kept fd c (v.setIo c.io_thread u) := by
  refine ⟨fun k => ?_, fun k hk => ?_, h.same, h.server, h.read, h.write, ?_⟩
  · by_cases hk : k = c.io_thread
    · simpa [View.setIo, hk] using hopened
    · simpa [View.setIo, update_of_ne hk] using h.opened k
  · simpa [View.setIo, update_of_ne hk] using h.elsewhere k hk
  · simpa [View.setIo] using hstage

theorem IoView.Calls.not_waiting {v : IoView} (h : v.Calls) : v.tasks ≠ [.addEpollEvent fd] := by
  intro htasks
  obtain ⟨cb, hcb⟩ := h (.addEpollEvent fd) (by simp [htasks])
  simp at hcb

/-! ### The phases of the loop -/

theorem not_free_of_task {v : IoView} {task : Task} (h : task ∈ v.tasks) : ¬ v.Free := by
  intro hfree
  simp [hfree.tasks] at h

theorem not_free_of_event {v : IoView} {r : Ready} (h : r ∈ v.events) : ¬ v.Free := by
  intro hfree
  simp [hfree.events] at h

theorem reported_epoll {t : IoThread} {r : Ready} (h : reported t r) :
    (t.kernel.epoll r.fd).isSome := by
  cases r with
  | event fd event_type => exact Option.isSome_of_any h
  | error fd => exact h

theorem events_nil {t : IoThread} {events : List Ready} (h : events.all (reported t))
    (hnone : t.kernel.epoll fd = none) : events.filter (fun r => r.fd = fd) = [] := by
  rw [List.filter_eq_nil_iff]
  intro r hr hfd
  have hsome := reported_epoll (List.all_eq_true.mp h r hr)
  rw [of_decide_eq_true hfd, hnone] at hsome
  simp at hsome

theorem Good.setEvents (h : Good s fd) {u : IoThread} {events : List Ready}
    (hview : u.view fd = { (s.io k).view fd with events := events })
    (hnil : (s.io k).kernel.epoll fd = none → ((s.io k).view fd).events = [] → events = []) :
    Good (s.setIo k u) fd := by
  by_cases hfree : ((s.view fd).io k).Free
  · apply h.of_view
    apply view_setIo_same
    have hevents : ((s.io k).view fd).events = [] := hfree.events
    rw [hview, hnil hfree.epoll hevents, ← hevents]
  · obtain ⟨c, hconn, rfl, hkept⟩ := h.kept hfree
    have hu : (s.setIo c.io_thread u).view fd = (s.view fd).setIo c.io_thread
        { (s.view fd).io c.io_thread with events := events } := by
      rw [view_setIo, hview]
      rfl
    refine Kept.good (c := c) ?_ hconn
    rw [hu]
    refine hkept.setIo (by exact hkept.opened _) ?_
    cases hkept.stage with
    | waiting hstate hevent htasks hevents hepoll hlisted =>
      exact .waiting hstate hevent htasks (hnil hepoll hevents) hepoll hlisted
    | live hstate hevent htasks hreg => exact .live hstate hevent htasks hreg
    | closed hstate hevent htasks hepoll hlisted => exact .closed hstate hevent htasks hepoll hlisted

/-- A task is taken from the front of the batch. -/
def pop (s : TcpServer) (k : Nat) (tmp_tasks : List Task) : TcpServer :=
  s.setIo k { s.io k with phase := .draining tmp_tasks }

variable {task : Task} {tmp_tasks : List Task}

theorem view_pop_ne (hphase : (s.io k).phase = .draining (task :: tmp_tasks))
    (hne : task.fd ≠ some fd) : (s.pop k tmp_tasks).view fd = s.view fd := by
  apply view_setIo_same
  simp [IoThread.view, IoThread.tasks, IoThread.events, hphase, hne]

theorem view_pop (hphase : (s.io k).phase = .draining (task :: tmp_tasks))
    (hfd : task.fd = some fd) :
    ∃ tasks, ((s.view fd).io k).tasks = task :: tasks ∧
      (s.pop k tmp_tasks).view fd =
        (s.view fd).setIo k { (s.view fd).io k with tasks := tasks } := by
  refine ⟨(tmp_tasks ++ (s.io k).m_pending_tasks).filter fun task => task.fd = some fd, ?_, ?_⟩
  · simp [view, IoThread.view, IoThread.tasks, hphase, hfd]
  · unfold pop
    rw [view_setIo]
    simp [view, IoThread.view, IoThread.tasks, IoThread.events, hphase]

/-- A callback is run for a connection of this thread that was registered before. -/
theorem pop_called (h : Good s fd) {cb : Callback} (hcb : cb.fd = fd)
    (hphase : (s.io k).phase = .draining (.callback (some cb) :: tmp_tasks)) :
    ∃ c, (s.pop k tmp_tasks).connections fd = some c ∧ c.io_thread = k ∧
      Kept fd c ((s.pop k tmp_tasks).view fd) ∧ (((s.pop k tmp_tasks).view fd).io k).Calls := by
  obtain ⟨tasks, htasks, hview⟩ := view_pop hphase (congrArg some hcb)
  have hmem : .callback (some cb) ∈ ((s.view fd).io k).tasks := by simp [htasks]
  obtain ⟨c, hconn, rfl, hkept⟩ := h.kept (not_free_of_task hmem)
  have hcalls (hall : ((s.view fd).io c.io_thread).Calls) :
      ({ (s.view fd).io c.io_thread with tasks := tasks } : IoView).Calls := by
    intro task htask
    apply hall
    rw [htasks]
    exact List.mem_cons_of_mem _ htask
  rw [hview]
  cases hkept.stage with
  | waiting _ _ hwaiting =>
    rw [htasks] at hwaiting
    simp at hwaiting
  | live hstate hevent hall hreg =>
    refine ⟨c, hconn, rfl, ?_, by simpa [View.setIo] using hcalls hall⟩
    exact hkept.setIo (by exact hkept.opened _) (.live hstate hevent (hcalls hall) hreg)
  | closed hstate hevent hall hepoll hlisted =>
    refine ⟨c, hconn, rfl, ?_, by simpa [View.setIo] using hcalls hall⟩
    exact hkept.setIo (by exact hkept.opened _) (.closed hstate hevent (hcalls hall) hepoll hlisted)

/-! ### The callbacks -/

theorem onRead_cases {conn : TcpConnection Unit} {reads : List ReadResult}
    {out : TcpConnection.OnRead Unit} (hstate : conn.m_state = .Connected)
    (h : conn.onRead reads = some out) :
    (out.excutes = true ∧ ∃ m_in_buffer, out.conn = { conn with m_in_buffer }) ∨
    (out.excutes = false ∧ ∃ m_in_buffer,
      out.conn = { conn with m_in_buffer, m_fd_event := {}, m_state := .Closed }) := by
  unfold TcpConnection.onRead at h
  rw [if_neg (by simp [hstate])] at h
  obtain ⟨r, -, h⟩ := Option.bind_eq_some_iff.mp h
  obtain rfl := Option.some.inj h
  cases r.is_close with
  | true => exact Or.inr ⟨rfl, r.buffer, by simp [TcpConnection.clear, hstate]⟩
  | false => exact Or.inl ⟨rfl, r.buffer, rfl⟩

theorem excute_server {conn conn' : TcpConnection Unit} {input : Input}
    {calls : List (Unit × TinyPBProtocol)}
    (hserver : conn.m_connection_type = .TcpConnectionByServer)
    (h : conn.excute input.turns input.dispatch = some (conn', calls)) :
    conn'.m_state = conn.m_state ∧ conn'.m_connection_type = .TcpConnectionByServer ∧
      conn'.m_fd_event.in_event = conn.m_fd_event.in_event := by
  obtain ⟨result, m_in_buffer, -, hcases⟩ := TcpConnection.excute_cases h
  obtain ⟨-, -, sent, m_out_buffer, -, rfl⟩ | ⟨hclient, -⟩ := hcases
  · exact ⟨rfl, hserver, rfl⟩
  · rw [hserver] at hclient
    simp at hclient

theorem view_replaced {conn : TcpConnection Unit} (cb : Callback) (hcb : cb.fd = fd) :
    ((s.setConn fd { c with conn }).listen cb .OUT_EVENT).view fd =
      { s.view fd with
        conn := some { c with conn }
        event := conn.m_fd_event
        callbacks := { s.callbacks fd with m_write_callback := some cb } } := by
  subst hcb
  simp [view, setConn, listen]

theorem Kept.added (h : Kept fd c (s.view fd)) {conn : TcpConnection Unit}
    {callbacks : Callbacks} (hview : t.view fd =
      { s.view fd with conn := some { c with conn }, event := conn.m_fd_event, callbacks })
    (hread : callbacks.m_read_callback = some (.onRead fd))
    (hwrite : ∀ cb, callbacks.m_write_callback = some cb → cb = .onWrite fd)
    (hserver : conn.m_connection_type = .TcpConnectionByServer)
    (hstate : conn.m_state = .Connected) (hevent : conn.m_fd_event.in_event = true)
    (hcalls : ((s.view fd).io c.io_thread).Calls) :
    Good (t.addEpollEvent (some c.io_thread) c.io_thread fd) fd := by
  have hopened : ((t.view fd).io c.io_thread).opened := by
    rw [hview]
    exact h.opened c.io_thread
  have hsame : ((t.view fd).io c.io_thread).Same := by
    rw [hview]
    exact h.stage.same
  have hadd := view_add hopened hsame
  unfold addEpollEvent
  rw [if_pos rfl]
  refine Kept.good (c := { c with conn }) ?_ ?_
  · rw [hadd, hview]
    refine ⟨fun k => ?_, fun k hk => ?_, rfl, hserver, hread, hwrite, ?_⟩
    · by_cases hk : k = c.io_thread
      · simpa [View.setIo, hk] using h.opened c.io_thread
      · simpa [View.setIo, update_of_ne hk] using h.opened k
    · simpa [View.setIo, update_of_ne hk] using h.elsewhere k hk
    · simp only [View.setIo, update_self]
      exact .live (Or.inr hstate) hevent hcalls (Or.inl ⟨rfl, trivial⟩)
  · exact congrArg View.conn hview

theorem Kept.connected_live (h : Kept fd c (s.view fd)) (hstate : c.conn.m_state = .Connected)
    (hcalls : ((s.view fd).io c.io_thread).Calls) : c.conn.m_fd_event.in_event = true := by
  rw [h.same]
  cases h.stage with
  | waiting _ _ htasks => exact absurd htasks hcalls.not_waiting
  | live _ hevent => exact hevent
  | closed hclosed =>
    rw [hstate] at hclosed
    simp at hclosed

theorem onRead_good {input : Input} (h : ∀ n, Good s n) (hkept : Kept fd c (s.view fd))
    (hcalls : ((s.view fd).io c.io_thread).Calls)
    (ht : s.onRead c.io_thread fd c input = some t) (n : Nat) : Good t n := by
  unfold onRead at ht
  split at ht
  · obtain rfl := Option.some.inj ht
    exact h n
  rename_i hstate
  replace hstate := not_not.mp hstate
  have hin := hkept.connected_live hstate hcalls
  obtain ⟨out, hout, ht⟩ := Option.bind_eq_some_iff.mp ht
  obtain ⟨hexcutes, m_in_buffer, hc'⟩ | ⟨hexcutes, m_in_buffer, hc'⟩ := onRead_cases hstate hout
  · -- The connection goes on, and listens for writing now.
    rw [if_pos hexcutes] at ht
    obtain ⟨⟨conn, calls⟩, hexc, ht⟩ := Option.bind_eq_some_iff.mp ht
    obtain rfl := Option.some.inj ht
    obtain ⟨hsame, hserver, hevent⟩ :=
      excute_server (by simpa [hc'] using hkept.server) hexc
    by_cases hn : n = fd
    · subst hn
      apply hkept.added (view_replaced (.onWrite n) rfl) hkept.read (by simp) hserver
      · rw [hsame, hc', hstate]
      · rw [hevent, hc', hin]
      · exact hcalls
    · apply (h n).of_view
      unfold addEpollEvent
      rw [if_pos rfl, view_add_ne hn, view_listen_ne hn, view_setConn_ne hn]
  · -- The peer has closed, and nothing is left of the registration.
    rw [if_neg (by simp [hexcutes])] at ht
    obtain rfl := Option.some.inj ht
    unfold deleteEpollEvent
    rw [if_pos rfl]
    by_cases hn : n = fd
    · subst hn
      have hset := view_setConn s n { c with conn := out.conn }
      have hdel := @view_delete (s.setConn n { c with conn := out.conn }) c.io_thread n
        (by rw [hset]; exact hkept.stage.same)
      refine Kept.good (c := { c with conn := out.conn }) ?_ (congrArg View.conn hset)
      rw [hdel, hset]
      refine ⟨fun k => ?_, fun k hk => ?_, rfl, ?_, hkept.read, hkept.write, ?_⟩
      · by_cases hk : k = c.io_thread
        · simpa [View.setIo, hk] using hkept.opened c.io_thread
        · simpa [View.setIo, update_of_ne hk] using hkept.opened k
      · simpa [View.setIo, update_of_ne hk] using hkept.elsewhere k hk
      · simpa [hc'] using hkept.server
      · simp only [View.setIo, update_self]
        exact .closed (by rw [hc']) (by rw [hc']) hcalls rfl not_false
    · apply (h n).of_view
      rw [view_delete_ne hn, view_setConn_ne hn]

theorem Kept.setConn (h : Kept fd c (s.view fd)) {conn : TcpConnection Unit}
    (hevent : conn.m_fd_event = c.conn.m_fd_event)
    (hserver : conn.m_connection_type = .TcpConnectionByServer)
    (hstate : c.conn.m_state ≠ .Closed) (hstate' : conn.m_state = .Connected) :
    Good (s.setConn fd { c with conn }) fd := by
  have hset := view_setConn s fd { c with conn }
  refine Kept.good (c := { c with conn }) ?_ (congrArg View.conn hset)
  rw [hset]
  refine ⟨h.opened, h.elsewhere, rfl, hserver, h.read, h.write, ?_⟩
  have hsame : conn.m_fd_event = (s.view fd).event := hevent.trans h.same
  cases h.stage with
  | waiting _ hevent htasks hevents hepoll hlisted =>
    exact .waiting (Or.inr hstate') (hsame.trans hevent) htasks hevents hepoll hlisted
  | live _ hevent htasks hreg =>
    simp only [hsame]
    exact .live (Or.inr hstate') hevent htasks hreg
  | closed hclosed => exact absurd hclosed hstate

theorem onWrite_good {input : Input} (h : ∀ n, Good s n) (hkept : Kept fd c (s.view fd))
    (hcalls : ((s.view fd).io c.io_thread).Calls)
    (ht : s.onWrite c.io_thread fd c input = some t) (n : Nat) : Good t n := by
  unfold onWrite at ht
  split at ht
  · obtain rfl := Option.some.inj ht
    exact h n
  rename_i hstate
  replace hstate := not_not.mp hstate
  have hin := hkept.connected_live hstate hcalls
  obtain ⟨is_all_write, -, ht⟩ := Option.bind_eq_some_iff.mp ht
  obtain rfl := Option.some.inj ht
  cases is_all_write with
  | true =>
    simp only [if_true]
    by_cases hn : n = fd
    · subst hn
      apply hkept.added (view_setConn s n _) hkept.read hkept.write
      · exact hkept.server
      · exact hstate
      · exact hin
      · exact hcalls
    · apply (h n).of_view
      unfold addEpollEvent
      rw [if_pos rfl, view_add_ne hn, view_setConn_ne hn]
  | false =>
    by_cases hn : n = fd
    · subst hn
      exact hkept.setConn rfl hkept.server (by simp [hstate]) hstate
    · apply (h n).of_view
      exact view_setConn_ne hn _

/-! ### Each operation -/

theorem swap_good (h : Good s fd) (hphase : (s.io k).phase = .top) :
    Good (s.setIo k { s.io k with
      phase := .draining (s.io k).m_pending_tasks, m_pending_tasks := [] }) fd := by
  apply h.of_view
  apply view_setIo_same
  simp [IoThread.view, IoThread.tasks, IoThread.events, hphase]

theorem again_good (h : Good s fd) (hphase : (s.io k).phase = .posting []) :
    Good (s.setIo k { s.io k with phase := .top }) fd := by
  apply h.of_view
  apply view_setIo_same
  simp [IoThread.view, IoThread.tasks, IoThread.events, hphase]

theorem epoll_wait_good (h : Good s fd) (hphase : (s.io k).phase = .draining [])
    {events : List Ready} (hevents : events.all (reported (s.io k))) :
    Good (s.setIo k { s.io k with phase := .posting events }) fd := by
  have hview : ({ s.io k with phase := .posting events } : IoThread).view fd =
      { (s.io k).view fd with events := events.filter fun r => r.fd = fd } := by
    simp [IoThread.view, IoThread.tasks, IoThread.events, hphase]
  exact h.setEvents hview fun hnone _ => events_nil hevents hnone

theorem addCallback_good (h : Good s fd) {cb : Option Callback}
    (hcb : ∀ cb' ∈ cb, cb'.fd = fd → ∃ c, s.connections fd = some c ∧ c.io_thread = k ∧
      ((s.view fd).io k).tasks ≠ [.addEpollEvent fd]) :
    Good (s.addTask k (.callback cb)) fd := by
  by_cases hfd : (Task.callback cb).fd = some fd
  · obtain ⟨cb', hcb', hfd'⟩ := Option.map_eq_some_iff.mp hfd
    obtain ⟨c, hconn, rfl, hcalled⟩ := hcb cb' hcb' hfd'
    have hkept := h.of_conn hconn
    refine Kept.good (c := c) ?_ hconn
    rw [view_addTask hfd]
    refine hkept.setIo (by exact hkept.opened _) ?_
    have hcalls (hall : ((s.view fd).io c.io_thread).Calls) :
        ∀ task ∈ ((s.view fd).io c.io_thread).tasks ++ [.callback cb],
          ∃ cb, task = .callback (some cb) := by
      intro task htask
      obtain htask | htask := List.mem_append.mp htask
      · exact hall task htask
      · exact ⟨cb', by rw [List.mem_singleton.mp htask, hcb']⟩
    cases hkept.stage with
    | waiting _ _ hwaiting => exact absurd hwaiting hcalled
    | live hstate hevent hall hreg => exact .live hstate hevent (hcalls hall) hreg
    | closed hstate hevent hall hepoll hlisted =>
      exact .closed hstate hevent (hcalls hall) hepoll hlisted
  · exact h.of_view (view_addTask_ne hfd k)

theorem handle_fd {cb : Callbacks} (hread : cb.m_read_callback = some (.onRead fd))
    (hwrite : ∀ cb', cb.m_write_callback = some cb' → cb' = .onWrite fd)
    {event_type : TriggerEvent} {cb' : Callback} (h : cb.handle event_type = some cb') :
    cb'.fd = fd := by
  cases event_type with
  | IN_EVENT =>
    rw [Callbacks.handle, hread] at h
    rw [← Option.some.inj h]
    rfl
  | OUT_EVENT =>
    rw [hwrite cb' h]
    rfl

theorem posted_kept {r : Ready} {events : List Ready} (h : Good s r.fd)
    (hphase : (s.io k).phase = .posting (r :: events)) :
    ∃ c, s.connections r.fd = some c ∧ c.io_thread = k ∧ Kept r.fd c (s.view r.fd) ∧
      ((s.view r.fd).io k).tasks ≠ [.addEpollEvent r.fd] := by
  have hmem : r ∈ ((s.view r.fd).io k).events := by
    simp [view, IoThread.view, IoThread.events, hphase]
  obtain ⟨c, hconn, rfl, hkept⟩ := h.kept (not_free_of_event hmem)
  refine ⟨c, hconn, rfl, hkept, ?_⟩
  cases hkept.stage with
  | waiting _ _ _ hevents =>
    rw [hevents] at hmem
    simp at hmem
  | live _ _ hall => exact hall.not_waiting
  | closed _ _ hall => exact hall.not_waiting

theorem popEvent_good (h : Good s fd) {r : Ready} {events : List Ready}
    (hphase : (s.io k).phase = .posting (r :: events)) :
    Good (s.setIo k { s.io k with phase := .posting events }) fd := by
  have hview : ({ s.io k with phase := .posting events } : IoThread).view fd =
      { (s.io k).view fd with events := events.filter fun r => r.fd = fd } := by
    simp [IoThread.view, IoThread.tasks, IoThread.events, hphase]
  apply h.setEvents hview
  intro _ hnil
  simp only [IoThread.view, IoThread.events, hphase, List.filter_eq_nil_iff] at hnil ⊢
  intro r hr
  exact hnil r (List.mem_cons_of_mem _ hr)

theorem error_good (hkept : Kept fd c (s.view fd))
    (hconn : s.connections fd = some c) (hcalled : ((s.view fd).io c.io_thread).tasks ≠
      [.addEpollEvent fd]) :
    Good { s.deleteEpollEvent (some c.io_thread) c.io_thread fd with errors := fd :: s.errors }
      fd := by
  have hdel := view_delete hkept.stage.same
  have hview : ({ s.deleteEpollEvent (some c.io_thread) c.io_thread fd with
      errors := fd :: s.errors } : TcpServer).view fd =
      { (s.view fd).setIo c.io_thread
        { (s.view fd).io c.io_thread with epoll := none, listed := False } with
        errored := True } := by
    rw [← hdel]
    simp [deleteEpollEvent, view]
  refine Kept.good (c := c) ?_ ((congrArg View.conn hview).trans hconn)
  rw [hview]
  refine ⟨fun k => ?_, fun k hk => ?_, hkept.same, hkept.server, hkept.read, hkept.write, ?_⟩
  · by_cases hk : k = c.io_thread
    · simpa [View.setIo, hk] using hkept.opened c.io_thread
    · simpa [View.setIo, update_of_ne hk] using hkept.opened k
  · simpa [View.setIo, update_of_ne hk] using hkept.elsewhere k hk
  · simp only [View.setIo, update_self]
    cases hkept.stage with
    | waiting _ _ htasks => exact absurd htasks hcalled
    | live hstate hevent hall => exact .live hstate hevent hall (Or.inr ⟨trivial, rfl, not_false⟩)
    | closed hstate hevent hall => exact .closed hstate hevent hall rfl not_false

theorem post_good (h : ∀ n, Good s n) {r : Ready} {events : List Ready}
    (hphase : (s.io k).phase = .posting (r :: events)) (n : Nat) :
    Good ((s.setIo k { s.io k with phase := .posting events }).post k r) n := by
  have hpop := popEvent_good (h n) hphase
  obtain ⟨c, hconn, rfl, hkept, hcalled⟩ := posted_kept (h r.fd) hphase
  have htasks (n : Nat) : (((s.setIo c.io_thread { s.io c.io_thread with
      phase := .posting events }).view n).io c.io_thread).tasks =
      ((s.view n).io c.io_thread).tasks := by
    rw [view_setIo]
    simp [View.setIo, view, IoThread.view, IoThread.tasks, hphase]
  cases r with
  | event fd event_type =>
    apply addCallback_good hpop
    intro cb hcb hfd
    have hcbfd : cb.fd = fd := handle_fd hkept.read hkept.write hcb
    rw [hfd] at hcbfd
    subst hcbfd
    refine ⟨c, hconn, rfl, ?_⟩
    rw [htasks]
    exact hcalled
  -- `EPOLLERR` unregisters, and the callbacks that are queued stay.
  | error fd =>
    by_cases hn : n = fd
    · subst hn
      apply error_good (hpop.of_conn hconn) hconn
      rw [htasks]
      exact hcalled
    · apply hpop.of_view
      have hdel := @view_delete_ne (s.setIo c.io_thread { s.io c.io_thread with
        phase := .posting events }) c.io_thread n fd hn
      rw [← hdel]
      simp [post, deleteEpollEvent, view, hn, setLoop, setIo]

theorem addTask_good (h : ∀ n, Good s n) {fd : Nat} {tmp_tasks : List Task}
    (hphase : (s.io k).phase = .draining (.addEpollEvent fd :: tmp_tasks)) (n : Nat) :
    Good ((s.pop k tmp_tasks).setLoop k (((s.pop k tmp_tasks).loop k).addEpollEvent fd)) n := by
  by_cases hn : n = fd
  · subst hn
    obtain ⟨tasks, htasks, hview⟩ := view_pop hphase rfl
    have hmem : .addEpollEvent n ∈ ((s.view n).io k).tasks := by simp [htasks]
    obtain ⟨c, hconn, rfl, hkept⟩ := (h n).kept (not_free_of_task hmem)
    have hopened : (((s.pop c.io_thread tmp_tasks).view n).io c.io_thread).opened := by
      rw [hview]
      simpa [View.setIo] using hkept.opened c.io_thread
    have hsame : (((s.pop c.io_thread tmp_tasks).view n).io c.io_thread).Same := by
      rw [hview]
      simpa [View.setIo, IoView.Same] using hkept.stage.same
    have hadd := view_add hopened hsame
    refine Kept.good (c := c) ?_ hconn
    rw [hadd, hview]
    have hreg : Kept n c ((s.view n).setIo c.io_thread
        { (s.view n).io c.io_thread with
          epoll := some (s.view n).event, listed := True, tasks := tasks }) := by
      refine hkept.setIo (by exact hkept.opened _) ?_
      cases hkept.stage with
      | waiting hstate hevent hwaiting =>
        rw [htasks] at hwaiting
        obtain rfl : tasks = [] := by simpa using hwaiting
        refine .live hstate ?_ (by simp [IoView.Calls]) (Or.inl ⟨rfl, trivial⟩)
        rw [hevent]
      -- Behind its registration a connection has only callbacks in the queue.
      | live _ _ hall =>
        obtain ⟨cb, hcb⟩ := hall _ hmem
        simp at hcb
      | closed _ _ hall =>
        obtain ⟨cb, hcb⟩ := hall _ hmem
        simp at hcb
    simpa [View.setIo] using hreg
  · apply (h n).of_view
    rw [view_add_ne hn, view_pop_ne hphase fun hfd => hn (Option.some.inj hfd).symm]

theorem runTask_good (h : ∀ n, Good s n) {input : Input} {task : Task} {tmp_tasks : List Task}
    (hphase : (s.io k).phase = .draining (task :: tmp_tasks))
    (ht : (s.pop k tmp_tasks).run k input task = some t) (n : Nat) : Good t n := by
  have hnone (h0 : task.fd = none) (n : Nat) : Good (s.pop k tmp_tasks) n :=
    (h n).of_view (view_pop_ne hphase (by simp [h0]))
  have hpop (cb : Callback) (h0 : task = .callback (some cb)) (n : Nat) :
      Good (s.pop k tmp_tasks) n := by
    subst h0
    by_cases hn : cb.fd = n
    · obtain ⟨c, hconn, -, hkept, -⟩ := pop_called (h n) hn hphase
      exact hkept.good hconn
    · exact (h n).of_view (view_pop_ne hphase (by simpa [Task.fd] using hn))
  cases task with
  | addEpollEvent fd =>
    obtain rfl := Option.some.inj ht
    exact addTask_good h hphase n
  | deleteEpollEvent fd =>
    -- Such a task is never there.
    obtain ⟨tasks, htasks, -⟩ := view_pop hphase rfl
    have hmem : .deleteEpollEvent fd ∈ ((s.view fd).io k).tasks := by simp [htasks]
    obtain ⟨c, hconn, rfl, hkept⟩ := (h fd).kept (not_free_of_task hmem)
    exact absurd hmem hkept.stage.no_delete
  | callback cb =>
    cases cb with
    | none =>
      obtain rfl := Option.some.inj ht
      exact hnone rfl n
    | some cb =>
      obtain ⟨c, hconn, rfl, hkept, hcalls⟩ := pop_called (h cb.fd) rfl hphase
      cases cb with
      | onRead fd =>
        simp only [run, Callback.fd] at ht hconn hkept hcalls
        rw [hconn] at ht
        exact onRead_good (hpop _ rfl) hkept hcalls ht n
      | onWrite fd =>
        simp only [run, Callback.fd] at ht hconn hkept hcalls
        rw [hconn] at ht
        exact onWrite_good (hpop _ rfl) hkept hcalls ht n

/-! ### Accepting -/

/-- The threads of a process have the same descriptors. -/
def Shared (s : TcpServer) : Prop := ∀ k, (s.io k).kernel.opened = (s.io 0).kernel.opened

theorem view_accept (h : Shared s) (n : Nat) :
    s.accept.2.view n = { s.view n with io := fun k => { (s.view n).io k with
      opened := n = s.accept.1 ∨ n ∈ (s.io 0).kernel.opened } } := by
  unfold view accept
  simp only [View.mk.injEq, true_and]
  funext k
  have hopened : n ∈ (s.io k).kernel.socket.2.opened ↔
      n = s.accept.1 ∨ n ∈ (s.io 0).kernel.opened := by
    simp only [Kernel.socket, accept, Finset.mem_insert, h k]
  simp only [IoThread.view, IoView.mk.injEq]
  exact ⟨propext hopened, by simp [Kernel.socket, IoThread.tasks, IoThread.events]⟩

theorem accept_fresh (h : Good s s.accept.1) : s.connections s.accept.1 = none := by
  cases hconn : s.connections s.accept.1 with
  | none => rfl
  | some c =>
    have hmem : s.accept.1 ∈ (s.io 0).kernel.opened := (h.of_conn hconn).opened 0
    exact absurd hmem (Kernel.lowestFree_notMem _)

theorem newConnection_eq (s : TcpServer) (k fd : Nat) :
    s.newConnection k fd = ((s.setConn fd (.new k (s.fdEvents fd))).listen
      (.onRead fd) .IN_EVENT).addTask k (.addEpollEvent fd) := by
  unfold newConnection addEpollEvent
  rw [if_neg (by simp)]

@[simp] theorem newConnection_group (s : TcpServer) (k fd : Nat) :
    (s.newConnection k fd).m_io_thread_group = s.m_io_thread_group := by
  rw [newConnection_eq]
  rfl

@[simp] theorem newConnection_accepting (s : TcpServer) (k fd : Nat) :
    (s.newConnection k fd).accepting = s.accepting := by
  rw [newConnection_eq]
  rfl

@[simp] theorem newConnection_client (s : TcpServer) (k fd : Nat) :
    (s.newConnection k fd).m_client = s.m_client := by
  rw [newConnection_eq]
  rfl

theorem view_newConnection (s : TcpServer) (k fd : Nat) :
    (s.newConnection k fd).view fd =
      { s.view fd with
        conn := some (.new k (s.fdEvents fd))
        event := (s.fdEvents fd).listen .IN_EVENT
        callbacks := { s.callbacks fd with m_read_callback := some (.onRead fd) }
        io := update (s.view fd).io k { (s.view fd).io k with
          tasks := ((s.view fd).io k).tasks ++ [.addEpollEvent fd] } } := by
  rw [newConnection_eq, view_addTask rfl]
  simp [view, View.setIo, setConn, listen, Callback.fd, Connection.new]

theorem newConnection_good (h : Untouched (s.view fd)) (hopened : ∀ k, ((s.view fd).io k).opened) :
    Good (s.newConnection k fd) fd := by
  have hevent : s.fdEvents fd = {} := h.event
  have hcallbacks : (s.callbacks fd).m_write_callback = none := h.callbacks.2
  have hfree := h.free k
  have hview := view_newConnection s k fd
  refine Kept.good (c := .new k (s.fdEvents fd)) ?_ (congrArg View.conn hview)
  rw [hview]
  refine ⟨fun j => ?_, fun j hj => ?_, rfl, rfl, rfl, by simp [hcallbacks], ?_⟩
  · by_cases hj : j = k
    · simpa [hj] using hopened k
    · simpa [update_of_ne hj] using hopened j
  · have hne : j ≠ k := hj
    simpa [update_of_ne hne] using h.free j
  · simp only [Connection.new, update_self]
    apply Stage.waiting
    · exact Or.inl rfl
    · simp [hevent, FdEvent.listen]
    · simp [hfree.tasks]
    · exact hfree.events
    · exact hfree.epoll
    · exact hfree.listed

theorem newConnection_ne {n : Nat} (hn : n ≠ fd) :
    (s.newConnection k fd).view n = s.view n := by
  rw [newConnection_eq, view_addTask_ne, view_listen_ne hn, view_setConn_ne hn]
  intro hfd
  exact hn (Option.some.inj hfd).symm

theorem onAccept_good (hshared : Shared s) (h : ∀ n, Good s n) (ht : s.onAccept = some t)
    (n : Nat) : Good t n := by
  have haccept := view_accept hshared n
  have hfresh := accept_fresh (h _)
  obtain ⟨⟨k, g⟩, -, ht⟩ := Option.bind_eq_some_iff.mp ht
  obtain rfl := Option.some.inj ht
  have hview : (s.accept.2.take s.accept.1 g).view n = s.accept.2.view n := rfl
  by_cases hn : n = s.accept.1
  · subst hn
    have huntouched := h s.accept.1
    unfold Good at huntouched
    rw [hfresh] at huntouched
    apply newConnection_good
    · rw [hview, haccept]
      refine ⟨huntouched.event, huntouched.callbacks, fun j => ?_⟩
      have hfree := huntouched.free j
      exact ⟨hfree.epoll, hfree.listed, hfree.tasks, hfree.events⟩
    · intro j
      rw [hview, haccept]
      exact Or.inl rfl
  · apply (h n).of_view
    rw [newConnection_ne hn, hview, haccept]
    have hsame (k : Nat) : { (s.view n).io k with
        opened := n = s.accept.1 ∨ n ∈ (s.io 0).kernel.opened } = (s.view n).io k := by
      simp [view, IoThread.view, hn, hshared k]
    simp only [hsame]

end TinyRpc.TcpServer
