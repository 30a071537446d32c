import TinyRpc.EventLoop.Clients

/-!
# The callback of a connection that is set up

`TcpClient::connect` leaves its callback in the `FdEvent` of the descriptor, as
the callback for writing. When it has run, `deleteEpollEvent` takes the
descriptor out of the loop; the callback and the bit of its event stay in the
`FdEvent`.
-/

namespace TinyRpc.EventLoop

open Function Lib

/-! ## One client -/

inductive Callback where
  /-- What `connect` leaves: it asks for the result and calls `done`. -/
  | connect
  | onRead
  | onWrite
  /-- What an earlier user of the descriptor has left. -/
  | other
  deriving DecidableEq

/-- How far a call of `connect` is. -/
inductive Phase where
  | idle | connecting | done
  deriving DecidableEq

structure Connecting where
  loop : EventLoop
  client : Client
  m_read_callback : Callback := .other
  m_write_callback : Callback := .other
  /-- The tasks of the loop that come from the descriptor. -/
  tasks : List Callback := []
  phase : Phase := .idle
  /-- How often `done` was called. -/
  dones : Nat := 0

inductive Connecting.Event where
  | connect (rt : ConnectResult)
  | writeMessage
  | readMessage
  /-- `epoll_wait` reports the descriptor. -/
  | report (events : FdEvent) (error : Bool)
  /-- The next task of the descriptor is run. -/
  | reconnect (rt : ReconnectResult)
  | onRead (is_close : Bool)
  | onWrite (is_all_write : Bool)
  | other
  /-- Other users of the loop leave it like this. -/
  | others (loop : EventLoop)

/-- A call of `addEpollEvent` does not fail. -/
def Registrable (l : EventLoop) (fd : Nat) : Prop :=
  fd ∈ l.kernel.opened ∧ (fd ∈ l.m_listen_fds → (l.kernel.epoll fd).isSome)

instance (l : EventLoop) (fd : Nat) : Decidable (l.Registrable fd) :=
  inferInstanceAs (Decidable (_ ∧ _))

namespace Connecting

def fd (s : Connecting) : Nat := s.client.m_fd_event

/-- An operation of the client on the loop. -/
def operate (s : Connecting) (op : Clients → Clients) : Connecting :=
  let r := op { loop := s.loop, clients := fun _ => some s.client }
  { s with loop := r.loop, client := (r.clients 0).getD s.client }

def listen (s : Connecting) (event_type : TriggerEvent) : Connecting :=
  s.operate fun r => r.put 0 s.client (r.listen s.client event_type)

def connect (s : Connecting) (rt : ConnectResult) : Connecting :=
  let s := s.operate fun r => r.connect 0 s.client rt
  match rt with
  | .inProgress => { s with m_write_callback := .connect, phase := .connecting }
  | .success | .failed _ => { s with phase := .done, dones := s.dones + 1 }

def reconnect (s : Connecting) (rt : ReconnectResult) : Connecting :=
  let s := s.operate fun r => r.reconnect 0 s.client rt
  { s with phase := .done, dones := s.dones + 1 }

/-- The callbacks of the events that are reported are queued. -/
def handle (s : Connecting) (events : FdEvent) : List Callback :=
  (if events.in_event then [s.m_read_callback] else []) ++
    (if events.out_event then [s.m_write_callback] else [])

def report (s : Connecting) (events : FdEvent) (error : Bool) : Connecting :=
  { s with
    tasks := s.tasks ++ s.handle events
    loop := if error then s.loop.deleteEpollEvent s.fd else s.loop }

/-- What the kernel can report: what the descriptor is registered for, and with an
error that it can be written. -/
def Reported (mask events : FdEvent) (error : Bool) : Prop :=
  (events.in_event → mask.in_event) ∧ (events.out_event → mask.out_event) ∧
    (error → mask.out_event → events.out_event)

instance (mask events : FdEvent) (error : Bool) : Decidable (Reported mask events error) :=
  inferInstanceAs (Decidable (_ ∧ _))

/-- The others do nothing to the descriptor. -/
structure LeftAlone (fd : Nat) (l l' : EventLoop) : Prop where
  fdEvents : l'.fdEvents fd = l.fdEvents fd
  epoll : l'.kernel.epoll fd = l.kernel.epoll fd
  listen_fds : fd ∈ l'.m_listen_fds ↔ fd ∈ l.m_listen_fds

/-- A callback is run from the front of the queue. The loop asks the kernel again
when the queue is empty. -/
inductive Step (s : Connecting) : Event → Connecting → Prop
  | connect (rt : ConnectResult) (h : s.phase = .idle) : Step s (.connect rt) (s.connect rt)
  | writeMessage (h : s.phase = .done) :
    Step s .writeMessage { s.listen .OUT_EVENT with m_write_callback := .onWrite }
  | readMessage (h : s.phase = .done) :
    Step s .readMessage { s.listen .IN_EVENT with m_read_callback := .onRead }
  | report (mask events : FdEvent) (error : Bool) (htasks : s.tasks = [])
    (hmask : s.loop.kernel.epoll s.fd = some mask) (h : Reported mask events error) :
    Step s (.report events error) (s.report events error)
  | reconnect (rt : ReconnectResult) (tasks : List Callback) (h : s.tasks = .connect :: tasks) :
    Step s (.reconnect rt) { s.reconnect rt with tasks }
  | onRead (is_close : Bool) (tasks : List Callback) (h : s.tasks = .onRead :: tasks) :
    Step s (.onRead is_close)
      { s.operate fun r => r.onRead 0 s.client is_close with tasks }
  | onWrite (is_all_write : Bool) (tasks : List Callback) (h : s.tasks = .onWrite :: tasks) :
    Step s (.onWrite is_all_write)
      { s.operate fun r => r.onWrite 0 s.client is_all_write with tasks }
  | other (tasks : List Callback) (h : s.tasks = .other :: tasks) :
    Step s .other { s with tasks }
  | others (loop : EventLoop) (h : LeftAlone s.fd s.loop loop) :
    Step s (.others loop) { s with loop }

/-- What is in the kernel is in the set of the loop. -/
def Known (s : Connecting) : Prop :=
  (s.loop.kernel.epoll s.fd).isSome → s.fd ∈ s.loop.m_listen_fds

def system : System Connecting Event where
  start s := s.Known ∧ s = { loop := s.loop, client := s.client }
  step := Step

/-- A write event of the descriptor dispatches the callback of `connect`. -/
def Armed (s : Connecting) : Prop :=
  s.m_write_callback = .connect ∧
    (s.loop.kernel.epoll s.fd).any FdEvent.out_event

/-- `done` is called once, when the connection is set up or has failed. Until then its
callback is waited for, and after that not any more. -/
structure Once (s : Connecting) : Prop where
  once : s.dones = if s.phase = .done then 1 else 0
  pending : s.phase = .connecting → .connect ∈ s.tasks ∨ s.Armed
  ended : s.phase = .done → .connect ∉ s.tasks ∧ ¬ s.Armed

/-- The descriptor is registered when `connect` is in progress, and is not registered
again for reading while the `FdEvent` still has the write event of `connect`. -/
def Proper (s : Connecting) : Event → Prop
  | .connect .inProgress => s.loop.Registrable s.fd
  | .readMessage => ¬ (s.m_write_callback = .connect ∧ (s.loop.fdEvents s.fd).out_event ∧
      s.loop.Registrable s.fd)
  | _ => True

/-! ## The registration -/

theorem addEpollEvent_registered {l : EventLoop} {fd : Nat}
    (h : (l.kernel.epoll fd).isSome → fd ∈ l.m_listen_fds) :
    (l.addEpollEvent fd).kernel.epoll fd =
      if l.Registrable fd then some (l.fdEvents fd) else none := by
  unfold addEpollEvent EventLoop.epoll_ctl Kernel.epoll_ctl Registrable
  by_cases hfd : fd ∈ l.m_listen_fds
  · by_cases hs : (l.kernel.epoll fd).isSome
    · have hopen := l.kernel.opened_of_epoll fd hs
      simp [hfd, hs, hopen, Kernel.register]
    · simp [hfd, Option.not_isSome_iff_eq_none.mp hs]
  · have hnone : l.kernel.epoll fd = none :=
      Option.not_isSome_iff_eq_none.mp fun hs => hfd (h hs)
    by_cases hopen : fd ∈ l.kernel.opened
    · simp [hfd, hnone, hopen, Kernel.register]
    · simp [hfd, hnone, hopen]

theorem deleteEpollEvent_registered {l : EventLoop} {fd : Nat}
    (h : (l.kernel.epoll fd).isSome → fd ∈ l.m_listen_fds) :
    (l.deleteEpollEvent fd).kernel.epoll fd = none := by
  rw [deleteEpollEvent_epoll]
  split
  · rfl
  · rename_i hfd
    exact Option.not_isSome_iff_eq_none.mp fun hs => hfd ⟨rfl, h hs⟩

theorem Known.of_none {s : Connecting} (h : s.loop.kernel.epoll s.fd = none) : s.Known := by
  unfold Known
  simp [h]

theorem not_armed_of_none {s : Connecting} (h : s.loop.kernel.epoll s.fd = none) :
    ¬ s.Armed := by
  unfold Armed
  simp [h]

theorem not_armed_of_callback {s : Connecting} (h : s.m_write_callback ≠ .connect) :
    ¬ s.Armed := fun harmed => h harmed.1

theorem listen_epoll {s : Connecting} (h : s.Known) (event_type : TriggerEvent) :
    (s.listen event_type).loop.kernel.epoll s.fd =
      if s.loop.Registrable s.fd then some ((s.loop.fdEvents s.fd).listen event_type)
      else none := by
  have hadd := addEpollEvent_registered (l := s.loop.listen s.fd event_type) h
  have hevents : (s.loop.listen s.fd event_type).fdEvents s.fd =
      (s.loop.fdEvents s.fd).listen event_type := update_self ..
  rw [hevents] at hadd
  exact hadd

theorem listen_known {s : Connecting} (event_type : TriggerEvent) :
    (s.listen event_type).Known := fun _ => Finset.mem_insert_self s.fd _

theorem reconnect_epoll {s : Connecting} (h : s.Known) (rt : ReconnectResult) :
    (s.reconnect rt).loop.kernel.epoll s.fd = none := by
  have hclosed : (((s.loop.close s.client.m_fd).socket.2).kernel.epoll s.fd).isSome →
      s.fd ∈ ((s.loop.close s.client.m_fd).socket.2).m_listen_fds := by
    intro hs
    refine h ?_
    by_cases hfd : s.fd = s.client.m_fd
    · rw [hfd] at hs
      simp [EventLoop.socket, Kernel.socket, EventLoop.close, Kernel.close] at hs
    · simpa [EventLoop.socket, Kernel.socket, EventLoop.close, Kernel.close, update_of_ne hfd]
        using hs
  cases rt with
  | success => exact deleteEpollEvent_registered h
  | refused _ | failed _ => exact deleteEpollEvent_registered hclosed

theorem reconnect_fd (s : Connecting) (rt : ReconnectResult) : (s.reconnect rt).fd = s.fd := by
  cases rt <;> rfl

/-! ## What one step keeps -/

structure Held (s : Connecting) : Prop extends Once s where
  known : s.Known
  read : s.m_read_callback ≠ .connect
  count : s.tasks.count .connect ≤ 1
  /-- Before `done`, nobody else has been given the descriptor. -/
  before : s.phase ≠ .done → ∀ task ∈ s.m_read_callback :: s.tasks, task = .other ∨ task = .connect
  idle : s.phase = .idle → .connect ∉ s.tasks ∧ s.m_write_callback = .other
  connecting : s.phase = .connecting → s.m_write_callback = .connect

theorem Held.of_done {s : Connecting} (hphase : s.phase = .done) (hdones : s.dones = 1)
    (htasks : .connect ∉ s.tasks) (harmed : ¬ s.Armed) (hknown : s.Known)
    (hread : s.m_read_callback ≠ .connect) : s.Held := by
  refine ⟨⟨?_, ?_, ?_⟩, hknown, hread, ?_, ?_, ?_, ?_⟩
  · rw [hphase, hdones, if_pos rfl]
  · intro h
    rw [hphase] at h
    cases h
  · exact fun _ => ⟨htasks, harmed⟩
  · rw [List.count_eq_zero_of_not_mem htasks]
    exact Nat.zero_le 1
  · exact fun h => absurd hphase h
  · intro h
    rw [hphase] at h
    cases h
  · intro h
    rw [hphase] at h
    cases h

theorem Held.dones {s : Connecting} (h : s.Held) (hphase : s.phase = .done) : s.dones = 1 := by
  rw [h.once, if_pos hphase]

theorem Held.connect {s : Connecting} (h : s.Held) (hphase : s.phase = .idle)
    (rt : ConnectResult) :
    ((s.connect rt).Once ↔ s.Proper (.connect rt)) ∧
      (s.Proper (.connect rt) → (s.connect rt).Held) := by
  obtain ⟨htasks, hcallback⟩ := h.idle hphase
  have hdones : s.dones = 0 := by
    rw [h.once, hphase]
    exact if_neg (by decide)
  have hother : s.m_write_callback ≠ .connect := by
    rw [hcallback]
    decide
  cases rt with
  | success =>
    have hheld : (s.connect .success).Held := .of_done rfl (congrArg (· + 1) hdones) htasks
      (not_armed_of_callback hother) h.known h.read
    exact ⟨⟨fun _ => trivial, fun _ => hheld.toOnce⟩, fun _ => hheld⟩
  | failed sys_error =>
    have hheld : (s.connect (.failed sys_error)).Held := .of_done rfl
      (congrArg (· + 1) hdones) htasks (not_armed_of_callback hother) h.known h.read
    exact ⟨⟨fun _ => trivial, fun _ => hheld.toOnce⟩, fun _ => hheld⟩
  -- The event of `connect` comes only if the descriptor can be registered.
  | inProgress =>
    have hepoll := listen_epoll h.known .OUT_EVENT
    have harmed : (s.connect .inProgress).Armed ↔ s.loop.Registrable s.fd := by
      have heq : (s.connect .inProgress).Armed ↔
          ((s.listen .OUT_EVENT).loop.kernel.epoll s.fd).any FdEvent.out_event :=
        ⟨fun harmed => harmed.2, fun hany => ⟨rfl, hany⟩⟩
      rw [heq, hepoll]
      by_cases hreg : s.loop.Registrable s.fd
      · simp [hreg, FdEvent.listen]
      · simp [hreg]
    have honce : (s.connect .inProgress).Armed → (s.connect .inProgress).Once := fun hreg =>
      ⟨hdones, fun _ => .inr hreg, fun hp => (by cases hp)⟩
    refine ⟨⟨fun hOnce => ?_, fun hreg => honce (harmed.mpr hreg)⟩, fun hreg => ?_⟩
    · exact harmed.mp ((hOnce.pending rfl).resolve_left htasks)
    · refine ⟨honce (harmed.mpr hreg), listen_known .OUT_EVENT, h.read, h.count, fun _ => ?_,
        fun hp => (by cases hp), fun _ => rfl⟩
      exact h.before (by rw [hphase]; decide)

theorem Held.writeMessage {s : Connecting} (h : s.Held) (hphase : s.phase = .done) :
    ({ s.listen .OUT_EVENT with m_write_callback := .onWrite } : Connecting).Held :=
  .of_done hphase (h.dones hphase) (h.ended hphase).1 (not_armed_of_callback (by simp))
    (listen_known .OUT_EVENT) h.read

theorem Held.readMessage {s : Connecting} (h : s.Held) (hphase : s.phase = .done) :
    let t : Connecting := { s.listen .IN_EVENT with m_read_callback := .onRead }
    (t.Once ↔ s.Proper .readMessage) ∧ (s.Proper .readMessage → t.Held) := by
  intro t
  have hepoll := listen_epoll h.known .IN_EVENT
  have harmed : t.Armed ↔ ¬ s.Proper .readMessage := by
    have heq : t.Armed ↔ s.m_write_callback = .connect ∧
        ((s.listen .IN_EVENT).loop.kernel.epoll s.fd).any FdEvent.out_event := Iff.rfl
    unfold Proper
    rw [heq, hepoll, Decidable.not_not]
    by_cases hreg : s.loop.Registrable s.fd
    · simp [hreg, FdEvent.listen]
    · simp [hreg]
  have hheld : s.Proper .readMessage → t.Held := fun hproper =>
    .of_done hphase (h.dones hphase) (h.ended hphase).1 (fun ha => harmed.mp ha hproper)
      (listen_known .IN_EVENT) (by simp [t])
  refine ⟨⟨fun hOnce => ?_, fun hproper => (hheld hproper).toOnce⟩, hheld⟩
  by_contra hnot
  exact (hOnce.ended hphase).2 (harmed.mpr hnot)

theorem mem_handle {s : Connecting} {events : FdEvent} {task : Callback}
    (h : task ∈ s.handle events) :
    task = s.m_read_callback ∨ task = s.m_write_callback ∧ events.out_event := by
  unfold handle at h
  rcases List.mem_append.mp h with h | h
  · split at h
    · exact .inl (List.mem_singleton.mp h)
    · cases h
  · split at h
    · exact .inr ⟨List.mem_singleton.mp h, ‹_›⟩
    · cases h

theorem count_handle {s : Connecting} (h : s.m_read_callback ≠ .connect) (events : FdEvent) :
    (s.handle events).count .connect ≤ 1 := by
  have hread : (if events.in_event then [s.m_read_callback] else []).count .connect = 0 := by
    split
    · rw [List.count_singleton, if_neg (by simpa using h)]
    · rfl
  unfold handle
  rw [List.count_append, hread, Nat.zero_add]
  split
  · exact List.count_le_length
  · exact Nat.zero_le 1

theorem report_tasks {s : Connecting} (htasks : s.tasks = []) (events : FdEvent) (error : Bool) :
    (s.report events error).tasks = s.handle events := by
  unfold Connecting.report
  simp only [htasks, List.nil_append]

theorem Known.report {s : Connecting} (h : s.Known) (events : FdEvent) (error : Bool) :
    (s.report events error).Known := by
  cases error with
  | true => exact .of_none (deleteEpollEvent_registered h)
  | false => exact h

theorem armed_of_report {s : Connecting} (h : s.Known) {events : FdEvent} {error : Bool}
    (harmed : (s.report events error).Armed) : s.Armed := by
  cases error with
  | true => exact absurd harmed (not_armed_of_none (deleteEpollEvent_registered h))
  | false => exact harmed

theorem Held.report_done {s : Connecting} (h : s.Held) (hphase : s.phase = .done)
    {mask events : FdEvent} {error : Bool} (htasks : s.tasks = [])
    (hmask : s.loop.kernel.epoll s.fd = some mask) (hreported : Reported mask events error) :
    (s.report events error).Held := by
  obtain ⟨-, hnot⟩ := h.ended hphase
  refine .of_done hphase (h.dones hphase) (fun hmem => ?_)
    (fun ha => hnot (armed_of_report h.known ha)) (h.known.report events error) h.read
  rw [report_tasks htasks] at hmem
  rcases mem_handle hmem with hread | ⟨hwrite, hev⟩
  · exact h.read hread.symm
  · refine hnot ⟨hwrite.symm, ?_⟩
    rw [hmask]
    exact hreported.2.1 hev

theorem pending_report {s : Connecting} (hwaits : s.Armed) {mask events : FdEvent} {error : Bool}
    (htasks : s.tasks = []) (hmask : s.loop.kernel.epoll s.fd = some mask)
    (hreported : Reported mask events error) :
    .connect ∈ (s.report events error).tasks ∨ (s.report events error).Armed := by
  cases error with
  | true =>
    have hev : mask.out_event = true := by
      have hout := hwaits.2
      rwa [hmask] at hout
    refine .inl ?_
    rw [report_tasks htasks]
    unfold handle
    rw [if_pos (hreported.2.2 rfl hev), hwaits.1]
    exact List.mem_append_right _ (List.mem_singleton_self _)
  | false => exact .inr hwaits

theorem Held.report_connecting {s : Connecting} (h : s.Held) (hphase : s.phase = .connecting)
    {mask events : FdEvent} {error : Bool} (htasks : s.tasks = [])
    (hmask : s.loop.kernel.epoll s.fd = some mask) (hreported : Reported mask events error) :
    (s.report events error).Held := by
  have hqueue := report_tasks htasks events error
  have hwaits : s.Armed := (h.pending hphase).resolve_left (by simp [htasks])
  refine ⟨⟨h.once, fun _ => pending_report hwaits htasks hmask hreported, fun hp => ?_⟩,
    h.known.report events error, h.read, hqueue ▸ count_handle h.read events,
    fun hp task htask => ?_, fun hp => ?_, fun _ => h.connecting hphase⟩
  · cases hphase.symm.trans hp
  · rw [hqueue] at htask
    rcases List.mem_cons.mp htask with rfl | htask
    · exact h.before hp _ List.mem_cons_self
    rcases mem_handle htask with rfl | ⟨rfl, -⟩
    · exact h.before hp _ List.mem_cons_self
    · exact .inr (h.connecting hphase)
  · cases hphase.symm.trans hp

theorem Held.report_idle {s : Connecting} (h : s.Held) (hphase : s.phase = .idle)
    {events : FdEvent} {error : Bool} (htasks : s.tasks = []) :
    (s.report events error).Held := by
  have hqueue := report_tasks htasks events error
  obtain ⟨-, hcallback⟩ := h.idle hphase
  have hnotDone : s.phase ≠ .done := by
    rw [hphase]
    decide
  have hread : s.m_read_callback = .other :=
    (h.before hnotDone _ List.mem_cons_self).resolve_right h.read
  have hother : ∀ task ∈ s.handle events, task = .other := by
    intro task htask
    rcases mem_handle htask with rfl | ⟨rfl, -⟩
    · exact hread
    · exact hcallback
  refine ⟨⟨h.once, fun hp => ?_, fun hp => ?_⟩, h.known.report events error, h.read,
    hqueue ▸ count_handle h.read events, fun _ task htask => ?_, fun _ => ⟨?_, hcallback⟩,
    fun hp => ?_⟩
  · cases hphase.symm.trans hp
  · cases hphase.symm.trans hp
  · rcases List.mem_cons.mp htask with rfl | htask
    · exact .inl hread
    · exact .inl (hother task (hqueue ▸ htask))
  · rw [hqueue]
    intro hmem
    cases hother _ hmem
  · cases hphase.symm.trans hp

theorem Held.report {s : Connecting} (h : s.Held) {mask events : FdEvent} {error : Bool}
    (htasks : s.tasks = []) (hmask : s.loop.kernel.epoll s.fd = some mask)
    (hreported : Reported mask events error) : (s.report events error).Held := by
  cases hphase : s.phase with
  | done => exact h.report_done hphase htasks hmask hreported
  | connecting => exact h.report_connecting hphase htasks hmask hreported
  | idle => exact h.report_idle hphase htasks

/-! The callbacks that the loop runs. -/

theorem Held.reconnect {s : Connecting} (h : s.Held) {tasks : List Callback}
    (htasks : s.tasks = .connect :: tasks) (rt : ReconnectResult) :
    ({ s.reconnect rt with tasks } : Connecting).Held := by
  have hmem : .connect ∈ s.tasks := by
    rw [htasks]
    exact List.mem_cons_self
  have hphase : s.phase = .connecting := by
    cases hp : s.phase with
    | idle => exact absurd hmem (h.idle hp).1
    | connecting => rfl
    | done => exact absurd hmem (h.ended hp).1
  have hdones : s.dones = 0 := by
    rw [h.once, hphase]
    exact if_neg (by decide)
  have hepoll := reconnect_epoll h.known rt
  rw [← reconnect_fd s rt] at hepoll
  refine .of_done rfl ?_ ?_ (not_armed_of_none hepoll) (.of_none hepoll) ?_
  · cases rt <;> exact congrArg (· + 1) hdones
  · have hcount := h.count
    rw [htasks, List.count_cons_self] at hcount
    have hzero : tasks.count .connect = 0 := by omega
    exact List.count_eq_zero.mp hzero
  · cases rt <;> exact h.read

theorem Held.done_of_task {s : Connecting} (h : s.Held) {task : Callback} {tasks : List Callback}
    (htasks : s.tasks = task :: tasks) (hother : task ≠ .other) (hconnect : task ≠ .connect) :
    s.phase = .done ∧ .connect ∉ tasks := by
  have hphase : s.phase = .done := by
    by_contra hp
    rcases h.before hp task (List.mem_cons_of_mem _ (htasks ▸ List.mem_cons_self)) with ho | hc
    · exact hother ho
    · exact hconnect hc
  exact ⟨hphase, fun hmem => (h.ended hphase).1 (htasks ▸ List.mem_cons_of_mem _ hmem)⟩

theorem Held.onRead {s : Connecting} (h : s.Held) {tasks : List Callback}
    (htasks : s.tasks = .onRead :: tasks) (is_close : Bool) :
    ({ s.operate fun r => r.onRead 0 s.client is_close with tasks } : Connecting).Held := by
  obtain ⟨hphase, hnot⟩ := h.done_of_task htasks (by decide) (by decide)
  unfold operate Clients.onRead
  by_cases hclose : s.client.m_state = .Connected ∧ is_close
  · simp only [if_pos hclose]
    have hepoll := deleteEpollEvent_registered
      (l := (s.loop.cancle s.fd .IN_EVENT).cancle s.fd .OUT_EVENT) h.known
    exact .of_done hphase (h.dones hphase) hnot (not_armed_of_none hepoll) (.of_none hepoll) h.read
  · simp only [if_neg hclose]
    exact .of_done hphase (h.dones hphase) hnot (h.ended hphase).2 h.known h.read

theorem Held.onWrite {s : Connecting} (h : s.Held) {tasks : List Callback}
    (htasks : s.tasks = .onWrite :: tasks) (is_all_write : Bool) :
    ({ s.operate fun r => r.onWrite 0 s.client is_all_write with tasks } : Connecting).Held := by
  obtain ⟨hphase, hnot⟩ := h.done_of_task htasks (by decide) (by decide)
  unfold operate Clients.onWrite
  by_cases hall : s.client.m_state = .Connected ∧ is_all_write
  · simp only [if_pos hall]
    have hepoll := addEpollEvent_registered (l := s.loop.cancle s.fd .OUT_EVENT) h.known
    refine .of_done hphase (h.dones hphase) hnot (fun harmed => ?_)
      (fun _ => Finset.mem_insert_self s.fd _) h.read
    have hany := harmed.2
    have hevents : (s.loop.cancle s.fd .OUT_EVENT).fdEvents s.fd =
        (s.loop.fdEvents s.fd).cancle .OUT_EVENT := update_self ..
    change (Option.any _ (((s.loop.cancle s.fd .OUT_EVENT).addEpollEvent s.fd).kernel.epoll
      s.fd)) = true at hany
    rw [hepoll, hevents] at hany
    split at hany <;> simp [FdEvent.cancle] at hany
  · simp only [if_neg hall]
    exact .of_done hphase (h.dones hphase) hnot (h.ended hphase).2 h.known h.read

theorem Held.other {s : Connecting} (h : s.Held) {tasks : List Callback}
    (htasks : s.tasks = .other :: tasks) : ({ s with tasks } : Connecting).Held := by
  have hmem : .connect ∈ s.tasks ↔ .connect ∈ tasks := by simp [htasks]
  refine ⟨⟨h.once, fun hp => ?_, fun hp => ?_⟩, h.known, h.read, ?_, fun hp task htask => ?_,
    fun hp => ?_, h.connecting⟩
  · exact (h.pending hp).imp_left hmem.mp
  · exact ⟨fun hc => (h.ended hp).1 (hmem.mpr hc), (h.ended hp).2⟩
  · have hcount := h.count
    rwa [htasks, List.count_cons_of_ne (by decide)] at hcount
  · refine h.before hp task ?_
    rw [htasks]
    rcases List.mem_cons.mp htask with rfl | htask
    · exact List.mem_cons_self
    · exact List.mem_cons_of_mem _ (List.mem_cons_of_mem _ htask)
  · exact ⟨fun hc => (h.idle hp).1 (hmem.mpr hc), (h.idle hp).2⟩

theorem Held.others {s : Connecting} (h : s.Held) {loop : EventLoop}
    (hsame : LeftAlone s.fd s.loop loop) : ({ s with loop } : Connecting).Held := by
  have harmed : ({ s with loop } : Connecting).Armed ↔ s.Armed := by
    unfold Armed
    exact and_congr_right fun _ => by rw [← hsame.epoll]; rfl
  refine ⟨⟨h.once, fun hp => ?_, fun hp => ?_⟩, fun hs => ?_, h.read, h.count, h.before, h.idle,
    h.connecting⟩
  · exact (h.pending hp).imp_right harmed.mpr
  · exact ⟨(h.ended hp).1, fun ha => (h.ended hp).2 (harmed.mp ha)⟩
  · exact hsame.listen_fds.mpr (h.known (hsame.epoll ▸ hs))

theorem Held.step {s t : Connecting} (h : s.Held) {e : Event} (ht : Step s e t) :
    (t.Once ↔ s.Proper e) ∧ (s.Proper e → t.Held) := by
  have always : t.Held → s.Proper e → (t.Once ↔ s.Proper e) ∧ (s.Proper e → t.Held) :=
    fun held proper => ⟨⟨fun _ => proper, fun _ => held.toOnce⟩, fun _ => held⟩
  cases ht with
  | connect rt hphase => exact h.connect hphase rt
  | writeMessage hphase => exact always (h.writeMessage hphase) trivial
  | readMessage hphase => exact h.readMessage hphase
  | report mask events error htasks hmask hr => exact always (h.report htasks hmask hr) trivial
  | reconnect rt tasks htasks => exact always (h.reconnect htasks rt) trivial
  | onRead is_close tasks htasks => exact always (h.onRead htasks is_close) trivial
  | onWrite is_all_write tasks htasks => exact always (h.onWrite htasks is_all_write) trivial
  | other tasks htasks => exact always (h.other htasks) trivial
  | others loop hsame => exact always (h.others hsame) trivial

theorem held_run {es : List Event} {s : Connecting} (hrun : (system.restrict Proper).Run es s) :
    s.Held := by
  refine hrun.invariant ?_ fun _ _ _ h hstep => (h.step hstep.2).2 hstep.1
  rintro s ⟨hknown, hs⟩
  rw [hs]
  refine ⟨⟨rfl, fun hp => ?_, fun hp => ?_⟩, hknown, by simp, by simp, fun _ task htask => ?_,
    fun _ => ⟨by simp, rfl⟩, fun hp => ?_⟩
  · cases hp
  · cases hp
  · exact .inl (List.mem_singleton.mp htask)
  · cases hp

/-- In a run of proper steps, `done` is called once, and is never dispatched again. The step
that is not proper is the one after which this does not hold. -/
theorem connect_once (es : List Event) (s : Connecting)
    (hrun : (system.restrict Proper).Run es s) :
    s.Once ∧ ∀ e t, Step s e t → (t.Once ↔ s.Proper e) := by
  have h := held_run hrun
  exact ⟨h.toOnce, fun e t ht => (h.step ht).1⟩

/-! ## Short runs -/

/-- A client on a new loop. -/
def fresh : Connecting where
  loop := (Clients.stdio.create 0).loop
  client := { m_fd := 6, m_fd_event := 6 }

theorem fresh_start : system.start fresh := ⟨by unfold Known; decide +kernel, rfl⟩

def writable : FdEvent := { out_event := true }

def settled : List Event := [.connect .inProgress, .report writable false, .reconnect .success]

def settledState : Connecting :=
  { ((fresh.connect .inProgress).report writable false).reconnect .success with tasks := [] }

theorem settled_run : (system.restrict Proper).Run settled settledState := by
  have h0 : (system.restrict Proper).Run [] fresh := System.Run.start fresh_start
  have hproper : fresh.Proper (.connect .inProgress) := by
    unfold Proper
    decide +kernel
  have h1 : (system.restrict Proper).Run [.connect .inProgress] (fresh.connect .inProgress) :=
    h0.step ⟨hproper, .connect .inProgress rfl⟩
  have hmask : (fresh.connect .inProgress).loop.kernel.epoll 6 = some writable := by
    decide +kernel
  have h2 : (system.restrict Proper).Run [.connect .inProgress, .report writable false]
      ((fresh.connect .inProgress).report writable false) :=
    h1.step ⟨trivial, .report writable writable false rfl hmask (by decide)⟩
  exact h2.step ⟨trivial, .reconnect .success [] rfl⟩

theorem connect_once_settled : settledState.dones = 1 ∧ settledState.Once :=
  ⟨rfl, (connect_once settled settledState settled_run).1⟩

/-- A client that reads before it writes: the write event of `connect` is registered
again, and `done` is called a second time. -/
theorem read_first_connects_again : ∃ s : Connecting,
    system.Run (settled ++ [.readMessage, .report writable false, .reconnect .success]) s ∧
      s.dones = 2 ∧ ¬ s.Once := by
  let reading : Connecting := { settledState.listen .IN_EVENT with m_read_callback := .onRead }
  have h1 : system.Run (settled ++ [.readMessage]) reading :=
    settled_run.of_restrict.step (.readMessage rfl)
  have hmask : reading.loop.kernel.epoll 6 = some { in_event := true, out_event := true } := by
    decide +kernel
  have h2 : system.Run (settled ++ [.readMessage] ++ [.report writable false])
      (reading.report writable false) :=
    h1.step (.report { in_event := true, out_event := true } writable false rfl hmask (by decide))
  have h3 := h2.step (.reconnect .success [] rfl)
  refine ⟨_, by simpa using h3, rfl, fun h => ?_⟩
  have := h.once
  exact absurd this (by decide)

end Connecting

end TinyRpc.EventLoop
