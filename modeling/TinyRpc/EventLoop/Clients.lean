import TinyRpc.Connection.Client
import TinyRpc.EventLoop.Epoll
import TinyRpc.Lib.Runs

/-!
# Clients that come and go on one event loop

What the clients of a loop do to its descriptors. A callback may have been
queued long ago: it runs at any time, as long as its client is there.
-/

namespace TinyRpc.EventLoop

open Function Lib

/-- A `TcpClient` with its connection. The `FdEvent` is looked up once, in the constructor. -/
structure Client where
  m_fd : Nat
  m_fd_event : Nat
  m_state : TcpState := .NotConnected
  deriving DecidableEq

structure Clients where
  loop : EventLoop
  clients : Nat → Option Client := fun _ => none

/-- The wakeup descriptor and the timer descriptor are listened to from the start. -/
def new (opened : Finset Nat) (fdEvents : Nat → FdEvent) : EventLoop :=
  let l : EventLoop := { kernel := ⟨opened, fun _ => none, by simp⟩, fdEvents }
  let (_, l) := l.socket
  let (m_wakeup_fd, l) := l.socket
  let l := (l.setFdEvent m_wakeup_fd { in_event := true }).addEpollEvent m_wakeup_fd
  let (m_timer_fd, l) := l.socket
  (l.setFdEvent m_timer_fd { in_event := true }).addEpollEvent m_timer_fd

/-- The client is given by its number. -/
inductive Op where
  | create (i : Nat)
  | connect (i : Nat) (rt : ConnectResult)
  /-- The callback of the write event that `connect` waits for. -/
  | reconnect (i : Nat) (rt : ReconnectResult)
  | writeMessage (i : Nat)
  | readMessage (i : Nat)
  | onRead (i : Nat) (is_close : Bool)
  | onWrite (i : Nat) (is_all_write : Bool)
  /-- `epoll_wait` reports `EPOLLERR`. -/
  | error (fd : Nat)
  | destroy (i : Nat)

namespace Clients

def put (s : Clients) (i : Nat) (c : Client) (loop : EventLoop) : Clients where
  loop := loop
  clients := update s.clients i (some c)

def listen (s : Clients) (c : Client) (event_type : TriggerEvent) : EventLoop :=
  (s.loop.listen c.m_fd_event event_type).addEpollEvent c.m_fd_event

def create (s : Clients) (i : Nat) : Clients :=
  let (fd, loop) := s.loop.socket
  s.put i { m_fd := fd, m_fd_event := fd } loop

def connect (s : Clients) (i : Nat) (c : Client) (rt : ConnectResult) : Clients :=
  match rt with
  | .success => s.put i { c with m_state := .Connected } s.loop
  | .inProgress => s.put i c (s.listen c .OUT_EVENT)
  | .failed _ => s

def reconnect (s : Clients) (i : Nat) (c : Client) (rt : ReconnectResult) : Clients :=
  match rt with
  | .success =>
    s.put i { c with m_state := .Connected } (s.loop.deleteEpollEvent c.m_fd_event)
  | .refused _ | .failed _ =>
    let (fd, loop) := (s.loop.close c.m_fd).socket
    s.put i { c with m_fd := fd } (loop.deleteEpollEvent c.m_fd_event)

/-- `onRead`, up to what it does to the descriptor: `clear()` when the peer has closed. -/
def onRead (s : Clients) (i : Nat) (c : Client) (is_close : Bool) : Clients :=
  if c.m_state = .Connected ∧ is_close then
    let loop := (s.loop.cancle c.m_fd_event .IN_EVENT).cancle c.m_fd_event .OUT_EVENT
    s.put i { c with m_state := .Closed } (loop.deleteEpollEvent c.m_fd_event)
  else s

def onWrite (s : Clients) (i : Nat) (c : Client) (is_all_write : Bool) : Clients :=
  if c.m_state = .Connected ∧ is_all_write then
    s.put i c ((s.loop.cancle c.m_fd_event .OUT_EVENT).addEpollEvent c.m_fd_event)
  else s

/-- The destructor closes the descriptor. It is not taken out of the loop. -/
def destroy (s : Clients) (i : Nat) (c : Client) : Clients where
  loop := if c.m_fd > 0 then s.loop.close c.m_fd else s.loop
  clients := update s.clients i none

def next (s : Clients) : Op → Option Clients
  | .create i => if (s.clients i).isSome then none else some (s.create i)
  | .connect i rt => (s.clients i).map fun c => s.connect i c rt
  | .reconnect i rt => (s.clients i).map fun c => s.reconnect i c rt
  | .writeMessage i => (s.clients i).map fun c => s.put i c (s.listen c .OUT_EVENT)
  | .readMessage i => (s.clients i).map fun c => s.put i c (s.listen c .IN_EVENT)
  | .onRead i is_close => (s.clients i).map fun c => s.onRead i c is_close
  | .onWrite i is_all_write => (s.clients i).map fun c => s.onWrite i c is_all_write
  | .error fd =>
    if (s.loop.kernel.epoll fd).isSome then some { s with loop := s.loop.deleteEpollEvent fd }
    else none
  | .destroy i => (s.clients i).map fun c => s.destroy i c

def system : System Clients Op where
  start s := ∃ opened fdEvents, s = { loop := EventLoop.new opened fdEvents }
  step s e t := s.next e = some t

/-! ## What keeps the sets equal -/

/-- The descriptor that the operation gives to `addEpollEvent`. -/
def adds (s : Clients) : Op → Option Nat
  | .connect i .inProgress => (s.clients i).map (·.m_fd_event)
  | .writeMessage i => (s.clients i).map (·.m_fd_event)
  | .readMessage i => (s.clients i).map (·.m_fd_event)
  | .onWrite i is_all_write => (s.clients i).bind fun c =>
    if c.m_state = .Connected ∧ is_all_write then some c.m_fd_event else none
  | _ => none

/-- The descriptor that the operation closes without a `deleteEpollEvent` for it. -/
def closes (s : Clients) : Op → Option Nat
  | .reconnect _ .success => none
  | .reconnect i _ => (s.clients i).bind fun c =>
    if c.m_fd = c.m_fd_event then none else some c.m_fd
  | .destroy i => (s.clients i).bind fun c => if c.m_fd > 0 then some c.m_fd else none
  | _ => none

/-- What is added is open, and what is closed is not listened to. -/
structure Keeps (s : Clients) (e : Op) : Prop where
  adds : ∀ fd ∈ s.adds e, fd ∈ s.loop.kernel.opened
  closes : ∀ fd ∈ s.closes e, fd ∉ s.loop.m_listen_fds

/-- What an operation can do to the loop, when it adds the first descriptor and
closes the second one. -/
inductive LoopStep (l : EventLoop) : Option Nat → Option Nat → EventLoop → Prop
  | same : LoopStep l none none l
  | socket : LoopStep l none none l.socket.2
  | add (fd : Nat) (e : FdEvent) :
    LoopStep l (some fd) none ((l.setFdEvent fd e).addEpollEvent fd)
  | delete (fd : Nat) : LoopStep l none none (l.deleteEpollEvent fd)
  | clear (fd : Nat) (e : FdEvent) :
    LoopStep l none none ((l.setFdEvent fd e).deleteEpollEvent fd)
  | close (fd : Nat) : LoopStep l none (some fd) (l.close fd)
  | replace (m_fd m_fd_event : Nat) :
    LoopStep l none (if m_fd = m_fd_event then none else some m_fd)
      ((l.close m_fd).socket.2.deleteEpollEvent m_fd_event)

theorem cancle_cancle (l : EventLoop) (fd : Nat) :
    (l.cancle fd .IN_EVENT).cancle fd .OUT_EVENT =
      l.setFdEvent fd (((l.fdEvents fd).cancle .IN_EVENT).cancle .OUT_EVENT) := by
  unfold cancle setFdEvent
  simp only [update_self, update_idem]

theorem next_loopStep {s t : Clients} {e : Op} (h : s.next e = some t) :
    LoopStep s.loop (s.adds e) (s.closes e) t.loop := by
  cases e with
  | create i =>
    simp only [next, Option.ite_none_left_eq_some, Option.some.injEq] at h
    rw [← h.2]
    exact .socket
  | error fd =>
    simp only [next, Option.ite_none_right_eq_some, Option.some.injEq] at h
    rw [← h.2]
    exact .delete fd
  | connect i rt =>
    obtain ⟨c, hc, rfl⟩ := Option.map_eq_some_iff.mp h
    cases rt with
    | success => exact .same
    | inProgress =>
      simp only [adds, hc, Option.map_some]
      exact .add _ _
    | failed _ => exact .same
  | reconnect i rt =>
    obtain ⟨c, hc, rfl⟩ := Option.map_eq_some_iff.mp h
    cases rt with
    | success => exact .delete _
    -- The old descriptor is closed before the one of the `FdEvent` is taken out of the loop.
    | refused _ | failed _ =>
      simp only [closes, hc, Option.bind_some]
      exact .replace _ _
  | writeMessage i | readMessage i =>
    obtain ⟨c, hc, rfl⟩ := Option.map_eq_some_iff.mp h
    simp only [adds, hc, Option.map_some]
    exact .add _ _
  | onRead i is_close =>
    obtain ⟨c, hc, rfl⟩ := Option.map_eq_some_iff.mp h
    unfold onRead
    split
    · simp only [put, cancle_cancle]
      exact .clear _ _
    · exact .same
  | onWrite i is_all_write =>
    obtain ⟨c, hc, rfl⟩ := Option.map_eq_some_iff.mp h
    simp only [adds, hc, Option.bind_some]
    unfold onWrite
    split
    · exact .add _ _
    · exact .same
  | destroy i =>
    obtain ⟨c, hc, rfl⟩ := Option.map_eq_some_iff.mp h
    simp only [closes, hc, Option.bind_some]
    unfold destroy
    dsimp only
    split
    · exact .close _
    · exact .same

theorem Synced.replace {l : EventLoop} (h : l.Synced) {m_fd m_fd_event : Nat}
    (hfd : m_fd = m_fd_event ∨ m_fd ∉ l.m_listen_fds) :
    ((l.close m_fd).socket.2.deleteEpollEvent m_fd_event).Synced := by
  rcases eq_or_ne m_fd m_fd_event with rfl | hne
  · intro n
    rw [deleteEpollEvent_epoll, deleteEpollEvent_listen_fds, deleteEpollEvent_fdEvents]
    have hn := h n
    simp only [EventLoop.socket, Kernel.socket, EventLoop.close, Kernel.close, Finset.mem_erase,
      update_apply]
    by_cases heq : n = m_fd
    · simp [heq]
    · simpa [heq] using hn
  · exact ((h.close (hfd.resolve_left hne)).socket).delete m_fd_event

theorem replace_lost {l : EventLoop} {m_fd m_fd_event : Nat} (hne : m_fd ≠ m_fd_event)
    (hfd : m_fd ∈ l.m_listen_fds) :
    ¬ ((l.close m_fd).socket.2.deleteEpollEvent m_fd_event).SameSet := by
  intro h
  have hmem : m_fd ∈ ((l.close m_fd).socket.2.deleteEpollEvent m_fd_event).m_listen_fds := by
    rw [deleteEpollEvent_listen_fds]
    exact Finset.mem_erase_of_ne_of_mem hne hfd
  have hs := (h m_fd).mp hmem
  rw [deleteEpollEvent_epoll] at hs
  simp [EventLoop.socket, Kernel.socket, EventLoop.close, Kernel.close] at hs

theorem LoopStep.synced_iff {l l' : EventLoop} {added closed : Option Nat}
    (hstep : LoopStep l added closed l') (h : l.Synced) :
    ((∀ fd ∈ added, fd ∈ l.kernel.opened) ∧ (∀ fd ∈ closed, fd ∉ l.m_listen_fds) → l'.Synced) ∧
      (l'.SameSet →
        (∀ fd ∈ added, fd ∈ l.kernel.opened) ∧ (∀ fd ∈ closed, fd ∉ l.m_listen_fds)) := by
  cases hstep with
  | same => simpa using h
  | socket => simpa using h.socket
  | delete fd => simpa using h.delete fd
  | clear fd e => simpa using h.setFdEvent_delete fd e
  | add fd e =>
    constructor
    · intro hk
      exact h.setFdEvent_add e (hk.1 fd rfl)
    · intro hs
      by_contra hk
      have hopen : fd ∉ l.kernel.opened := by simpa using hk
      exact addEpollEvent_closed (l := l.setFdEvent fd e) hopen hs
  | close fd =>
    constructor
    · intro hk
      exact h.close (hk.2 fd rfl)
    · intro hs
      by_contra hk
      have hfd : fd ∈ l.m_listen_fds := by simpa using hk
      exact close_lost hfd hs
  | replace m_fd m_fd_event =>
    rcases eq_or_ne m_fd m_fd_event with heq | hne
    · simpa [heq] using Synced.replace h (Or.inl rfl)
    · rw [if_neg hne]
      constructor
      · intro hk
        exact Synced.replace h (Or.inr (hk.2 m_fd rfl))
      · intro hs
        by_contra hk
        have hfd : m_fd ∈ l.m_listen_fds := by simpa using hk
        exact replace_lost hne hfd hs

theorem LoopStep.mem_of_added {l l' : EventLoop} {added closed : Option Nat}
    (hstep : LoopStep l added closed l') {fd : Nat} (hfd : fd ∈ added) : fd ∈ l'.m_listen_fds := by
  cases hstep with
  | add n e =>
    rw [Option.mem_some_iff.mp hfd]
    exact Finset.mem_insert_self _ _
  | same | socket | delete | clear | close | replace => simp at hfd

/-! ## Runs -/

theorem socket_opened (l : EventLoop) : l.socket.1 ∈ l.socket.2.kernel.opened :=
  Finset.mem_insert_self _ _

theorem new_synced (opened : Finset Nat) (fdEvents : Nat → FdEvent) :
    (EventLoop.new opened fdEvents).Synced := by
  have h0 : EventLoop.Synced { kernel := ⟨opened, fun _ => none, by simp⟩, fdEvents } := by
    intro fd
    simp
  have h1 := (h0.socket.socket).setFdEvent_add { in_event := true } (socket_opened _)
  exact h1.socket.setFdEvent_add { in_event := true } (socket_opened _)

/-- The set is that of the kernel in every run in which nothing is closed while
the loop listens to it, and nothing is added that is closed. The step that
does otherwise is the one after which they differ. -/
theorem sameSet_iff (es : List Op) (s : Clients) (hrun : (system.restrict Keeps).Run es s) :
    s.loop.SameSet ∧ ∀ e t, system.step s e t →
      (t.loop.SameSet ↔ s.Keeps e) ∧
      (s.Keeps e → ∀ fd ∈ s.adds e, t.loop.kernel.epoll fd = some (t.loop.fdEvents fd)) := by
  have hsynced : s.loop.Synced := by
    apply hrun.invariant (I := fun s => s.loop.Synced)
    · rintro s ⟨opened, fdEvents, rfl⟩
      exact new_synced opened fdEvents
    · intro s e t hs ⟨hk, hstep⟩
      exact ((next_loopStep hstep).synced_iff hs).1 ⟨hk.adds, hk.closes⟩
  refine ⟨hsynced.sameSet, fun e t hstep => ?_⟩
  have hloop := next_loopStep hstep
  obtain ⟨hkept, hlost⟩ := hloop.synced_iff hsynced
  constructor
  · constructor
    · intro hs
      exact ⟨(hlost hs).1, (hlost hs).2⟩
    · intro hk
      exact (hkept ⟨hk.adds, hk.closes⟩).sameSet
  · intro hk fd hfd
    rw [hkept ⟨hk.adds, hk.closes⟩ fd, if_pos (hloop.mem_of_added hfd)]

/-! ## A client that is destroyed while it is listened to -/

def stdio : Clients := { loop := EventLoop.new {0, 1, 2} fun _ => {} }

theorem stdio_start : system.start stdio := ⟨_, _, rfl⟩

def reuse : List Op :=
  [.create 0, .connect 0 .inProgress, .reconnect 0 .success, .writeMessage 0, .destroy 0,
    .create 1, .connect 1 .inProgress]

theorem reuse_not_sameSet : ∃ s, system.Run reuse s ∧ ¬ s.loop.SameSet ∧
    (s.clients 1).map (·.m_fd_event) = some 6 ∧ 6 ∈ s.loop.m_listen_fds ∧
    s.loop.kernel.epoll 6 = none := by
  have hlast : (reuse.foldlM next stdio).map (fun s => ((s.clients 1).map (·.m_fd_event),
      decide (6 ∈ s.loop.m_listen_fds), s.loop.kernel.epoll 6)) = some (some 6, true, none) := by
    decide +kernel
  obtain ⟨s, hs, heq⟩ := Option.map_eq_some_iff.mp hlast
  simp only [Prod.mk.injEq, decide_eq_true_eq] at heq
  obtain ⟨hclient, hmem, hnone⟩ := heq
  refine ⟨s, System.Run.of_next (fun _ _ _ h => h) stdio_start hs, ?_, hclient, hmem, hnone⟩
  intro h
  have := (h 6).mp hmem
  simp [hnone] at this

instance (s : Clients) : DecidablePred s.Keeps := fun e =>
  decidable_of_iff ((∀ fd ∈ s.adds e, fd ∈ s.loop.kernel.opened) ∧
    ∀ fd ∈ s.closes e, fd ∉ s.loop.m_listen_fds)
    ⟨fun h => ⟨h.1, h.2⟩, fun h => ⟨h.adds, h.closes⟩⟩

/-- The first client is destroyed when its connection is closed. -/
def handedOn : List Op :=
  [.create 0, .connect 0 .inProgress, .reconnect 0 .success, .writeMessage 0, .onWrite 0 true,
    .readMessage 0, .onRead 0 true, .destroy 0, .create 1]

theorem sameSet_iff_handedOn : ∃ s t : Clients, s.clients 0 = none ∧
    (s.clients 1).map (·.m_fd_event) = some 6 ∧ s.loop.SameSet ∧
    system.step s (.connect 1 .inProgress) t ∧ t.loop.SameSet ∧
    t.loop.kernel.epoll 6 = some (t.loop.fdEvents 6) := by
  have hlast : ((handedOn.foldlM (System.guarded Keeps next) stdio).bind fun s =>
      (s.next (.connect 1 .inProgress)).map fun _ => (s.clients 0,
        (s.clients 1).map (·.m_fd_event), decide (s.Keeps (.connect 1 .inProgress)),
        s.adds (.connect 1 .inProgress))) = some (none, some 6, true, some 6) := by
    decide +kernel
  obtain ⟨s, hs, hlast⟩ := Option.bind_eq_some_iff.mp hlast
  obtain ⟨t, ht, hlast⟩ := Option.map_eq_some_iff.mp hlast
  simp only [Prod.mk.injEq, decide_eq_true_eq] at hlast
  obtain ⟨hgone, hclient, hkeeps, hadds⟩ := hlast
  have hrun : (system.restrict Keeps).Run handedOn s :=
    System.Run.of_guarded (S := system) (fun _ _ _ h => h) stdio_start hs
  obtain ⟨hsame, hnext⟩ := sameSet_iff handedOn s hrun
  obtain ⟨hiff, hregistered⟩ := hnext (.connect 1 .inProgress) t ht
  exact ⟨s, t, hgone, hclient, hsame, ht, hiff.mpr hkeeps, hregistered hkeeps 6 hadds⟩

end Clients

end TinyRpc.EventLoop
