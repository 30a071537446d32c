import TinyRpc.EventLoop.Clients
import TinyRpc.Lib.Handles

/-!
# The owners of the callbacks

`FdEventGroup` keeps one `FdEvent` for each descriptor, and it outlives the
clients that listen to it. Its events and the closures of `listen` stay, and a
closure holds the `this` of the client that passed it.
-/

namespace TinyRpc

open Function Lib

def FdEvent.enabled (e : FdEvent) : TriggerEvent → Bool
  | .IN_EVENT => e.in_event
  | .OUT_EVENT => e.out_event

namespace EventLoop

/-! ## The group -/

/-- The `FdEvent` of each descriptor, by its number. -/
structure FdEventGroup where
  m_fd_group : List FdEvent
  size_le : 128 ≤ m_fd_group.length

namespace FdEventGroup

def new : FdEventGroup := ⟨List.replicate 128 {}, by simp⟩

theorem grown_size {m_fd_group : List FdEvent} (h : 128 ≤ m_fd_group.length) (n : Nat) :
    128 ≤ (m_fd_group ++ List.replicate n ({} : FdEvent)).length := by
  rw [List.length_append]
  omega

/-- The group, which may have grown, and the `FdEvent` that it hands out. -/
def getFdEvent (g : FdEventGroup) (fd : Nat) : FdEventGroup × Option FdEvent :=
  if fd < g.m_fd_group.length then (g, g.m_fd_group[fd]?)
  else
    let new_size := fd * 3 / 2
    let m_fd_group := g.m_fd_group ++
      List.replicate (new_size - g.m_fd_group.length) ({} : FdEvent)
    (⟨m_fd_group, grown_size g.size_le _⟩, m_fd_group[fd]?)

/-- The `FdEvent` of a descriptor, also of one that the group does not have yet. -/
def table (g : FdEventGroup) (fd : Nat) : FdEvent := g.m_fd_group.getD fd {}

theorem table_new : new.table = fun _ => {} := by
  funext fd
  unfold table new
  rw [List.getD_eq_getElem?_getD, List.getElem?_replicate]
  split <;> rfl

theorem getFdEvent_table (g : FdEventGroup) (fd : Nat) : (g.getFdEvent fd).1.table = g.table := by
  unfold getFdEvent
  split
  · rfl
  · funext n
    simp only [table, List.getD_eq_getElem?_getD, List.getElem?_append, List.getElem?_replicate]
    split
    · rfl
    · rename_i hn
      rw [List.getElem?_eq_none (Nat.le_of_not_lt hn)]
      split <;> rfl

theorem getFdEvent_some (g : FdEventGroup) (fd : Nat) :
    (g.getFdEvent fd).2 = some (g.table fd) := by
  have hsize := g.size_le
  unfold getFdEvent table
  split
  · rename_i hfd
    rw [List.getD_eq_getElem?_getD, List.getElem?_eq_getElem hfd, Option.getD_some]
  · rename_i hfd
    have hnew : fd - g.m_fd_group.length < fd * 3 / 2 - g.m_fd_group.length := by omega
    dsimp only
    rw [List.getElem?_append_right (Nat.le_of_not_lt hfd), List.getElem?_replicate, if_pos hnew,
      List.getD_eq_getElem?_getD, List.getElem?_eq_none (Nat.le_of_not_lt hfd), Option.getD_none]

theorem create_getFdEvent {s : Clients} {g : FdEventGroup} (hg : s.loop.fdEvents = g.table)
    (i : Nat) :
    ((s.create i).clients i).map (fun c => (s.create i).loop.fdEvents c.m_fd_event) =
      (g.getFdEvent s.loop.socket.1).2 ∧
    (s.create i).loop.fdEvents = (g.getFdEvent s.loop.socket.1).1.table := by
  rw [getFdEvent_some, getFdEvent_table, ← hg]
  constructor
  · simp only [Clients.create, Clients.put, update_self, Option.map_some]
    rfl
  · rfl

end FdEventGroup

/-! ## The owners -/

/-- Whose `this` a callback holds. -/
inductive Owner where
  /-- The callback is a null function. -/
  | nobody
  | wakeup
  | timer
  | client (i : Nat)
  deriving DecidableEq

/-- The callbacks of an `FdEvent`. There is no error callback in any call of `listen`. -/
structure Callbacks where
  m_read_callback : Owner := .nobody
  m_write_callback : Owner := .nobody

def Callbacks.handle (cb : Callbacks) : TriggerEvent → Owner
  | .IN_EVENT => cb.m_read_callback
  | .OUT_EVENT => cb.m_write_callback

def Callbacks.listen (cb : Callbacks) (callback : Owner) : TriggerEvent → Callbacks
  | .IN_EVENT => { cb with m_read_callback := callback }
  | .OUT_EVENT => { cb with m_write_callback := callback }

structure Owners where
  clients : Clients
  callbacks : Nat → Callbacks
  m_wakeup_fd : Nat
  m_timer_fd : Nat
  /-- The descriptors that the rest of the process has opened. -/
  others : Finset Nat
  /-- How many clients there have been. Each one has its own number. -/
  created : Nat := 0

namespace Owners

inductive Event where
  | client (op : Op)
  | openOther
  | closeOther (fd : Nat)

/-- The process has a new `FdEventGroup`, and its first loop. -/
def first (opened : Finset Nat) : Owners :=
  let epoll_fd := Kernel.lowestFree opened
  let m_wakeup_fd := Kernel.lowestFree (insert epoll_fd opened)
  let m_timer_fd := Kernel.lowestFree (insert m_wakeup_fd (insert epoll_fd opened))
  { clients := { loop := EventLoop.new opened FdEventGroup.new.table }
    callbacks := update (update (fun _ => {}) m_wakeup_fd { m_read_callback := .wakeup })
      m_timer_fd { m_read_callback := .timer }
    m_wakeup_fd, m_timer_fd
    others := opened }

def listen (s : Owners) (i : Nat) (event_type : TriggerEvent) : Nat → Callbacks :=
  match s.clients.clients i with
  | none => s.callbacks
  | some c => update s.callbacks c.m_fd_event
    ((s.callbacks c.m_fd_event).listen (.client i) event_type)

/-- The callbacks after an operation. `cancle` and the destructors leave them as they are. -/
def listened (s : Owners) : Op → Nat → Callbacks
  | .connect i .inProgress | .writeMessage i => s.listen i .OUT_EVENT
  | .readMessage i => s.listen i .IN_EVENT
  | _ => s.callbacks

def next (s : Owners) : Event → Option Owners
  | .client (.create i) =>
    if i = s.created then
      (s.clients.next (.create i)).map fun t => { s with clients := t, created := i + 1 }
    else none
  | .client op => (s.clients.next op).map fun t =>
    { s with clients := t, callbacks := s.listened op }
  | .openOther =>
    let (fd, loop) := s.clients.loop.socket
    some { s with clients := { s.clients with loop }, others := insert fd s.others }
  | .closeOther fd =>
    if fd ∈ s.others then
      some { s with
        clients := { s.clients with loop := s.clients.loop.close fd }
        others := s.others.erase fd }
    else none

def system : System Owners Event where
  start s := ∃ opened, s = first opened
  step s e t := s.next e = some t

/-- The descriptor that is in the hands of an owner now. -/
def held (s : Owners) : Owner → Option Nat
  | .nobody => none
  | .wakeup => some s.m_wakeup_fd
  | .timer => some s.m_timer_fd
  | .client i => (s.clients.clients i).map (·.m_fd)

/-- The callback of every event that is enabled is that of the owner of the descriptor. -/
def Owned (s : Owners) : Prop :=
  ∀ fd event_type, (s.clients.loop.fdEvents fd).enabled event_type →
    s.held ((s.callbacks fd).handle event_type) = some fd

/-- A descriptor is closed when it has no events, or is the one that `socket()`
gives next. What is listened to is the descriptor of the client. -/
def Clears (s : Owners) : Event → Prop
  | .client (.connect i .inProgress) | .client (.writeMessage i) | .client (.readMessage i) =>
    ∀ c ∈ s.clients.clients i, c.m_fd = c.m_fd_event
  | .client (.reconnect i (.refused _)) | .client (.reconnect i (.failed _)) =>
    ∀ c ∈ s.clients.clients i,
      Kernel.lowestFree (s.clients.loop.kernel.opened.erase c.m_fd) = c.m_fd ∨
        s.clients.loop.fdEvents c.m_fd = {}
  | .client (.destroy i) => ∀ c ∈ s.clients.clients i, s.clients.loop.fdEvents c.m_fd = {}
  | _ => True

/-! ## Descriptors as handles -/

/-- A descriptor is held by the owner of callbacks, or by the rest of the process. -/
abbrev Holder := Owner ⊕ Nat

def holds (s : Owners) : Holder → Option Nat
  | .inl owner => s.held owner
  | .inr fd => if fd ∈ s.others then some fd else none

def registered (e : FdEvent) (cb : Callbacks) (event_type : TriggerEvent) : Option Holder :=
  if e.enabled event_type then some (.inl (cb.handle event_type)) else none

def handles (s : Owners) : Handles Holder Nat TriggerEvent where
  live := s.clients.loop.kernel.opened
  held := s.holds
  registered fd := registered (s.clients.loop.fdEvents fd) (s.callbacks fd)

theorem owned_iff_handles (s : Owners) : s.Owned ↔ s.handles.Owned := by
  constructor
  · intro h fd event_type holder hreg
    obtain ⟨henabled, heq⟩ := Option.ite_none_right_eq_some.mp hreg
    rw [← Option.some.inj heq]
    exact h fd event_type henabled
  · intro h fd event_type henabled
    exact h fd event_type _ (if_pos henabled)

theorem registered_eq_none (e : FdEvent) (cb : Callbacks) :
    (∀ event_type, registered e cb event_type = none) ↔ e = {} := by
  unfold registered
  constructor
  · intro h
    have hoff : ∀ event_type, e.enabled event_type = false := by
      intro event_type
      simpa using h event_type
    cases e
    rw [FdEvent.mk.injEq]
    exact ⟨hoff .IN_EVENT, hoff .OUT_EVENT⟩
  · rintro rfl event_type
    cases event_type <;> rfl

theorem clear_iff (s : Owners) (fd : Nat) :
    s.handles.Clear fd ↔ s.clients.loop.fdEvents fd = {} :=
  registered_eq_none _ _

theorem registered_listen (e : FdEvent) (cb : Callbacks) (owner : Owner)
    (event_type : TriggerEvent) :
    registered (e.listen event_type) (cb.listen owner event_type) =
      update (registered e cb) event_type (some (.inl owner)) := by
  funext k
  cases event_type <;> cases k <;> rfl

theorem registered_cancle (e : FdEvent) (cb : Callbacks) (event_type k : TriggerEvent) :
    registered (e.cancle event_type) cb k = none ∨
      registered (e.cancle event_type) cb k = registered e cb k := by
  cases event_type <;> cases k <;> first | exact Or.inl rfl | exact Or.inr rfl

/-! ## What an event does to the handles -/

theorem live_of_eq {s t : Owners}
    (h : t.clients.loop.kernel.opened = s.clients.loop.kernel.opened) :
    s.handles.live ⊆ t.handles.live := by
  unfold handles
  rw [h]

theorem holds_update (s : Owners) (i : Nat) (client : Option Client) (loop : EventLoop)
    (callbacks : Nat → Callbacks) (created : Nat) :
    ({ s with
      clients := { loop, clients := update s.clients.clients i client }
      callbacks, created } : Owners).holds =
      update s.holds (.inl (.client i)) (client.map (·.m_fd)) := by
  funext holder
  rcases holder with (_ | _ | _ | j) | fd
  · rfl
  · rfl
  · rfl
  · by_cases hj : j = i
    · simp [holds, held, hj]
    · simp [holds, held, update_of_ne, hj]
  · rfl

theorem holds_put {s : Owners} {i : Nat} {c : Client} (hc : s.clients.clients i = some c)
    {d : Client} (hd : d.m_fd = c.m_fd) (loop : EventLoop) (callbacks : Nat → Callbacks) :
    ({ s with clients := s.clients.put i d loop, callbacks } : Owners).holds = s.holds := by
  have hi : s.holds (.inl (.client i)) = some c.m_fd := by simp [holds, held, hc]
  rw [Clients.put, holds_update, Option.map_some, hd, ← hi, update_eq_self]

theorem listen_move {s : Owners} {i : Nat} {c : Client} (hc : s.clients.clients i = some c)
    (event_type : TriggerEvent) :
    Handles.Move s.handles (s.holds (.inl (.client i)) = some c.m_fd_event)
      ({ s with
        clients := s.clients.put i c (s.clients.listen c event_type)
        callbacks := s.listen i event_type } : Owners).handles := by
  apply Handles.Move.register (s := s.handles) (.inl (.client i)) c.m_fd_event event_type
  · exact live_of_eq (EventLoop.addEpollEvent_opened _ _)
  · exact holds_put hc rfl _ _
  · funext fd
    simp only [handles, listen, hc, Clients.put, Clients.listen, EventLoop.addEpollEvent_fdEvents,
      EventLoop.listen, EventLoop.setFdEvent]
    by_cases hfd : fd = c.m_fd_event
    · rw [hfd, update_self, update_self, update_self, registered_listen]
    · rw [update_of_ne hfd, update_of_ne hfd, update_of_ne hfd]

theorem holds_client {s : Owners} {i : Nat} {c : Client} (hc : s.clients.clients i = some c) :
    s.handles.held (.inl (.client i)) = some c.m_fd := by
  simp [handles, holds, held, hc]

theorem quiet_move {s : Owners} {i : Nat} {c d : Client} (hc : s.clients.clients i = some c)
    (hd : d.m_fd = c.m_fd) {loop : EventLoop}
    (hopened : loop.kernel.opened = s.clients.loop.kernel.opened)
    (hevents : ∀ fd k, registered (loop.fdEvents fd) (s.callbacks fd) k = none ∨
      registered (loop.fdEvents fd) (s.callbacks fd) k =
        registered (s.clients.loop.fdEvents fd) (s.callbacks fd) k) :
    Handles.Move s.handles True ({ s with clients := s.clients.put i d loop } : Owners).handles :=
  .unregister (live_of_eq hopened) (holds_put hc hd _ _) hevents

theorem reconnect_move {s : Owners} {i : Nat} {c : Client} (hc : s.clients.clients i = some c)
    (sys_error : Bytes) :
    Handles.Move s.handles
      (Kernel.lowestFree (s.clients.loop.kernel.opened.erase c.m_fd) = c.m_fd ∨
        s.handles.Clear c.m_fd)
      ({ s with clients := s.clients.reconnect i c (.refused sys_error) } : Owners).handles := by
  have hlive : ((insert (Kernel.lowestFree (s.clients.loop.kernel.opened.erase c.m_fd))
      (s.clients.loop.kernel.opened.erase c.m_fd) : Finset Nat) : Set Nat) =
      insert (Kernel.lowestFree (s.clients.loop.kernel.opened.erase c.m_fd))
        (s.handles.live \ {c.m_fd}) := by
    rw [Finset.coe_insert, Finset.coe_erase]
    rfl
  apply Handles.Move.exchange (s := s.handles) (.inl (.client i)) _ _ (holds_client hc)
  · intro hmem
    apply Kernel.lowestFree_notMem (s.clients.loop.kernel.opened.erase c.m_fd)
    rw [← Finset.mem_coe, Finset.coe_erase]
    exact hmem
  · rw [← hlive]
    intro fd hfd
    simp only [handles, Clients.reconnect, Clients.put, EventLoop.deleteEpollEvent_opened]
    exact hfd
  · exact holds_update _ _ _ _ _ _
  · funext fd
    simp only [handles, Clients.reconnect, Clients.put, EventLoop.deleteEpollEvent_fdEvents]
    rfl

theorem create_move {s : Owners} {i : Nat} (hi : s.clients.clients i = none) (created : Nat) :
    Handles.Move s.handles True
      ({ s with clients := s.clients.create i, created } : Owners).handles := by
  apply Handles.Move.acquire (s := s.handles) (.inl (.client i))
    (Kernel.lowestFree s.clients.loop.kernel.opened)
  · simp [handles, holds, held, hi]
  · exact Finset.mem_coe.not.mpr (Kernel.lowestFree_notMem _)
  · exact (Finset.coe_insert _ _).ge
  · exact holds_update _ _ _ _ _ _
  · rfl

theorem destroy_move {s : Owners} {i : Nat} {c : Client} (hc : s.clients.clients i = some c) :
    Handles.Move s.handles (s.handles.Clear c.m_fd)
      ({ s with clients := s.clients.destroy i c } : Owners).handles := by
  apply Handles.Move.release (s := s.handles) (.inl (.client i)) _ (holds_client hc)
  · rintro fd ⟨hfd, hne⟩
    simp only [handles, Clients.destroy]
    split
    · exact Finset.mem_coe.mpr (Finset.mem_erase_of_ne_of_mem hne hfd)
    · exact hfd
  · exact holds_update _ _ _ _ _ _
  · funext fd
    simp only [handles, Clients.destroy]
    split <;> rfl

theorem onRead_move {s : Owners} {i : Nat} {c : Client} (hc : s.clients.clients i = some c)
    (is_close : Bool) :
    Handles.Move s.handles True
      ({ s with clients := s.clients.onRead i c is_close } : Owners).handles := by
  unfold Clients.onRead
  split
  · apply quiet_move (d := { c with m_state := .Closed }) hc rfl
    · rw [EventLoop.deleteEpollEvent_opened]
      rfl
    · intro fd k
      rw [EventLoop.deleteEpollEvent_fdEvents, Clients.cancle_cancle]
      simp only [EventLoop.setFdEvent, update_apply]
      split
      · rename_i hfd
        rw [hfd]
        left
        exact (registered_eq_none _ _).mpr rfl k
      · exact Or.inr rfl
  · exact .unregister Set.Subset.rfl rfl fun _ _ => Or.inr rfl

theorem onWrite_move {s : Owners} {i : Nat} {c : Client} (hc : s.clients.clients i = some c)
    (is_all_write : Bool) :
    Handles.Move s.handles True
      ({ s with clients := s.clients.onWrite i c is_all_write } : Owners).handles := by
  unfold Clients.onWrite
  split
  · apply quiet_move hc rfl
    · exact EventLoop.addEpollEvent_opened _ _
    · intro fd k
      simp only [EventLoop.addEpollEvent_fdEvents, EventLoop.cancle, EventLoop.setFdEvent,
        update_apply]
      split
      · rename_i hfd
        rw [hfd]
        exact registered_cancle _ _ _ k
      · exact Or.inr rfl
  · exact .unregister Set.Subset.rfl rfl fun _ _ => Or.inr rfl

theorem listen_iff {s : Owners} {i : Nat} {c : Client} (hc : s.clients.clients i = some c) :
    s.holds (.inl (.client i)) = some c.m_fd_event ↔
      ∀ d ∈ s.clients.clients i, d.m_fd = d.m_fd_event := by
  simp [holds, held, hc]

theorem next_client {s t : Owners} {i : Nat} {f : Client → Clients} {callbacks : Nat → Callbacks}
    (h : (((s.clients.clients i).map f).map fun clients => { s with clients, callbacks }) = some t) :
    ∃ c, s.clients.clients i = some c ∧ { s with clients := f c, callbacks } = t := by
  obtain ⟨u, hu, ht⟩ := Option.map_eq_some_iff.mp h
  obtain ⟨c, hc, rfl⟩ := Option.map_eq_some_iff.mp hu
  exact ⟨c, hc, ht⟩

theorem client_move {s t : Owners} {op : Op} (h : s.next (.client op) = some t) :
    ∃ p, (p ↔ s.Clears (.client op)) ∧ Handles.Move s.handles p t.handles := by
  cases op with
  | create i =>
    obtain ⟨-, heq⟩ := Option.ite_none_right_eq_some.mp h
    obtain ⟨u, hu, rfl⟩ := Option.map_eq_some_iff.mp heq
    obtain ⟨hi, heq⟩ := Option.ite_none_left_eq_some.mp hu
    cases heq
    exact ⟨True, Iff.rfl, create_move (Option.not_isSome_iff_eq_none.mp hi) _⟩
  | error fd =>
    obtain ⟨u, hu, rfl⟩ := Option.map_eq_some_iff.mp h
    obtain ⟨-, heq⟩ := Option.ite_none_right_eq_some.mp hu
    cases heq
    refine ⟨True, Iff.rfl, .unregister (live_of_eq (EventLoop.deleteEpollEvent_opened _ _)) rfl ?_⟩
    intro n k
    right
    simp only [handles, EventLoop.deleteEpollEvent_fdEvents]
    rfl
  | connect i rt =>
    obtain ⟨c, hc, rfl⟩ := next_client h
    cases rt with
    | success =>
      exact ⟨True, Iff.rfl,
        quiet_move (d := { c with m_state := .Connected }) hc rfl rfl fun _ _ => Or.inr rfl⟩
    | inProgress => exact ⟨_, listen_iff hc, listen_move hc .OUT_EVENT⟩
    | failed _ => exact ⟨True, Iff.rfl, .unregister Set.Subset.rfl rfl fun _ _ => Or.inr rfl⟩
  | reconnect i rt =>
    obtain ⟨c, hc, rfl⟩ := next_client h
    cases rt with
    | success =>
      refine ⟨True, Iff.rfl, quiet_move (d := { c with m_state := .Connected }) hc rfl
        (EventLoop.deleteEpollEvent_opened _ _) ?_⟩
      intro fd k
      rw [EventLoop.deleteEpollEvent_fdEvents]
      exact Or.inr rfl
    -- The socket may be another descriptor, and the `FdEvent` is still that of the old one.
    | refused sys_error | failed sys_error =>
      refine ⟨_, ?_, reconnect_move hc sys_error⟩
      rw [clear_iff]
      simp [Clears, hc]
  | writeMessage i =>
    obtain ⟨c, hc, rfl⟩ := next_client h
    exact ⟨_, listen_iff hc, listen_move hc .OUT_EVENT⟩
  | readMessage i =>
    obtain ⟨c, hc, rfl⟩ := next_client h
    exact ⟨_, listen_iff hc, listen_move hc .IN_EVENT⟩
  | onRead i is_close =>
    obtain ⟨c, hc, rfl⟩ := next_client h
    exact ⟨True, Iff.rfl, onRead_move hc is_close⟩
  | onWrite i is_all_write =>
    obtain ⟨c, hc, rfl⟩ := next_client h
    exact ⟨True, Iff.rfl, onWrite_move hc is_all_write⟩
  | destroy i =>
    obtain ⟨c, hc, rfl⟩ := next_client h
    refine ⟨_, ?_, destroy_move hc⟩
    rw [clear_iff]
    simp [Clears, hc]

theorem holds_others (s : Owners) (loop : EventLoop) (fd : Nat) (others : Finset Nat)
    (hothers : ∀ n, n ≠ fd → (n ∈ others ↔ n ∈ s.others)) :
    ({ s with clients := { s.clients with loop }, others } : Owners).holds =
      update s.holds (.inr fd) (if fd ∈ others then some fd else none) := by
  funext holder
  rcases holder with owner | n
  · cases owner <;> rfl
  · by_cases hn : n = fd
    · rw [hn, update_self]
      rfl
    · rw [update_of_ne (fun heq => hn (Sum.inr.inj heq))]
      simp only [holds, hothers n hn]

theorem openOther_move {s : Owners} (hs : s.handles.Exclusive) :
    Handles.Move s.handles True
      ({ s with
        clients := { s.clients with loop := s.clients.loop.socket.2 }
        others := insert s.clients.loop.socket.1 s.others } : Owners).handles := by
  have hfree : s.clients.loop.socket.1 ∉ s.handles.live :=
    Finset.mem_coe.not.mpr (Kernel.lowestFree_notMem _)
  have hother : s.clients.loop.socket.1 ∉ s.others :=
    fun hmem => hs.free hfree (.inr _) (if_pos hmem)
  have hheld := holds_others s s.clients.loop.socket.2 s.clients.loop.socket.1
    (insert s.clients.loop.socket.1 s.others)
    fun n hn => by rw [Finset.mem_insert, or_iff_right hn]
  rw [if_pos (Finset.mem_insert_self _ _)] at hheld
  exact .acquire (.inr s.clients.loop.socket.1) _ (if_neg hother) hfree
    (Finset.coe_insert _ _).ge hheld rfl

theorem closeOther_move {s : Owners} {fd : Nat} (hfd : fd ∈ s.others) :
    Handles.Move s.handles (s.handles.Clear fd)
      ({ s with
        clients := { s.clients with loop := s.clients.loop.close fd }
        others := s.others.erase fd } : Owners).handles := by
  have hheld := holds_others s (s.clients.loop.close fd) fd (s.others.erase fd)
    fun n hn => by rw [Finset.mem_erase, and_iff_right hn]
  rw [if_neg (Finset.notMem_erase _ _)] at hheld
  exact Handles.Move.release (s := s.handles) (.inr fd) fd (if_pos hfd)
    (Finset.coe_erase _ _).ge hheld rfl

theorem others_clear {s : Owners} (hs : s.handles.Exclusive) (howned : s.handles.Owned) {fd : Nat}
    (hfd : fd ∈ s.others) : s.handles.Clear fd := by
  intro k
  rw [Option.eq_none_iff_forall_ne_some]
  intro holder hk
  have hholder := hs.inj holder (.inr fd) fd (howned fd k holder hk) (if_pos hfd)
  rw [hholder] at hk
  obtain ⟨-, heq⟩ := Option.ite_none_right_eq_some.mp hk
  cases heq

theorem next_move {s t : Owners} {e : Event} (h : s.next e = some t)
    (hs : s.handles.Exclusive) (howned : s.handles.Owned) :
    ∃ p, (p ↔ s.Clears e) ∧ Handles.Move s.handles p t.handles := by
  cases e with
  | client op => exact client_move h
  | openOther =>
    cases h
    exact ⟨True, Iff.rfl, openOther_move hs⟩
  | closeOther fd =>
    obtain ⟨hfd, heq⟩ := Option.ite_none_right_eq_some.mp h
    cases heq
    exact ⟨_, iff_of_true (others_clear hs howned hfd) trivial, closeOther_move hfd⟩

/-! ## Runs -/

theorem first_opened (opened : Finset Nat) :
    (first opened).clients.loop.kernel.opened =
      insert (first opened).m_timer_fd (insert (first opened).m_wakeup_fd
        (insert (Kernel.lowestFree opened) opened)) := by
  unfold first EventLoop.new
  simp only [EventLoop.socket, Kernel.socket, EventLoop.addEpollEvent_opened,
    EventLoop.setFdEvent]

theorem first_fdEvents (opened : Finset Nat) :
    (first opened).clients.loop.fdEvents =
      update (update (fun _ => {}) (first opened).m_wakeup_fd { in_event := true })
        (first opened).m_timer_fd { in_event := true } := by
  unfold first EventLoop.new
  simp only [EventLoop.socket, Kernel.socket, EventLoop.addEpollEvent_opened,
    EventLoop.addEpollEvent_fdEvents, EventLoop.setFdEvent, FdEventGroup.table_new]

theorem first_exclusive (opened : Finset Nat) : (first opened).handles.Exclusive := by
  have hwakeup : (first opened).m_wakeup_fd ∉ insert (Kernel.lowestFree opened) opened :=
    Kernel.lowestFree_notMem _
  have htimer : (first opened).m_timer_fd ∉ insert (first opened).m_wakeup_fd
      (insert (Kernel.lowestFree opened) opened) := Kernel.lowestFree_notMem _
  -- The descriptors of the process, of the wakeup and of the timer are three kinds.
  have hheld : ∀ holder fd, (first opened).handles.held holder = some fd →
      (holder = .inl .wakeup ∧ fd = (first opened).m_wakeup_fd) ∨
      (holder = .inl .timer ∧ fd = (first opened).m_timer_fd) ∨
      (holder = .inr fd ∧ fd ∈ opened) := by
    intro holder fd h
    rcases holder with (_ | _ | _ | i) | n
    · cases h
    · exact Or.inl ⟨rfl, (Option.some.inj h).symm⟩
    · exact Or.inr (Or.inl ⟨rfl, (Option.some.inj h).symm⟩)
    · cases h
    · obtain ⟨hn, heq⟩ := Option.ite_none_right_eq_some.mp h
      cases heq
      exact Or.inr (Or.inr ⟨rfl, hn⟩)
  constructor
  · intro holder fd h
    simp only [handles, first_opened, Finset.mem_coe, Finset.mem_insert]
    rcases hheld holder fd h with ⟨-, rfl⟩ | ⟨-, rfl⟩ | ⟨-, hfd⟩
    · exact Or.inr (Or.inl rfl)
    · exact Or.inl rfl
    · exact Or.inr (Or.inr (Or.inr hfd))
  · intro holder other fd h h'
    simp only [Finset.mem_insert, not_or] at hwakeup htimer
    rcases hheld holder fd h with ⟨rfl, rfl⟩ | ⟨rfl, rfl⟩ | ⟨rfl, hfd⟩ <;>
      rcases hheld other _ h' with ⟨rfl, heq⟩ | ⟨rfl, heq⟩ | ⟨rfl, hfd'⟩ <;>
      grind

theorem first_owned (opened : Finset Nat) : (first opened).Owned := by
  intro fd event_type henabled
  have hcallbacks : (first opened).callbacks =
      update (update (fun _ => {}) (first opened).m_wakeup_fd { m_read_callback := .wakeup })
        (first opened).m_timer_fd { m_read_callback := .timer } := rfl
  rw [first_fdEvents] at henabled
  rw [hcallbacks]
  by_cases htimer : fd = (first opened).m_timer_fd
  · rw [htimer, update_self] at henabled
    rw [htimer, update_self]
    cases event_type with
    | IN_EVENT => rfl
    | OUT_EVENT => cases henabled
  · rw [update_of_ne htimer] at henabled
    rw [update_of_ne htimer]
    by_cases hwakeup : fd = (first opened).m_wakeup_fd
    · rw [hwakeup, update_self] at henabled
      rw [hwakeup, update_self]
      cases event_type with
      | IN_EVENT => rfl
      | OUT_EVENT => cases henabled
    · rw [update_of_ne hwakeup] at henabled
      cases event_type <;> cases henabled

theorem owned_of_run {es : List Event} {s : Owners} (hrun : (system.restrict Clears).Run es s) :
    s.handles.Exclusive ∧ s.handles.Owned := by
  apply hrun.invariant (I := fun s => s.handles.Exclusive ∧ s.handles.Owned)
  · rintro s ⟨opened, rfl⟩
    exact ⟨first_exclusive opened, (owned_iff_handles _).mp (first_owned opened)⟩
  · rintro s e t ⟨hs, howned⟩ ⟨hclears, hstep⟩
    obtain ⟨p, hp, hmove⟩ := next_move hstep hs howned
    exact ⟨hmove.exclusive hs, (hmove.keeps_iff hs howned).mpr (hp.mpr hclears)⟩

/-- As long as descriptors are closed with no events on them, every callback is
that of the owner of its descriptor, and a new client gets an `FdEvent` with no
events. The event that does otherwise leaves a callback on a descriptor that is
not its own. -/
theorem owned_run (es : List Event) (s : Owners) (hrun : (system.restrict Clears).Run es s) :
    s.Owned ∧ ∀ e t, system.step s e t →
      (t.Owned ↔ s.Clears e) ∧
      ∀ i c, e = .client (.create i) → t.clients.clients i = some c →
        t.clients.loop.fdEvents c.m_fd_event = {} := by
  obtain ⟨hs, howned⟩ := owned_of_run hrun
  refine ⟨(owned_iff_handles s).mpr howned, fun e t hstep => ⟨?_, ?_⟩⟩
  · obtain ⟨p, hp, hmove⟩ := next_move hstep hs howned
    rw [owned_iff_handles, hmove.keeps_iff hs howned, hp]
  · rintro i c rfl hc
    obtain ⟨-, heq⟩ := Option.ite_none_right_eq_some.mp hstep
    obtain ⟨u, hu, rfl⟩ := Option.map_eq_some_iff.mp heq
    obtain ⟨-, heq⟩ := Option.ite_none_left_eq_some.mp hu
    cases heq
    simp only [Clients.create, Clients.put, update_self, Option.some.injEq] at hc
    rw [← hc]
    exact (clear_iff s _).mp (howned.clear (hs.free (Finset.mem_coe.not.mpr
      (Kernel.lowestFree_notMem _))))

/-! ## A client that leaves its callback -/

instance (s : Owners) : DecidablePred s.Clears
  | .client (.connect i .inProgress) | .client (.writeMessage i) | .client (.readMessage i) =>
    inferInstanceAs (Decidable (∀ c ∈ s.clients.clients i, _))
  | .client (.reconnect i (.refused _)) | .client (.reconnect i (.failed _)) =>
    inferInstanceAs (Decidable (∀ c ∈ s.clients.clients i, _ ∨ _))
  | .client (.destroy i) => inferInstanceAs (Decidable (∀ c ∈ s.clients.clients i, _))
  | .client (.create _) | .client (.connect _ .success) | .client (.connect _ (.failed _))
  | .client (.reconnect _ .success) | .client (.onRead _ _) | .client (.onWrite _ _)
  | .client (.error _) | .openOther | .closeOther _ => isTrue trivial

def stdio : Owners := first {0, 1, 2}

theorem stdio_start : system.start stdio := ⟨_, rfl⟩

/-- The client is destroyed while it listens, and the next one gets its descriptor. -/
def leftListening : List Event :=
  [.client (.create 0), .client (.connect 0 .inProgress), .client (.reconnect 0 .success),
    .client (.writeMessage 0), .client (.onWrite 0 true), .client (.readMessage 0),
    .client (.destroy 0), .client (.create 1)]

/-- The second client gets the `FdEvent` with the read event of the first one,
and listens to it as soon as it connects. -/
theorem listening_not_owned : ∃ s t, system.Run leftListening s ∧
    s.clients.clients 0 = none ∧ s.clients.clients 1 = some { m_fd := 6, m_fd_event := 6 } ∧
    s.clients.loop.fdEvents 6 = { in_event := true } ∧
    (s.callbacks 6).handle .IN_EVENT = .client 0 ∧ ¬ s.Owned ∧
    system.step s (.client (.connect 1 .inProgress)) t ∧
    t.clients.loop.fdEvents 6 = { in_event := true, out_event := true } ∧
    (t.callbacks 6).handle .IN_EVENT = .client 0 := by
  have hlast : (leftListening.foldlM next stdio).bind (fun s =>
      (s.next (.client (.connect 1 .inProgress))).map fun t =>
        decide (s.clients.clients 0 = none ∧
          s.clients.clients 1 = some { m_fd := 6, m_fd_event := 6 } ∧
          s.clients.loop.fdEvents 6 = { in_event := true } ∧
          (s.callbacks 6).handle .IN_EVENT = .client 0 ∧
          t.clients.loop.fdEvents 6 = { in_event := true, out_event := true } ∧
          (t.callbacks 6).handle .IN_EVENT = .client 0)) = some true := by
    decide +kernel
  obtain ⟨s, hs, heq⟩ := Option.bind_eq_some_iff.mp hlast
  obtain ⟨t, ht, heq⟩ := Option.map_eq_some_iff.mp heq
  obtain ⟨hgone, hclient, hevents, hcallback, hmask, hstale⟩ := of_decide_eq_true heq
  refine ⟨s, t, System.Run.of_next (fun _ _ _ h => h) stdio_start hs, hgone, hclient, hevents,
    hcallback, ?_, ht, hmask, hstale⟩
  intro howned
  have hheld := howned 6 .IN_EVENT (by rw [hevents]; rfl)
  rw [hcallback] at hheld
  simp [held, hgone] at hheld

/-- The peer closes the connection, which clears the events. -/
def closed : List Event :=
  [.client (.create 0), .client (.connect 0 .inProgress), .client (.reconnect 0 .success),
    .client (.writeMessage 0), .client (.onWrite 0 true), .client (.readMessage 0), .openOther,
    .client (.onRead 0 true), .client (.destroy 0), .closeOther 0]

theorem owned_run_closed : ∃ s t, (system.restrict Clears).Run closed s ∧
    system.step s (.client (.create 1)) t ∧ s.Owned ∧ t.Owned := by
  have hlast : ((closed.foldlM (fun (s : Owners) e => if s.Clears e then s.next e else none)
      stdio).bind
      fun (s : Owners) => s.next (.client (.create 1))).isSome = true := by
    decide +kernel
  obtain ⟨t, ht⟩ := Option.isSome_iff_exists.mp hlast
  obtain ⟨s, hs, ht⟩ := Option.bind_eq_some_iff.mp ht
  have hrun : (system.restrict Clears).Run closed s :=
    System.Run.of_next (S := system.restrict Clears)
      (fun _ _ _ h => Option.ite_none_right_eq_some.mp h) stdio_start hs
  obtain ⟨howned, hnext⟩ := owned_run closed s hrun
  exact ⟨s, t, hrun, ht, howned, (hnext _ t ht).1.mpr trivial⟩

end Owners

end EventLoop

end TinyRpc
