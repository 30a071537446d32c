import Mathlib.Data.Finset.Card
import Mathlib.Data.Finset.Range
import Mathlib.Logic.Function.Basic
import TinyRpc.Connection.Spec

/-!
# The descriptors that an event loop listens to

`addEpollEvent` and `deleteEpollEvent` of `eventloop.cc` keep the set
`m_listen_fds`. It is a copy of what the kernel knows, and `close()` changes
the kernel alone.
-/

namespace TinyRpc

open Function

/-! ## The kernel -/

/-- The open descriptors, and the registered ones with their events. -/
structure Kernel where
  opened : Finset Nat
  epoll : Nat → Option FdEvent
  opened_of_epoll : ∀ fd, (epoll fd).isSome → fd ∈ opened

inductive EpollCtl where
  | ADD | MOD | DEL

namespace Kernel

def lowestFree (opened : Finset Nat) : Nat :=
  ((List.range opened.card).find? (· ∉ opened)).getD opened.card

theorem lowestFree_notMem (opened : Finset Nat) : lowestFree opened ∉ opened := by
  unfold lowestFree
  cases hfind : (List.range opened.card).find? (· ∉ opened) with
  | some fd =>
    have := List.find?_some hfind
    simpa using this
  | none =>
    have hsub : Finset.range opened.card ⊆ opened := by
      intro fd hfd
      have := List.find?_eq_none.mp hfind fd (List.mem_range.mpr (Finset.mem_range.mp hfd))
      simpa using this
    have heq := Finset.eq_of_subset_of_card_le hsub (by simp)
    rw [Option.getD_none]
    intro hmem
    rw [← heq] at hmem
    simp at hmem

theorem opened_of_update {k : Kernel} {fd : Nat} {event : Option FdEvent}
    (h : event.isSome → fd ∈ k.opened) :
    ∀ n, (update k.epoll fd event n).isSome → n ∈ k.opened := by
  intro n hn
  by_cases hfd : n = fd
  · rw [hfd, update_self] at hn
    exact hfd ▸ h hn
  · rw [update_of_ne hfd] at hn
    exact k.opened_of_epoll n hn

def register (k : Kernel) (fd : Nat) (event : FdEvent) (h : fd ∈ k.opened) : Kernel :=
  { k with
    epoll := update k.epoll fd (some event)
    opened_of_epoll := opened_of_update fun _ => h }

theorem unregistered_opened {k : Kernel} {fd : Nat} :
    ∀ n, (update k.epoll fd none n).isSome → n ∈ k.opened := by
  apply opened_of_update
  simp

def unregister (k : Kernel) (fd : Nat) : Kernel :=
  { k with
    epoll := update k.epoll fd none
    opened_of_epoll := unregistered_opened }

/-- There is no new state when the call fails. -/
def epoll_ctl (k : Kernel) (op : EpollCtl) (fd : Nat) (event : FdEvent) : Option Kernel :=
  match op with
  | .ADD =>
    if h : fd ∈ k.opened then
      if (k.epoll fd).isSome then none else some (k.register fd event h)
    else none
  | .MOD =>
    if h : (k.epoll fd).isSome then some (k.register fd event (k.opened_of_epoll fd h)) else none
  | .DEL => if (k.epoll fd).isSome then some (k.unregister fd) else none

theorem opened_of_insert {k : Kernel} {fd : Nat} :
    ∀ n, (k.epoll n).isSome → n ∈ insert fd k.opened := by
  intro n hn
  exact Finset.mem_insert_of_mem (k.opened_of_epoll n hn)

/-- The result of `socket()` and its like: the lowest free descriptor. -/
def socket (k : Kernel) : Nat × Kernel :=
  let fd := lowestFree k.opened
  (fd, { k with opened := insert fd k.opened, opened_of_epoll := opened_of_insert })

theorem closed_opened {k : Kernel} {fd : Nat} :
    ∀ n, (update k.epoll fd none n).isSome → n ∈ k.opened.erase fd := by
  intro n hn
  by_cases hfd : n = fd
  · rw [hfd, update_self] at hn
    simp at hn
  · rw [update_of_ne hfd] at hn
    exact Finset.mem_erase_of_ne_of_mem hfd (k.opened_of_epoll n hn)

/-- The epoll set drops a descriptor that is closed. -/
def close (k : Kernel) (fd : Nat) : Kernel where
  opened := k.opened.erase fd
  epoll := update k.epoll fd none
  opened_of_epoll := closed_opened

theorem not_registered {k : Kernel} {fd : Nat} (h : fd ∉ k.opened) : k.epoll fd = none := by
  rw [← Option.not_isSome_iff_eq_none]
  exact fun hs => h (k.opened_of_epoll fd hs)

end Kernel

/-! ## The event loop -/

inductive TriggerEvent where
  | IN_EVENT | OUT_EVENT
  deriving DecidableEq

def FdEvent.listen (e : FdEvent) : TriggerEvent → FdEvent
  | .IN_EVENT => { e with in_event := true }
  | .OUT_EVENT => { e with out_event := true }

def FdEvent.cancle (e : FdEvent) : TriggerEvent → FdEvent
  | .IN_EVENT => { e with in_event := false }
  | .OUT_EVENT => { e with out_event := false }

structure EventLoop where
  kernel : Kernel
  m_listen_fds : Finset Nat := ∅
  /-- The `FdEvent` of each descriptor. -/
  fdEvents : Nat → FdEvent

namespace EventLoop

/-- A failed `epoll_ctl` is only logged. -/
def epoll_ctl (l : EventLoop) (op : EpollCtl) (fd : Nat) : EventLoop :=
  { l with kernel := (l.kernel.epoll_ctl op fd (l.fdEvents fd)).getD l.kernel }

def addEpollEvent (l : EventLoop) (fd : Nat) : EventLoop :=
  let op := if fd ∈ l.m_listen_fds then EpollCtl.MOD else EpollCtl.ADD
  { l.epoll_ctl op fd with m_listen_fds := insert fd l.m_listen_fds }

def deleteEpollEvent (l : EventLoop) (fd : Nat) : EventLoop :=
  if fd ∉ l.m_listen_fds then l
  else { l.epoll_ctl .DEL fd with m_listen_fds := l.m_listen_fds.erase fd }

def setFdEvent (l : EventLoop) (fd : Nat) (e : FdEvent) : EventLoop :=
  { l with fdEvents := update l.fdEvents fd e }

def listen (l : EventLoop) (fd : Nat) (event_type : TriggerEvent) : EventLoop :=
  l.setFdEvent fd ((l.fdEvents fd).listen event_type)

def cancle (l : EventLoop) (fd : Nat) (event_type : TriggerEvent) : EventLoop :=
  l.setFdEvent fd ((l.fdEvents fd).cancle event_type)

def socket (l : EventLoop) : Nat × EventLoop :=
  (l.kernel.socket.1, { l with kernel := l.kernel.socket.2 })

def close (l : EventLoop) (fd : Nat) : EventLoop := { l with kernel := l.kernel.close fd }

theorem epoll_ctl_opened (l : EventLoop) (op : EpollCtl) (fd : Nat) :
    (l.epoll_ctl op fd).kernel.opened = l.kernel.opened := by
  unfold epoll_ctl Kernel.epoll_ctl
  cases op with
  | ADD =>
    simp only
    split
    · split <;> rfl
    · rfl
  | MOD =>
    simp only
    split <;> rfl
  | DEL =>
    simp only
    split <;> rfl

/-! ## Agreement with the kernel -/

def SameSet (l : EventLoop) : Prop :=
  ∀ fd, fd ∈ l.m_listen_fds ↔ (l.kernel.epoll fd).isSome

/-- The kernel has the descriptors of the set, with their current events, and no others. -/
def Synced (l : EventLoop) : Prop :=
  ∀ fd, l.kernel.epoll fd = if fd ∈ l.m_listen_fds then some (l.fdEvents fd) else none

theorem Synced.sameSet {l : EventLoop} (h : l.Synced) : l.SameSet := by
  intro fd
  rw [h fd]
  split <;> simp [*]

/-! ## `addEpollEvent` -/

theorem addEpollEvent_listen_fds (l : EventLoop) (fd : Nat) :
    (l.addEpollEvent fd).m_listen_fds = insert fd l.m_listen_fds := rfl

theorem addEpollEvent_opened (l : EventLoop) (fd : Nat) :
    (l.addEpollEvent fd).kernel.opened = l.kernel.opened := l.epoll_ctl_opened _ fd

theorem addEpollEvent_new {l : EventLoop} {fd : Nat} (hopen : fd ∈ l.kernel.opened)
    (hnew : fd ∉ l.m_listen_fds) (hnone : l.kernel.epoll fd = none) :
    ((l.addEpollEvent fd).kernel.epoll fd).isSome := by
  unfold addEpollEvent epoll_ctl Kernel.epoll_ctl
  simp [hnew, hopen, hnone, Kernel.register]

theorem addEpollEvent_fdEvents (l : EventLoop) (fd : Nat) :
    (l.addEpollEvent fd).fdEvents = l.fdEvents := rfl

theorem addEpollEvent_epoll {l : EventLoop} (h : l.SameSet) {fd : Nat}
    (hopen : fd ∈ l.kernel.opened) :
    (l.addEpollEvent fd).kernel.epoll = update l.kernel.epoll fd (some (l.fdEvents fd)) := by
  unfold addEpollEvent epoll_ctl Kernel.epoll_ctl
  by_cases hfd : fd ∈ l.m_listen_fds
  · simp only [if_pos hfd, dif_pos ((h fd).mp hfd)]
    rfl
  · simp only [if_neg hfd, dif_pos hopen, if_neg fun hs => hfd ((h fd).mpr hs)]
    rfl

theorem addEpollEvent_closed {l : EventLoop} {fd : Nat} (hopen : fd ∉ l.kernel.opened) :
    ¬ (l.addEpollEvent fd).SameSet := by
  intro h
  have hmem : fd ∈ (l.addEpollEvent fd).m_listen_fds := Finset.mem_insert_self fd _
  have hnone := Kernel.not_registered hopen
  have hs := (h fd).mp hmem
  unfold addEpollEvent epoll_ctl Kernel.epoll_ctl at hs
  split at hs <;> simp [hnone] at hs

theorem setFdEvent_sameSet {l : EventLoop} {fd : Nat} {e : FdEvent} :
    (l.setFdEvent fd e).SameSet ↔ l.SameSet := Iff.rfl

theorem Synced.setFdEvent_add {l : EventLoop} (h : l.Synced) {fd : Nat} (e : FdEvent)
    (hopen : fd ∈ l.kernel.opened) : ((l.setFdEvent fd e).addEpollEvent fd).Synced := by
  intro n
  rw [addEpollEvent_epoll (setFdEvent_sameSet.mpr h.sameSet) hopen, addEpollEvent_listen_fds,
    addEpollEvent_fdEvents]
  by_cases hn : n = fd
  · rw [hn, update_self, if_pos (Finset.mem_insert_self fd _)]
  · simp only [setFdEvent, update_of_ne hn, Finset.mem_insert, hn, false_or]
    exact h n

/-! ## `deleteEpollEvent` -/

theorem deleteEpollEvent_listen_fds (l : EventLoop) (fd : Nat) :
    (l.deleteEpollEvent fd).m_listen_fds = l.m_listen_fds.erase fd := by
  unfold deleteEpollEvent
  split
  · rename_i hfd
    rw [Finset.erase_eq_of_notMem hfd]
  · rfl

theorem deleteEpollEvent_opened (l : EventLoop) (fd : Nat) :
    (l.deleteEpollEvent fd).kernel.opened = l.kernel.opened := by
  unfold deleteEpollEvent
  split
  · rfl
  · exact l.epoll_ctl_opened .DEL fd

theorem deleteEpollEvent_fdEvents (l : EventLoop) (fd : Nat) :
    (l.deleteEpollEvent fd).fdEvents = l.fdEvents := by
  unfold deleteEpollEvent
  split <;> rfl

theorem deleteEpollEvent_epoll (l : EventLoop) (fd n : Nat) :
    (l.deleteEpollEvent fd).kernel.epoll n =
      if n = fd ∧ fd ∈ l.m_listen_fds then none else l.kernel.epoll n := by
  unfold deleteEpollEvent epoll_ctl Kernel.epoll_ctl
  by_cases hfd : fd ∈ l.m_listen_fds
  · by_cases hs : (l.kernel.epoll fd).isSome
    · simp only [hfd, not_true, if_false, and_true, hs, if_true, Option.getD_some,
        Kernel.unregister, update_apply]
    · -- The kernel has nothing to delete.
      have hnone := Option.not_isSome_iff_eq_none.mp hs
      simp only [hfd, not_true, if_false, and_true, hs, Bool.false_eq_true, Option.getD_none]
      split
      · rename_i hn
        rw [hn, hnone]
      · rfl
  · simp only [hfd, not_false_iff, if_true, and_false, if_false]

theorem Synced.setFdEvent_delete {l : EventLoop} (h : l.Synced) (fd : Nat) (e : FdEvent) :
    ((l.setFdEvent fd e).deleteEpollEvent fd).Synced := by
  intro n
  rw [deleteEpollEvent_epoll, deleteEpollEvent_listen_fds, deleteEpollEvent_fdEvents]
  have hn := h n
  simp only [setFdEvent, Finset.mem_erase, update_apply]
  by_cases heq : n = fd
  · subst heq
    by_cases hmem : n ∈ l.m_listen_fds <;> simp_all
  · simpa [heq] using hn

theorem Synced.delete {l : EventLoop} (h : l.Synced) (fd : Nat) : (l.deleteEpollEvent fd).Synced := by
  have hset : l.setFdEvent fd (l.fdEvents fd) = l := by
    unfold setFdEvent
    rw [update_eq_self]
  have := h.setFdEvent_delete fd (l.fdEvents fd)
  rwa [hset] at this

/-! ## Descriptors that come and go -/

theorem Synced.socket {l : EventLoop} (h : l.Synced) : l.socket.2.Synced := h

theorem Synced.close {l : EventLoop} (h : l.Synced) {fd : Nat} (hfd : fd ∉ l.m_listen_fds) :
    (l.close fd).Synced := by
  intro n
  simp only [EventLoop.close, Kernel.close, update_apply]
  split
  · rename_i hn
    rw [hn]
    exact (if_neg hfd).symm
  · exact h n

theorem close_lost {l : EventLoop} {fd : Nat} (hfd : fd ∈ l.m_listen_fds) :
    ¬ (l.close fd).SameSet := by
  intro h
  have := (h fd).mp hfd
  simp [EventLoop.close, Kernel.close] at this

end EventLoop

end TinyRpc
