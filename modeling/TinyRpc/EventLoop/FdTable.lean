import TinyRpc.EventLoop.Owners
import TinyRpc.Lib.Heap
import TinyRpc.Lib.Table
import TinyRpc.Lib.Traced

/-!
# The table of the FdEvents

`FdEventGroup` keeps the `FdEvent` of a descriptor at the index of its number,
and grows by the descriptor that is asked for. A call of `getFdEvent` holds
`m_mutex`, so the calls of all threads are one sequence.
-/

namespace TinyRpc

open Lib Traced

/-- An object of the class: the descriptor that it is created for, and its mask. -/
structure FdEvent.Object extends FdEvent where
  m_fd : Int
  deriving DecidableEq

structure FdEventGroup where
  m_size : Int
  m_fd_group : List Address
  deriving DecidableEq

/-- What all threads share. The group is `NULL` until it is asked for. -/
structure Process where
  heap : Heap FdEvent.Object := {}
  g_fd_event_group : Option FdEventGroup := none
  deriving DecidableEq

namespace FdEventGroup

/-- A group, and the heap that its events are in. -/
abbrev InHeap := FdEventGroup × Heap FdEvent.Object

/-! ## The group -/

inductive Access where
  /-- `m_fd_group[i]`, with the size of the vector. -/
  | index (i : Int) (size : Nat)
  /-- A number that is converted to `int`. -/
  | int (v : Int)
  deriving DecidableEq

def Access.InRange : Access → Prop
  | .index i size => 0 ≤ i ∧ i < size
  | .int v => -2 ^ 31 ≤ v ∧ v < 2 ^ 31

def fdEventAt (g : FdEventGroup) (i : Int) : Traced Access Address :=
  event (.index i g.m_fd_group.length) (if 0 ≤ i then g.m_fd_group[i.toNat]? else none)

def int (v : Int) : Traced Access Int :=
  event (.int v) (if -2 ^ 31 ≤ v ∧ v < 2 ^ 31 then some v else none)

variable (malloc : Heap.Allocator FdEvent.Object)

/-- The body of both loops: `m_fd_group.push_back(new FdEvent(i))`. -/
def push_back (s : InHeap) (i : Int) : InHeap :=
  let (p, heap) := s.2.new malloc { m_fd := i }
  ({ s.1 with m_fd_group := s.1.m_fd_group ++ [p] }, heap)

def pushFrom (i : Int) : Nat → InHeap → InHeap
  | 0, s => s
  | n + 1, s => pushFrom (i + 1) n (push_back malloc s i)

/-- `for(int i=...;i<size;++i)`. -/
def pushUpTo (i size : Int) (s : InHeap) : InHeap := pushFrom malloc i (size - i).toNat s

def new (size : Int) (heap : Heap FdEvent.Object) : InHeap :=
  pushUpTo malloc 0 size (⟨size, []⟩, heap)

def GetFdEventGroup (s : Process) : InHeap :=
  match s.g_fd_event_group with
  | some g => (g, s.heap)
  | none => new malloc 128 s.heap

/-- A factor of 1.5, as a `double`, is exact on an `int`. -/
def getFdEvent (s : InHeap) (fd : Int) : Traced Access (Address × InHeap) :=
  if fd < Coder.intOfSize s.1.m_fd_group.length then do
    let p ← s.1.fdEventAt fd
    return (p, s)
  else do
    let new_size ← int ((fd * 3).tdiv 2)
    let s := pushUpTo malloc (Coder.intOfSize s.1.m_fd_group.length) new_size s
    let p ← s.1.fdEventAt fd
    return (p, s)

/-! ## Growth -/

/-- The object at an index is the one that was created for this descriptor. -/
def Aligned (s : InHeap) : Prop :=
  ∀ (i : Nat) (p : Address), s.1.m_fd_group[i]? = some p →
    ∃ e, s.2.load p = some e ∧ e.m_fd = i

theorem Aligned.inj {s : InHeap} (h : Aligned s) {i j : Nat} {p : Address}
    (hi : s.1.m_fd_group[i]? = some p) (hj : s.1.m_fd_group[j]? = some p) : i = j := by
  have hfd := Heap.eq_of_load (h i p hi) (h j p hj)
  omega

theorem Aligned.nodup {s : InHeap} (h : Aligned s) : s.1.m_fd_group.Nodup := by
  rw [List.nodup_iff_getElem?_ne_getElem?]
  intro i j hij hj heq
  have hsome := List.getElem?_eq_getElem hj
  exact Nat.ne_of_lt hij (h.inj (heq.trans hsome) hsome)

def masks (s : InHeap) : List FdEvent :=
  s.1.m_fd_group.map fun p => ((s.2.load p).map (·.toFdEvent)).getD {}

/-- `n` new objects at the end, each with an empty mask. -/
structure Grown (n : Nat) (s t : InHeap) : Prop where
  aligned : Aligned t
  grows : s.1.m_fd_group <+: t.1.m_fd_group
  length_eq : t.1.m_fd_group.length = s.1.m_fd_group.length + n
  masks_eq : masks t = masks s ++ List.replicate n ({} : FdEvent)

theorem push_back_grown {s : InHeap} (h : Aligned s) :
    Grown 1 s (push_back malloc s s.1.m_fd_group.length) := by
  constructor
  · intro i p hi
    simp only [push_back, List.getElem?_append] at hi
    split at hi
    · obtain ⟨e, he, hfd⟩ := h i p hi
      exact ⟨e, Heap.load_new he, hfd⟩
    · obtain ⟨hlt, heq⟩ := List.getElem?_eq_some_iff.mp hi
      have hlast : i = s.1.m_fd_group.length := by simp at hlt; omega
      refine ⟨{ m_fd := i }, ?_, rfl⟩
      simp only [hlast, Nat.sub_self, List.getElem_cons_zero] at heq
      rw [← heq, hlast]
      exact Heap.load_new_self malloc s.2 _
  · exact List.prefix_append _ _
  · simp [push_back]
  · unfold masks
    simp only [push_back, List.map_append, List.map_cons, List.map_nil, Heap.load_new_self]
    congr 1
    apply List.map_congr_left
    intro p hp
    obtain ⟨i, hi⟩ := List.mem_iff_getElem?.mp hp
    obtain ⟨e, he, -⟩ := h i p hi
    rw [he, Heap.load_new he]

theorem Grown.trans {n m : Nat} {s t u : InHeap} (h : Grown n s t) (h' : Grown m t u) :
    Grown (n + m) s u := by
  constructor
  · exact h'.aligned
  · exact h.grows.trans h'.grows
  · rw [h'.length_eq, h.length_eq, Nat.add_assoc]
  · rw [h'.masks_eq, h.masks_eq, List.append_assoc, List.replicate_append_replicate]

theorem pushFrom_grown (n : Nat) {s : InHeap} (h : Aligned s) :
    Grown n s (pushFrom malloc s.1.m_fd_group.length n s) := by
  induction n generalizing s with
  | zero => exact ⟨h, List.prefix_rfl, rfl, (List.append_nil _).symm⟩
  | succ n ih =>
    have hone := push_back_grown malloc h
    have hrest := ih hone.aligned
    rw [hone.length_eq] at hrest
    have hboth := hone.trans hrest
    rwa [Nat.add_comm 1 n] at hboth

/-! ## The calls -/

structure Inv (s : InHeap) : Prop where
  aligned : Aligned s
  size_ge : 128 ≤ s.1.m_fd_group.length
  size_lt : s.1.m_fd_group.length < 2 ^ 31

theorem pushUpTo_grown {s : InHeap} (h : Aligned s) (size : Int) :
    Grown (size - s.1.m_fd_group.length).toNat s
      (pushUpTo malloc s.1.m_fd_group.length size s) :=
  pushFrom_grown malloc _ h

theorem new_grown (size : Int) (heap : Heap FdEvent.Object) :
    Grown size.toNat (⟨size, []⟩, heap) (new malloc size heap) := by
  have hempty : Aligned (⟨size, []⟩, heap) := by
    intro i p hi
    simp at hi
  have hgrown := pushFrom_grown malloc size.toNat hempty
  simpa [new, pushUpTo] using hgrown

theorem new_length (size : Int) (heap : Heap FdEvent.Object) :
    (new malloc size heap).1.m_fd_group.length = size.toNat := by
  rw [(new_grown malloc size heap).length_eq, List.length_nil, Nat.zero_add]

theorem new_inv (heap : Heap FdEvent.Object) : Inv (new malloc 128 heap) := by
  have hlen := new_length malloc 128 heap
  refine ⟨(new_grown malloc 128 heap).aligned, ?_, ?_⟩
  · rw [hlen]
    decide
  · rw [hlen]
    decide

theorem GetFdEventGroup_inv {s : Process}
    (h : ∀ g, s.g_fd_event_group = some g → Inv (g, s.heap)) : Inv (GetFdEventGroup malloc s) := by
  unfold GetFdEventGroup
  split
  · exact h _ ‹_›
  · exact new_inv malloc s.heap

/-- The descriptor is an index of the table, or one that the table can grow to. -/
def InReach (size : Nat) (fd : Int) : Prop := 0 ≤ fd ∧ (fd < size ∨ fd * 3 / 2 < 2 ^ 31)

instance (size : Nat) : DecidablePred (InReach size) := fun fd =>
  inferInstanceAs (Decidable (0 ≤ fd ∧ (fd < size ∨ fd * 3 / 2 < 2 ^ 31)))

theorem fdEventAt_gives {g : FdEventGroup} {i : Int} {p : Address} :
    Gives Access.InRange (g.fdEventAt i) p ↔ 0 ≤ i ∧ g.m_fd_group[i.toNat]? = some p := by
  unfold fdEventAt
  rw [gives_event]
  constructor
  · rintro ⟨⟨hi, -⟩, hp⟩
    rw [if_pos hi] at hp
    exact ⟨hi, hp⟩
  · rintro ⟨hi, hp⟩
    obtain ⟨hlt, -⟩ := List.getElem?_eq_some_iff.mp hp
    rw [if_pos hi]
    exact ⟨⟨hi, by omega⟩, hp⟩

theorem int_gives {v w : Int} :
    Gives Access.InRange (int v) w ↔ (-2 ^ 31 ≤ v ∧ v < 2 ^ 31) ∧ v = w := by
  unfold int
  rw [gives_event]
  unfold Access.InRange
  refine and_congr_right fun h => ?_
  rw [if_pos h, Option.some.injEq]

theorem getFdEvent_has {s t : InHeap} (h : Inv s) {fd : Int} {p : Address}
    (hfd : fd < s.1.m_fd_group.length) :
    Gives Access.InRange (getFdEvent malloc s fd) (p, t) ↔
      (0 ≤ fd ∧ s.1.m_fd_group[fd.toNat]? = some p) ∧ s = t := by
  unfold getFdEvent
  rw [Coder.intOfSize_eq h.size_lt, if_pos hfd]
  simp [gives_bind, fdEventAt_gives]

theorem getFdEvent_grows {s t : InHeap} (h : Inv s) {fd : Int} {p : Address}
    (hfd : s.1.m_fd_group.length ≤ fd) :
    Gives Access.InRange (getFdEvent malloc s fd) (p, t) ↔
      fd * 3 / 2 < 2 ^ 31 ∧ t.1.m_fd_group[fd.toNat]? = some p ∧
        t = pushUpTo malloc s.1.m_fd_group.length (fd * 3 / 2) s := by
  have hsize := h.size_ge
  have hhalf : (fd * 3).tdiv 2 = fd * 3 / 2 := Int.tdiv_eq_ediv_of_nonneg (by omega)
  unfold getFdEvent
  rw [Coder.intOfSize_eq h.size_lt, if_neg (Int.not_lt.mpr hfd), hhalf]
  simp only [gives_bind, int_gives, fdEventAt_gives, gives_pure, Prod.mk.injEq]
  constructor
  · rintro ⟨_, ⟨⟨-, hlt⟩, rfl⟩, _, ⟨-, hp⟩, rfl, rfl⟩
    exact ⟨hlt, hp, rfl⟩
  · rintro ⟨hlt, hp, rfl⟩
    exact ⟨_, ⟨⟨by omega, hlt⟩, rfl⟩, p, ⟨by omega, hp⟩, rfl, rfl⟩

structure Got (s : InHeap) (fd : Int) (p : Address) (t : InHeap) : Prop where
  inv : Inv t
  grows : s.1.m_fd_group <+: t.1.m_fd_group
  at_fd : t.1.m_fd_group[fd.toNat]? = some p

theorem pushUpTo_got {s : InHeap} (h : Inv s) {fd : Int} (hfd : s.1.m_fd_group.length ≤ fd)
    (hint : fd * 3 / 2 < 2 ^ 31) :
    ∃ p, Got s fd p (pushUpTo malloc s.1.m_fd_group.length (fd * 3 / 2) s) := by
  have hsize := h.size_ge
  have hgrown := pushUpTo_grown malloc h.aligned (fd * 3 / 2)
  have hlen := hgrown.length_eq
  -- A table of 128 descriptors or more grows by enough.
  have hlast : fd.toNat < (pushUpTo malloc s.1.m_fd_group.length (fd * 3 / 2)
      s).1.m_fd_group.length := by omega
  refine ⟨_, ⟨hgrown.aligned, ?_, ?_⟩, hgrown.grows, List.getElem?_eq_getElem hlast⟩
  · omega
  · omega

theorem getFdEvent_gives {s : InHeap} (h : Inv s) {fd : Int} (hfd : InReach s.1.m_fd_group.length fd) :
    ∃ p t, Gives Access.InRange (getFdEvent malloc s fd) (p, t) := by
  obtain ⟨hpos, hreach⟩ := hfd
  rcases Int.lt_or_le fd s.1.m_fd_group.length with hlt | hle
  · have hindex : fd.toNat < s.1.m_fd_group.length := by omega
    exact ⟨_, s, (getFdEvent_has malloc h hlt).mpr
      ⟨⟨hpos, List.getElem?_eq_getElem hindex⟩, rfl⟩⟩
  · have hint := hreach.resolve_left (Int.not_lt.mpr hle)
    obtain ⟨p, hgot⟩ := pushUpTo_got malloc h hle hint
    exact ⟨p, _, (getFdEvent_grows malloc h hle).mpr ⟨hint, hgot.at_fd, rfl⟩⟩

theorem got_of_gives {s t : InHeap} (h : Inv s) {fd : Int} {p : Address}
    (hgives : Gives Access.InRange (getFdEvent malloc s fd) (p, t)) :
    InReach s.1.m_fd_group.length fd ∧ Got s fd p t := by
  rcases Int.lt_or_le fd s.1.m_fd_group.length with hlt | hle
  · obtain ⟨⟨hpos, hp⟩, rfl⟩ := (getFdEvent_has malloc h hlt).mp hgives
    exact ⟨⟨hpos, Or.inl hlt⟩, h, List.prefix_rfl, hp⟩
  · obtain ⟨hint, hp, rfl⟩ := (getFdEvent_grows malloc h hle).mp hgives
    obtain ⟨q, hgot⟩ := pushUpTo_got malloc h hle hint
    exact ⟨⟨by omega, Or.inr hint⟩, hgot.inv, hgot.grows, hp⟩

/-! ## The masks -/

theorem masks_length (s : InHeap) : (masks s).length = s.1.m_fd_group.length :=
  List.length_map _

def byMask (s : InHeap) (h : Inv s) : EventLoop.FdEventGroup :=
  ⟨masks s, (masks_length s).symm ▸ h.size_ge⟩

/-- On the masks the call does what the group of masks does. -/
theorem getFdEvent_byMask {s t : InHeap} (hs : Inv s) (ht : Inv t) {fd : Nat} {p : Address}
    (hgives : Gives Access.InRange (getFdEvent malloc s fd) (p, t)) :
    (byMask s hs).getFdEvent fd = (byMask t ht, (t.2.load p).map (·.toFdEvent)) := by
  have hp := (got_of_gives malloc hs hgives).2.at_fd
  obtain ⟨e, he, -⟩ := ht.aligned _ p hp
  have hmask : (masks t)[fd]? = some e.toFdEvent := by
    simp only [Int.toNat_natCast] at hp
    simp [masks, hp, he]
  unfold EventLoop.FdEventGroup.getFdEvent
  simp only [byMask, masks_length]
  rcases Nat.lt_or_ge fd s.1.m_fd_group.length with hlt | hle
  · obtain ⟨-, rfl⟩ := (getFdEvent_has malloc hs (Int.ofNat_lt.mpr hlt)).mp hgives
    rw [if_pos hlt, hmask, he]
    rfl
  · obtain ⟨-, -, heq⟩ := (getFdEvent_grows malloc hs (Int.ofNat_le.mpr hle)).mp hgives
    have hmasks := (pushUpTo_grown malloc hs.aligned ((fd : Int) * 3 / 2)).masks_eq
    have hn : ((fd : Int) * 3 / 2 - s.1.m_fd_group.length).toNat =
        fd * 3 / 2 - s.1.m_fd_group.length := by omega
    rw [← heq, hn] at hmasks
    simp only [if_neg (Nat.not_lt.mpr hle), ← hmasks, hmask, he]
    rfl

end FdEventGroup

namespace Process

/-! ## The callers -/

/-- What `socket()` and `accept()` return: a descriptor, or -1. -/
structure SysResult where
  val : Int
  val_ge : -1 ≤ val
  val_lt : val < 2 ^ 31
  deriving DecidableEq

def AF_INET : Int := 2

/-- The first result of `TcpAcceptor::accept`. An error is only logged. -/
def accept (m_family : Int) (rt : SysResult) : Int :=
  if m_family = AF_INET then rt.val else -1

inductive Call where
  /-- The constructor of `TcpClient`, and that of its `TcpConnection`. -/
  | tcpClient (rt : SysResult)
  /-- The constructor of the `TcpConnection` of `TcpServer::onAccept`. -/
  | onAccept (m_family : Int) (rt : SysResult)
  deriving DecidableEq

/-- What is passed. A client with no socket does not come to the call. -/
def Call.fd : Call → Option Int
  | .tcpClient rt => if rt.val < 0 then none else some rt.val
  | .onAccept m_family rt => some (accept m_family rt)

variable (malloc : Heap.Allocator FdEvent.Object)

/-- `FdEventGroup::GetFdEventGroup()->getFdEvent(fd)`. -/
def getFdEvent (s : Process) (fd : Int) : Traced FdEventGroup.Access (Address × Process) := do
  let (p, g, heap) ← FdEventGroup.getFdEvent malloc (FdEventGroup.GetFdEventGroup malloc s) fd
  return (p, { heap, g_fd_event_group := some g })

inductive Event where
  | call (c : Call) (m_fd_event : Address)
  /-- What the rest of the process does to the objects. -/
  | rest (heap : Heap FdEvent.Object)

def m_fd_group (s : Process) : List Address :=
  match s.g_fd_event_group with
  | some g => g.m_fd_group
  | none => []

/-- An object of the group is not deleted, and keeps its descriptor. -/
def Keeps (s : Process) (heap : Heap FdEvent.Object) : Prop :=
  ∀ p ∈ s.m_fd_group, (heap.load p).map (·.m_fd) = (s.heap.load p).map (·.m_fd)

instance (s : Process) (heap : Heap FdEvent.Object) : Decidable (s.Keeps heap) :=
  inferInstanceAs (Decidable (∀ p ∈ s.m_fd_group, _))

def next (s : Process) : Event → Option Process
  | .call c m_fd_event =>
    (c.fd.bind fun fd => (s.getFdEvent malloc fd).val).bind fun r =>
      if r.1 = m_fd_event then some r.2 else none
  | .rest heap => if s.Keeps heap then some { s with heap } else none

def system : System Process Event where
  start s := s.g_fd_event_group = none
  step s e t := s.next malloc e = some t

def Event.view : Event → Option (Int × Address)
  | .call c m_fd_event => c.fd.map (·, m_fd_event)
  | .rest _ => none

/-- The descriptors of the calls, with what they have returned. -/
def handed (es : List Event) : List (Int × Address) := es.filterMap Event.view

def size (s : Process) : Nat :=
  match s.g_fd_event_group with
  | some g => g.m_fd_group.length
  | none => 128

def InReach (s : Process) (fd : Int) : Prop := FdEventGroup.InReach s.size fd

def CallInReach (s : Process) : Event → Prop
  | .call c _ => ∀ fd, c.fd = some fd → s.InReach fd
  | .rest _ => True

/-- Each call has returned the object that was created for its descriptor, each
time the same one, and no object is there for two descriptors. -/
structure Sound (es : List Event) (s : Process) : Prop where
  created : ∀ fd p, (fd, p) ∈ handed es → ∃ e, s.heap.load p = some e ∧ e.m_fd = fd
  same_iff : ∀ fd fd' p p', (fd, p) ∈ handed es → (fd', p') ∈ handed es → (fd = fd' ↔ p = p')
  nodup : ∀ g, s.g_fd_event_group = some g → g.m_fd_group.Nodup

/-! ## The table of a process -/

def Inv (s : Process) : Prop :=
  ∀ g, s.g_fd_event_group = some g → FdEventGroup.Inv (g, s.heap)

def object (s : Process) (fd : Int) : Option Address :=
  s.g_fd_event_group.bind fun g => if 0 ≤ fd then g.m_fd_group[fd.toNat]? else none

theorem object_eq_some {s : Process} {fd : Int} {p : Address} :
    s.object fd = some p ↔
      0 ≤ fd ∧ ∃ g, s.g_fd_event_group = some g ∧ g.m_fd_group[fd.toNat]? = some p := by
  unfold object
  rw [Option.bind_eq_some_iff]
  constructor
  · rintro ⟨g, hg, hp⟩
    obtain ⟨hpos, hp⟩ := Option.ite_none_right_eq_some.mp hp
    exact ⟨hpos, g, hg, hp⟩
  · rintro ⟨hpos, g, hg, hp⟩
    exact ⟨g, hg, by rw [if_pos hpos, hp]⟩

theorem Inv.created {s : Process} (h : s.Inv) {fd : Int} {p : Address}
    (hp : s.object fd = some p) : ∃ e, s.heap.load p = some e ∧ e.m_fd = fd := by
  obtain ⟨hpos, g, hg, hp⟩ := object_eq_some.mp hp
  obtain ⟨e, he, hfd⟩ := (h g hg).aligned _ p hp
  exact ⟨e, he, by omega⟩

theorem Inv.inj {s : Process} (h : s.Inv) (fd fd' : Int) (p : Address)
    (hp : s.object fd = some p) (hp' : s.object fd' = some p) : fd = fd' :=
  Heap.eq_of_load (h.created hp) (h.created hp')

theorem size_eq (s : Process) :
    (FdEventGroup.GetFdEventGroup malloc s).1.m_fd_group.length = s.size := by
  unfold FdEventGroup.GetFdEventGroup size
  cases s.g_fd_event_group with
  | some g => rfl
  | none => exact FdEventGroup.new_length malloc 128 s.heap

theorem getFdEvent_gives {s t : Process} {fd : Int} {p : Address} :
    Gives FdEventGroup.Access.InRange (s.getFdEvent malloc fd) (p, t) ↔
      ∃ u, Gives FdEventGroup.Access.InRange
        (FdEventGroup.getFdEvent malloc (FdEventGroup.GetFdEventGroup malloc s) fd) (p, u) ∧
        t = { heap := u.2, g_fd_event_group := some u.1 } := by
  unfold getFdEvent
  simp only [gives_bind, gives_pure, Prod.mk.injEq]
  constructor
  · rintro ⟨⟨q, u⟩, hu, rfl, rfl⟩
    exact ⟨u, hu, rfl⟩
  · rintro ⟨u, hu, rfl⟩
    exact ⟨(p, u), hu, rfl, rfl⟩

/-! ## What a step does -/

theorem call_spec {s t : Process} (hs : s.Inv) {fd : Int} {p : Address}
    (hgives : Gives FdEventGroup.Access.InRange (s.getFdEvent malloc fd) (p, t)) :
    s.InReach fd ∧ t.Inv ∧ (∀ k q, s.object k = some q → t.object k = some q) ∧
      t.object fd = some p := by
  obtain ⟨u, hu, rfl⟩ := (getFdEvent_gives malloc).mp hgives
  have hinv := FdEventGroup.GetFdEventGroup_inv malloc hs
  obtain ⟨hreach, hgot⟩ := FdEventGroup.got_of_gives malloc hinv hu
  rw [size_eq] at hreach
  refine ⟨hreach, ?_, ?_, object_eq_some.mpr ⟨hreach.1, u.1, rfl, hgot.at_fd⟩⟩
  · intro g hg
    rw [← Option.some.inj hg]
    exact hgot.inv
  · intro k q hk
    obtain ⟨hpos, g, hg, hq⟩ := object_eq_some.mp hk
    have hgrows := hgot.grows
    unfold FdEventGroup.GetFdEventGroup at hgrows
    rw [hg] at hgrows
    refine object_eq_some.mpr ⟨hpos, u.1, rfl, ?_⟩
    obtain ⟨hlt, -⟩ := List.getElem?_eq_some_iff.mp hq
    rw [← hq]
    exact (List.prefix_iff_getElem?.mp hgrows _ hlt).trans (List.getElem?_eq_getElem hlt).symm

theorem call_gives {s : Process} (hs : s.Inv) {fd : Int} (hreach : s.InReach fd) :
    ∃ p t, Gives FdEventGroup.Access.InRange (s.getFdEvent malloc fd) (p, t) := by
  have hinv := FdEventGroup.GetFdEventGroup_inv malloc hs
  unfold InReach at hreach
  rw [← size_eq malloc s] at hreach
  obtain ⟨p, u, hu⟩ := FdEventGroup.getFdEvent_gives malloc hinv hreach
  exact ⟨p, _, (getFdEvent_gives malloc).mpr ⟨u, hu, rfl⟩⟩

theorem rest_inv {s : Process} (hs : s.Inv) {heap : Heap FdEvent.Object} (hkeeps : s.Keeps heap) :
    ({ s with heap } : Process).Inv := by
  intro g hg
  refine ⟨?_, (hs g hg).size_ge, (hs g hg).size_lt⟩
  intro i p hp
  obtain ⟨e, he, hfd⟩ := (hs g hg).aligned i p hp
  have hmem : p ∈ s.m_fd_group := by
    unfold m_fd_group
    rw [show s.g_fd_event_group = some g from hg]
    exact List.mem_of_getElem? hp
  have hload := hkeeps p hmem
  simp only at he
  rw [he, Option.map_some] at hload
  obtain ⟨e', he', heq⟩ := Option.map_eq_some_iff.mp hload
  exact ⟨e', he', heq.trans hfd⟩

theorem next_call {s t : Process} {c : Call} {m_fd_event : Address} :
    s.next malloc (.call c m_fd_event) = some t ↔
      ∃ fd, c.fd = some fd ∧ (s.getFdEvent malloc fd).val = some (m_fd_event, t) := by
  simp only [next, Option.bind_eq_some_iff, Option.ite_none_right_eq_some, Option.some.injEq]
  constructor
  · rintro ⟨⟨p, u⟩, ⟨fd, hfd, hval⟩, rfl, rfl⟩
    exact ⟨fd, hfd, hval⟩
  · rintro ⟨fd, hfd, hval⟩
    exact ⟨_, ⟨fd, hfd, hval⟩, rfl, rfl⟩

/-! ## Runs -/

def table (s : Process) (h : s.Inv) : Table Int Address := ⟨s.object, h.inj⟩

def Represents (s : Process) (a : Table Int Address) : Prop := s.Inv ∧ a.object = s.object

theorem simulates : ((system malloc).restrict CallInReach).Simulates
    (Table.system Int Address) Event.view Represents := by
  constructor
  · intro s hstart
    have hinv : s.Inv := by
      intro g hg
      rw [hstart] at hg
      cases hg
    exact ⟨s.table hinv, trivial, hinv, rfl⟩
  · rintro s a (⟨c, p⟩ | heap) t ⟨hinv, hobject⟩ ⟨-, hstep⟩ hview
    · obtain ⟨fd, hfd, -⟩ := (next_call malloc).mp hstep
      simp [Event.view, hfd] at hview
    · obtain ⟨hkeeps, heq⟩ := Option.ite_none_right_eq_some.mp hstep
      cases heq
      exact ⟨rest_inv hinv hkeeps, hobject⟩
  · rintro s a (⟨c, p⟩ | heap) t ⟨k, q⟩ ⟨hinv, hobject⟩ ⟨hreach, hstep⟩ hview
    · obtain ⟨fd, hfd, hval⟩ := (next_call malloc).mp hstep
      simp only [Event.view, hfd, Option.map_some, Option.some.injEq, Prod.mk.injEq] at hview
      obtain ⟨rfl, rfl⟩ := hview
      obtain ⟨p', t', hgives⟩ := call_gives malloc hinv (hreach fd hfd)
      rw [hgives.2] at hval
      cases hval
      obtain ⟨-, hinv', hext, hlast⟩ := call_spec malloc hinv hgives
      exact ⟨t.table hinv', ⟨fun k q hk => hext k q (hobject ▸ hk), hlast⟩, hinv', rfl⟩
    · cases hview

theorem sound_of_run {es : List Event} {s : Process}
    (hrun : ((system malloc).restrict CallInReach).Run es s) : s.Inv ∧ Sound es s := by
  obtain ⟨a, ha, hinv, hobject⟩ := (simulates malloc).run hrun
  refine ⟨hinv, ?_, ?_, ?_⟩
  · intro fd p hp
    have hlooked := Table.object_of_run ha _ hp
    rw [hobject] at hlooked
    exact hinv.created hlooked
  · intro fd fd' p p' hp hp'
    exact Table.same_iff ha hp hp'
  · intro g hg
    exact (hinv g hg).aligned.nodup

/-- As long as every descriptor is in reach, each call returns the one object of
its descriptor. The call of a descriptor that is not uses an index outside the
table, or has no size to grow to. -/
theorem one_object_each (es : List Event) (s : Process)
    (hrun : ((system malloc).restrict CallInReach).Run es s) :
    Sound es s ∧ ∀ c fd, c.fd = some fd →
      ((∃ p t, Gives FdEventGroup.Access.InRange (s.getFdEvent malloc fd) (p, t) ∧
        Sound (es ++ [.call c p]) t) ↔ s.InReach fd) := by
  obtain ⟨hinv, hsound⟩ := sound_of_run malloc hrun
  refine ⟨hsound, fun c fd hfd => ⟨?_, fun hreach => ?_⟩⟩
  · rintro ⟨p, t, hgives, -⟩
    exact (call_spec malloc hinv hgives).1
  · obtain ⟨p, t, hgives⟩ := call_gives malloc hinv hreach
    have hcall : s.CallInReach (.call c p) := by
      intro k hk
      rw [hfd] at hk
      cases hk
      exact hreach
    have hstep : s.next malloc (.call c p) = some t :=
      (next_call malloc).mpr ⟨fd, hfd, hgives.2⟩
    exact ⟨p, t, hgives, (sound_of_run malloc (hrun.step ⟨hcall, hstep⟩)).2⟩

/-! ## An accept that fails -/

def newClient : SysResult := ⟨128, by decide, by decide⟩

def acceptError : SysResult := ⟨-1, by decide, by decide⟩

theorem failed_accept_out_of_range : ∃ s,
    (system .bump).Run [.call (.onAccept AF_INET newClient) 128] s ∧
    (Call.onAccept AF_INET acceptError).fd = some (-1) ∧
    (s.getFdEvent .bump (-1)).log = [.index (-1) 192] ∧
    (s.getFdEvent .bump (-1)).val = none ∧
    ¬ All FdEventGroup.Access.InRange (s.getFdEvent .bump (-1)) := by
  have hlast : (([.call (.onAccept AF_INET newClient) 128] : List Event).foldlM (next .bump)
      {}).map (fun s => decide ((s.getFdEvent .bump (-1)).log = [.index (-1) 192] ∧
        (s.getFdEvent .bump (-1)).val = none)) = some true := by
    decide +kernel
  obtain ⟨s, hs, heq⟩ := Option.map_eq_some_iff.mp hlast
  obtain ⟨hlog, hval⟩ := of_decide_eq_true heq
  refine ⟨s, System.Run.of_next (fun _ _ _ h => h) rfl hs, rfl, hlog, hval, ?_⟩
  intro hall
  have hindex := hall (.index (-1) 192) (by rw [hlog]; exact List.mem_singleton_self _)
  exact absurd hindex.1 (by decide)

instance (s : Process) : DecidablePred s.CallInReach
  | .call c _ => decidable_of_iff (∀ fd ∈ c.fd, FdEventGroup.InReach s.size fd) Iff.rfl
  | .rest _ => isTrue trivial

def firstClient : Call := .tcpClient ⟨6, by decide, by decide⟩

def grown : List Event := [.call firstClient 6, .call (.onAccept AF_INET newClient) 128]

theorem one_object_each_grown : ∃ s t, ((system .bump).restrict CallInReach).Run grown s ∧
    s.size = 192 ∧ Gives FdEventGroup.Access.InRange (s.getFdEvent .bump 6) (6, t) ∧
    Sound (grown ++ [.call firstClient 6]) t := by
  have hlast : (grown.foldlM (System.guarded CallInReach (next .bump)) {}).map
      (fun s => decide (s.size = 192)) = some true := by
    decide +kernel
  obtain ⟨s, hs, heq⟩ := Option.map_eq_some_iff.mp hlast
  have hsize : s.size = 192 := of_decide_eq_true heq
  have hrun : ((system .bump).restrict CallInReach).Run grown s :=
    System.Run.of_guarded (fun _ _ _ h => h) rfl hs
  have hreach : s.InReach 6 := ⟨by decide, Or.inr (by decide)⟩
  obtain ⟨p, t, hgives, hsound⟩ :=
    ((one_object_each .bump grown s hrun).2 firstClient 6 rfl).mpr hreach
  have hfirst : (6, 6) ∈ handed (grown ++ [.call firstClient p]) := by
    simp [handed, grown, Event.view, firstClient, Call.fd]
  have hagain : (6, p) ∈ handed (grown ++ [.call firstClient p]) := by
    simp [handed, Event.view, firstClient, Call.fd]
  obtain rfl := (hsound.same_iff 6 6 6 p hfirst hagain).mp rfl
  exact ⟨s, t, hrun, hsize, hgives, hsound⟩

end Process

end TinyRpc
