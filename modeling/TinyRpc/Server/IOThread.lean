import TinyRpc.Lib.Runs

/-!
# An io thread

`io_thread.cc`. The thread that makes an `IOThread` and the new thread meet at
two semaphores. The event loop is made by the new thread, used by everybody,
and deleted by the destructor.
-/

namespace TinyRpc.IOThread

open Lib

/-- Where the thread that owns the object is. -/
inductive Owner where
  /-- In the constructor, in front of `pthread_create`, and at its `sem_wait`. -/
  | creating
  | waiting
  /-- Behind the constructor, and in `join`. -/
  | constructed
  | joining
  /-- In the destructor: behind `stop`, behind each `sem_destroy`, in `pthread_join`
  and behind it. -/
  | stopped
  | init_destroyed
  | start_destroyed
  | ending
  | ended
  | destroyed
  deriving DecidableEq

/-- Where `Main` is. -/
inductive Main where
  | absent
  | entered
  /-- Behind `new EventLoop()`, behind `getThreadId()`, and behind `sem_post`. -/
  | looped
  | named
  | posted
  /-- In its `sem_wait`. -/
  | waiting
  | looping
  | returned
  deriving DecidableEq

structure EventLoop where
  m_stop_flag : Bool := false

/-- A semaphore is `none` when it is destroyed. -/
structure State where
  owner : Owner := .creating
  main : Main := .absent
  m_init_semaphore : Option Nat := some 0
  m_start_semaphore : Option Nat := some 0
  m_thread_id : Int := -1
  m_event_loop : Option EventLoop := none
  /-- How often `start` was called. -/
  starts : Nat := 0
  /-- Whether a `pthread_join` of the thread has come back. -/
  joined : Bool := false
  /-- Whether a null pointer was followed, a thread joined a second time, or a semaphore
  used or waited for that is destroyed. -/
  undefined : Bool := false

inductive Op where
  | pthread_create
  | new_event_loop
  | getThreadId
  | post_init
  | wait_init
  | start
  /-- `Main` calls its `sem_wait`, and comes back from it. -/
  | wait_start
  | woken
  /-- `getEventLoop()->stop()` by anybody. -/
  | stop
  | leave_loop
  /-- The owner calls `join`, and comes back from it. -/
  | join
  | joined
  /-- The destructor, up to the first `sem_destroy`. -/
  | destroy
  | sem_destroy_init
  | sem_destroy_start
  /-- The destructor calls `pthread_join`, and comes back from it. -/
  | pthread_join
  | ended
  | delete
  deriving DecidableEq

/-! ## The calls -/

/-- `stop` through a pointer that may be null. -/
def State.stopLoop (s : State) : State :=
  match s.m_event_loop with
  | none => { s with undefined := true }
  | some l => { s with m_event_loop := some { l with m_stop_flag := true } }

/-- `loop` through the pointer of the object. -/
def State.enterLoop (s : State) : State :=
  match s.m_event_loop with
  | none => { s with undefined := true }
  | some _ => { s with main := .looping }

def State.postInit (s : State) : State :=
  match s.m_init_semaphore with
  | none => { s with undefined := true }
  | some n => { s with main := .posted, m_init_semaphore := some (n + 1) }

def State.postStart (s : State) : State :=
  match s.m_start_semaphore with
  | none => { s with undefined := true }
  | some n => { s with m_start_semaphore := some (n + 1), starts := s.starts + 1 }

def State.waitStart (s : State) : State :=
  match s.m_start_semaphore with
  | none => { s with undefined := true }
  | some _ => { s with main := .waiting }

/-- `pthread_join`, from where the owner waits at `owner`. -/
def State.pthreadJoin (s : State) (owner : Owner) : State :=
  if s.joined then { s with undefined := true } else { s with owner }

/-- Whether the constructor has returned, and the destructor has not deleted the loop. -/
def Owner.Usable (o : Owner) : Prop := o ≠ .creating ∧ o ≠ .waiting ∧ o ≠ .destroyed

/-- The steps of both threads, when the new thread has the id `tid`. -/
inductive Step (tid : Int) : State → Op → State → Prop
  | pthread_create {s : State} (h : s.owner = .creating) :
    Step tid s .pthread_create { s with owner := .waiting, main := .entered }
  | new_event_loop {s : State} (h : s.main = .entered) :
    Step tid s .new_event_loop { s with main := .looped, m_event_loop := some {} }
  | getThreadId {s : State} (h : s.main = .looped) :
    Step tid s .getThreadId { s with main := .named, m_thread_id := tid }
  | post_init {s : State} (h : s.main = .named) : Step tid s .post_init s.postInit
  | wait_init {s : State} {n : Nat} (h : s.owner = .waiting)
    (hsem : s.m_init_semaphore = some (n + 1)) : Step tid s .wait_init { s with
      owner := .constructed, m_init_semaphore := some n }
  | start {s : State} (h : s.owner = .constructed ∨ s.owner = .joining) :
    Step tid s .start s.postStart
  | wait_start {s : State} (h : s.main = .posted) : Step tid s .wait_start s.waitStart
  | woken {s : State} {n : Nat} (h : s.main = .waiting)
    (hsem : s.m_start_semaphore = some (n + 1)) :
    Step tid s .woken { s with m_start_semaphore := some n }.enterLoop
  | stop {s : State} (h : s.owner.Usable) : Step tid s .stop s.stopLoop
  | leave_loop {s : State} {l : EventLoop} (h : s.main = .looping) (hl : s.m_event_loop = some l)
    (hflag : l.m_stop_flag = true) : Step tid s .leave_loop { s with main := .returned }
  | join {s : State} (h : s.owner = .constructed) : Step tid s .join (s.pthreadJoin .joining)
  | joined {s : State} (h : s.owner = .joining) (hmain : s.main = .returned) :
    Step tid s .joined { s with owner := .constructed, joined := true }
  | destroy {s : State} (h : s.owner = .constructed) :
    Step tid s .destroy { s.stopLoop with owner := .stopped }
  -- The owner is the only one that waits for this semaphore.
  | sem_destroy_init {s : State} (h : s.owner = .stopped) :
    Step tid s .sem_destroy_init { s with owner := .init_destroyed, m_init_semaphore := none }
  | sem_destroy_start {s : State} (h : s.owner = .init_destroyed) :
    Step tid s .sem_destroy_start { s with
      owner := .start_destroyed, m_start_semaphore := none, undefined := s.main = .waiting }
  | pthread_join {s : State} (h : s.owner = .start_destroyed) :
    Step tid s .pthread_join (s.pthreadJoin .ending)
  | ended {s : State} (h : s.owner = .ending) (hmain : s.main = .returned) :
    Step tid s .ended { s with owner := .ended, joined := true }
  | delete {s : State} (h : s.owner = .ended) :
    Step tid s .delete { s with owner := .destroyed, m_event_loop := none }

/-- Behind something undefined there is no step. -/
def system (tid : Int) : System State Op where
  start s := s = {}
  step s e t := s.undefined = false ∧ Step tid s e t

/-! ## The loop is there when it is used -/

/-- Whether `Main` has come past its first `sem_post`. -/
def Main.Ready (m : Main) : Prop := m = .posted ∨ m = .waiting ∨ m = .looping ∨ m = .returned

/-- What the two semaphores say. -/
structure Met (tid : Int) (s : State) : Prop where
  created : s.owner = .creating → s.main = .absent
  posted : ∀ n, s.m_init_semaphore = some (n + 1) → s.main.Ready
  looped : s.main ≠ .absent ∧ s.main ≠ .entered ∧ s.main ≠ .returned → s.m_event_loop.isSome
  named : s.main = .named ∨ s.main.Ready → s.m_thread_id = tid
  usable : s.owner.Usable → s.main.Ready ∧ s.m_event_loop.isSome
  destroyed : s.owner = .destroyed → s.main = .returned
  back : s.owner = .ended ∨ s.joined = true → s.main = .returned
  started : (∃ n, s.m_start_semaphore = some (n + 1)) ∨ s.main = .looping ∨ s.main = .returned →
    0 < s.starts
  known : 0 < s.starts → s.owner ≠ .creating ∧ s.owner ≠ .waiting
  inits : s.owner = .creating ∨ s.owner = .waiting → s.m_init_semaphore.isSome
  starting : s.owner = .creating ∨ s.owner = .waiting ∨ s.owner = .constructed ∨
    s.owner = .joining ∨ s.owner = .stopped ∨ s.owner = .init_destroyed →
    s.m_start_semaphore.isSome

theorem Met.init_isSome {tid : Int} {s : State} (h : Met tid s) (hmain : s.main = .named) :
    s.m_init_semaphore.isSome := by
  apply h.inits
  by_contra howner
  -- The constructor waits until `Main` has posted, and the destructor until it has returned.
  by_cases husable : s.owner.Usable
  · have hready := (h.usable husable).1
    simp [Main.Ready, hmain] at hready
  · have hdestroyed : s.owner = .destroyed := by grind -linarith [Owner.Usable]
    simp [h.destroyed hdestroyed] at hmain

theorem Step.met {tid : Int} {s t : State} {e : Op} (hstep : Step tid s e t) (h : Met tid s) :
    Met tid t := by
  have hinit := h.init_isSome
  obtain ⟨h1, h2, h3, h4, h5, h6, h7, h8, h9, h10, h11⟩ := h
  -- Where the two threads are is no matter of arithmetic.
  cases hstep with
  | post_init hpc =>
    obtain ⟨n, hn⟩ := Option.isSome_iff_exists.mp (hinit hpc)
    simp only [State.postInit, hn]
    constructor <;> grind -linarith [Main.Ready, Owner.Usable]
  | start hpc =>
    obtain ⟨n, hn⟩ := Option.isSome_iff_exists.mp (h11 (by grind -linarith))
    simp only [State.postStart, hn]
    constructor <;> grind -linarith [Main.Ready, Owner.Usable]
  | wait_start hpc =>
    unfold State.waitStart
    split <;> constructor <;> grind -linarith [Main.Ready, Owner.Usable]
  | woken hpc hsem =>
    obtain ⟨l, hl⟩ := Option.isSome_iff_exists.mp (h3 (by simp [hpc]))
    simp only [State.enterLoop, hl]
    constructor <;> grind -linarith [Main.Ready, Owner.Usable]
  | stop hpc =>
    obtain ⟨l, hl⟩ := Option.isSome_iff_exists.mp (h5 hpc).2
    simp only [State.stopLoop, hl]
    constructor <;> grind -linarith [Main.Ready, Owner.Usable]
  | destroy hpc =>
    obtain ⟨l, hl⟩ := Option.isSome_iff_exists.mp (h5 (by simp [Owner.Usable, hpc])).2
    simp only [State.stopLoop, hl]
    constructor <;> grind -linarith [Main.Ready, Owner.Usable]
  | join hpc | pthread_join hpc =>
    unfold State.pthreadJoin
    split <;> constructor <;> grind -linarith [Main.Ready, Owner.Usable]
  | pthread_create | new_event_loop | getThreadId | wait_init | leave_loop | joined
  | sem_destroy_init | sem_destroy_start | ended | delete =>
    constructor <;> grind -linarith [Main.Ready, Owner.Usable]

theorem run_met {tid : Int} {es : List Op} {s : State} (hrun : (system tid).Run es s) :
    Met tid s := by
  apply hrun.invariant
  · rintro s rfl
    constructor <;> simp [Main.Ready, Owner.Usable]
  · intro s e t h hstep
    exact hstep.2.met h

/-! ## What has to happen first -/

/-- What is seen of a run in its last state. -/
structure Asked (es : List Op) (s : State) : Prop where
  flag : ∀ l, s.m_event_loop = some l → l.m_stop_flag = true → .stop ∈ es ∨ .destroy ∈ es
  returned : s.main = .returned → .stop ∈ es ∨ .destroy ∈ es
  called : s.undefined = false →
    (.wait_start ∈ es ↔ s.main = .waiting ∨ s.main = .looping ∨ s.main = .returned)
  woken : .woken ∈ es ↔ s.main = .looping ∨ s.main = .returned
  joined : s.joined = true ↔ .joined ∈ es ∨ .ended ∈ es
  ended : .ended ∈ es → s.owner = .ended ∨ s.owner = .destroyed
  gone : s.m_start_semaphore = none ↔ .sem_destroy_start ∈ es

theorem Step.asked {tid : Int} {es : List Op} {s t : State} {e : Op} (hstep : Step tid s e t)
    (hdefined : s.undefined = false) (hmet : Met tid s) (hasked : Asked es s) :
    Asked (es ++ [e]) t := by
  obtain ⟨h1, h2, h3, h4, h5, h6, h7⟩ := hasked
  cases hstep with
  | post_init hpc =>
    unfold State.postInit
    split <;> constructor <;> grind -linarith
  | start hpc =>
    unfold State.postStart
    split <;> constructor <;> grind -linarith
  | wait_start hpc =>
    unfold State.waitStart
    split <;> constructor <;> grind -linarith
  | woken hpc hsem =>
    obtain ⟨l, hl⟩ := Option.isSome_iff_exists.mp (hmet.looped (by simp [hpc]))
    simp only [State.enterLoop, hl]
    constructor <;> grind -linarith
  | stop hpc | destroy hpc =>
    unfold State.stopLoop
    split <;> constructor <;> grind -linarith
  | join hpc | pthread_join hpc =>
    unfold State.pthreadJoin
    split <;> constructor <;> grind -linarith
  | pthread_create | new_event_loop | getThreadId | wait_init | leave_loop | joined
  | sem_destroy_init | sem_destroy_start | ended | delete =>
    constructor <;> grind -linarith [hmet.created]

theorem run_asked {tid : Int} {es : List Op} {s : State} (hrun : (system tid).Run es s) :
    Asked es s := by
  induction hrun with
  | start hs =>
    obtain rfl : _ = ({} : State) := hs
    constructor <;> simp
  | step hrun hstep ih => exact hstep.2.asked hstep.1 (run_met hrun) ih

/-- What the calls so far make undefined: a second `pthread_join`, and to destroy the
semaphore that `Main` waits for, or still has to wait for. -/
def Misused (es : List Op) : Op → Prop
  | .join | .pthread_join => .joined ∈ es
  | .sem_destroy_start => .wait_start ∈ es ∧ .woken ∉ es
  | .wait_start => .sem_destroy_start ∈ es
  | _ => False

theorem Step.undefined_iff {tid : Int} {es : List Op} {s t : State} {e : Op}
    (hstep : Step tid s e t) (hdefined : s.undefined = false) (hmet : Met tid s)
    (hasked : Asked es s) : t.undefined = true ↔ Misused es e := by
  cases hstep with
  | post_init hpc =>
    obtain ⟨n, hn⟩ := Option.isSome_iff_exists.mp (hmet.init_isSome hpc)
    simp [State.postInit, hn, hdefined, Misused]
  | start hpc =>
    obtain ⟨n, hn⟩ := Option.isSome_iff_exists.mp (hmet.starting (by grind -linarith))
    simp [State.postStart, hn, hdefined, Misused]
  | wait_start hpc =>
    rw [Misused, ← hasked.gone]
    unfold State.waitStart
    split <;> simp_all
  | woken hpc hsem =>
    obtain ⟨l, hl⟩ := Option.isSome_iff_exists.mp (hmet.looped (by simp [hpc]))
    simp [State.enterLoop, hl, hdefined, Misused]
  | stop hpc =>
    obtain ⟨l, hl⟩ := Option.isSome_iff_exists.mp (hmet.usable hpc).2
    simp [State.stopLoop, hl, hdefined, Misused]
  | destroy hpc =>
    obtain ⟨l, hl⟩ := Option.isSome_iff_exists.mp
      (hmet.usable (by simp [Owner.Usable, hpc])).2
    simp [State.stopLoop, hl, hdefined, Misused]
  -- The destructor is not behind its own `pthread_join` yet.
  | join hpc | pthread_join hpc =>
    have hended : .ended ∉ es := fun h => by simpa [hpc] using hasked.ended h
    have hjoined := hasked.joined
    rw [Misused]
    unfold State.pthreadJoin
    split <;> simp_all
  | sem_destroy_start hpc =>
    rw [Misused, hasked.called hdefined, hasked.woken]
    cases s.main <;> simp
  | pthread_create | new_event_loop | getThreadId | wait_init | leave_loop | joined
  | sem_destroy_init | ended | delete => simp [hdefined, Misused]

/-! ## The life of the thread -/

/-- The loop is there when it is used, and `Main` returns only behind a `start()` and a
stop. The steps that are undefined are the misused ones. -/
structure Proper (tid : Int) (es : List Op) (s : State) : Prop where
  usable : s.owner.Usable → s.m_event_loop.isSome ∧ s.m_thread_id = tid
  looping : s.main = .looping → s.m_event_loop.isSome ∧ 0 < s.starts
  returned : s.main = .returned → 0 < s.starts ∧ (.stop ∈ es ∨ .destroy ∈ es)
  back : .joined ∈ es ∨ .ended ∈ es → s.main = .returned
  undefined : ∀ e t, (system tid).step s e t → (t.undefined = true ↔ Misused es e)

theorem thread_life {tid : Int} {es : List Op} {s : State} (hrun : (system tid).Run es s) :
    Proper tid es s := by
  have hmet := run_met hrun
  have hasked := run_asked hrun
  constructor
  · intro husable
    obtain ⟨hready, hloop⟩ := hmet.usable husable
    exact ⟨hloop, hmet.named (Or.inr hready)⟩
  · intro hlooping
    exact ⟨hmet.looped (by simp [hlooping]), hmet.started (by simp [hlooping])⟩
  · intro hreturned
    exact ⟨hmet.started (by simp [hreturned]), hasked.returned hreturned⟩
  · intro hback
    exact hmet.back (Or.inr (hasked.joined.mpr hback))
  · intro e t hstep
    exact hstep.2.undefined_iff hstep.1 hmet hasked

theorem thread_life_destroyed : ∃ s : State, s.owner = .destroyed ∧ ∃ es, Proper 7 es s := by
  have h0 : (system 7).Run [] {} := System.Run.start rfl
  have h1 := h0.step ⟨rfl, .pthread_create rfl⟩
  have h2 := h1.step ⟨rfl, .new_event_loop rfl⟩
  have h3 := h2.step ⟨rfl, .getThreadId rfl⟩
  have h4 := h3.step ⟨rfl, .post_init rfl⟩
  have h5 := h4.step ⟨rfl, .wait_init rfl rfl⟩
  have h6 := h5.step ⟨rfl, .start (Or.inl rfl)⟩
  have h7 := h6.step ⟨rfl, .wait_start rfl⟩
  have h8 := h7.step ⟨rfl, .woken rfl rfl⟩
  have h9 := h8.step ⟨rfl, .destroy rfl⟩
  have h10 := h9.step ⟨rfl, .sem_destroy_init rfl⟩
  have h11 := h10.step ⟨rfl, .leave_loop rfl rfl rfl⟩
  have h12 := h11.step ⟨rfl, .sem_destroy_start rfl⟩
  have h13 := h12.step ⟨rfl, .pthread_join rfl⟩
  have h14 := h13.step ⟨rfl, .ended rfl rfl⟩
  have h15 := h14.step ⟨rfl, .delete rfl⟩
  exact ⟨_, rfl, _, thread_life h15⟩

end TinyRpc.IOThread
