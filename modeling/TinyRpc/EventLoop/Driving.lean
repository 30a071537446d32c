import TinyRpc.EventLoop.Tasks

/-!
# The loop of a client

`TcpClient::connect` runs the loop of its thread, unless it runs already.
`EventLoop::loop` sets `m_is_looping`, and `EventLoop::stop` sets `m_stop_flag`.
All of this is one thread: a `connect` is called outside of the loop, or by the
callback of a connection that is set up.
-/

namespace TinyRpc.EventLoop

open Lib TaskQueue

/-! ## One thread -/

/-- A callback for an event: of the descriptor that wakes the loop up, or of the
connection that the `n`-th call of `connect` has begun. -/
inductive Task where
  | wakeUp
  | connected (n : Nat)
  deriving DecidableEq

structure Driving where
  queue : TaskQueue.State Task := {}
  m_is_looping : Bool := false
  /-- The call of `connect` that has called `loop`, while that has not returned. -/
  active : Option Nat := none
  /-- The callback of a connection is at its call of `done`. -/
  calling : Bool := false
  /-- The connections whose write event is in `epoll`. -/
  registered : List Nat := []
  /-- How often `connect` was called. -/
  connects : Nat := 0

namespace Driving

inductive Event where
  /-- `TcpClient::connect`, with `EINPROGRESS`. -/
  | connect
  /-- `TcpClient::stop`. -/
  | stop
  /-- `done` returns. -/
  | done
  /-- The call of `loop` goes on. -/
  | loop (op : Op Task)
  /-- It returns, and with it the call of `connect`. -/
  | exit

def register (s : Driving) : Driving :=
  { s with registered := s.registered ++ [s.connects], connects := s.connects + 1 }

def connect (s : Driving) : Driving :=
  if s.m_is_looping then s.register
  else { s.register with m_is_looping := true, active := some s.connects }

def stop (s : Driving) : Driving :=
  if s.m_is_looping then { s with queue := { s.queue with m_stop_flag := true } } else s

/-- What the callback does to the rest: the write event of a connection is deleted. -/
def run (s : Driving) : Option Task → Driving
  | some (.connected n) => { s with registered := s.registered.erase n, calling := true }
  | some .wakeUp | none => s

/-- What `epoll_wait` can report. -/
def Reported (s : Driving) (cb : Option Task) : Prop :=
  cb = some .wakeUp ∨ ∃ n ∈ s.registered, cb = some (.connected n)

/-- Outside of the loop, or in a callback. -/
def Free (s : Driving) : Prop := s.active = none ∨ s.calling

/-- The part of the loop that needs nothing but the queue. -/
def IsTurn : Op Task → Prop
  | .enter | .swap | .post _ | .again => True
  | .addTask _ | .stop | .runTask | .epoll_wait _ => False

inductive Step (s : Driving) : Event → Driving → Prop
  | connect (hfree : s.Free) : Step s .connect s.connect
  | stop (hcalling : s.calling) : Step s .stop s.stop
  | done (hcalling : s.calling) : Step s .done { s with calling := false }
  | turn (op : Op Task) (q : TaskQueue.State Task) (n : Nat) (hactive : s.active = some n)
    (hcalling : s.calling = false) (hturn : IsTurn op) (h : TaskQueue.Step s.queue op q) :
    Step s (.loop op) { s with queue := q }
  | runTask (cb : Option Task) (tmp_tasks : List (Option Task)) (q : TaskQueue.State Task)
    (n : Nat) (hactive : s.active = some n) (hcalling : s.calling = false)
    (hpc : s.queue.pc = .draining (cb :: tmp_tasks)) (h : TaskQueue.Step s.queue .runTask q) :
    Step s (.loop .runTask) { s.run cb with queue := q }
  | epoll_wait (callbacks : List (Option Task)) (q : TaskQueue.State Task) (n : Nat)
    (hactive : s.active = some n) (hcalling : s.calling = false)
    (hreported : ∀ cb ∈ callbacks, s.Reported cb)
    (h : TaskQueue.Step s.queue (.epoll_wait callbacks) q) :
    Step s (.loop (.epoll_wait callbacks)) { s with queue := q }
  | exit (n : Nat) (hactive : s.active = some n) (hcalling : s.calling = false)
    (hpc : s.queue.pc = .top) (hflag : s.queue.m_stop_flag) :
    Step s .exit { s with active := none }

def system : System Driving Event where
  start s := s = {}
  step := Step

/-! ## What the flags are for -/

/-- The callback is on its way to its run. -/
def Queued (q : TaskQueue.State Task) (cb : Option Task) : Prop :=
  cb ∈ q.m_pending_tasks ∨ match q.pc with
    | .draining tmp_tasks => cb ∈ tmp_tasks
    | .posting callbacks => cb ∈ callbacks
    | .top | .entered => False

/-- The loop can be driven again: a `connect` outside of it runs it, and its write event
is waited for or dispatched before that call returns. -/
structure Drivable (s : Driving) : Prop where
  isLooping : s.active = none → s.m_is_looping = false
  enters : ∀ t, s.active = none → Step s .connect t → t.active = some s.connects
  waits : ∀ n, s.active = some n → n ∈ s.registered ∨ Queued s.queue (some (.connected n)) ∨
    .connected n ∈ s.queue.executed
  dispatches : ∀ n t, s.active = some n → Step s .exit t → .connected n ∈ s.queue.executed

/-- `TcpClient::stop` is not called. -/
def Proper : Event → Prop
  | .stop => False
  | .connect | .done | .loop _ | .exit => True

/-! ## Without a stop -/

theorem queued_step {q q' : TaskQueue.State Task} {op : Op Task} (hstep : TaskQueue.Step q op q')
    {task : Task} (h : Queued q (some task) ∨ task ∈ q.executed) :
    Queued q' (some task) ∨ task ∈ q'.executed := by
  unfold Queued at h ⊢
  cases hstep with
  | addTask cb => exact h.imp_left (Or.imp_left (List.mem_append_left _))
  | stop => exact h
  | enter hpc hflag =>
    rw [hpc] at h
    exact h
  | swap hpc =>
    rw [hpc] at h
    obtain (hpending | hnone) | hexecuted := h
    · exact .inl (.inr hpending)
    · cases hnone
    · exact .inr hexecuted
  | runTask cb tmp_tasks hpc =>
    rw [hpc] at h
    obtain (hpending | hbatch) | hexecuted := h
    · exact .inl (.inl hpending)
    · rcases List.mem_cons.mp hbatch with rfl | hbatch
      · exact .inr (List.mem_append_right _ (List.mem_singleton_self _))
      · exact .inl (.inr hbatch)
    · exact .inr (List.mem_append_left _ hexecuted)
  | epoll_wait callbacks hpc =>
    rw [hpc] at h
    obtain (hpending | hnil) | hexecuted := h
    · exact .inl (.inl hpending)
    · cases hnil
    · exact .inr hexecuted
  -- A callback moves from the events to the end of the queue.
  | post cb callbacks hpc =>
    rw [hpc] at h
    obtain (hpending | hposting) | hexecuted := h
    · exact .inl (.inl (List.mem_append_left _ hpending))
    · rcases List.mem_cons.mp hposting with rfl | hposting
      · exact .inl (.inl (List.mem_append_right _ (List.mem_singleton_self _)))
      · exact .inl (.inr hposting)
    · exact .inr hexecuted
  | again hpc =>
    rw [hpc] at h
    obtain (hpending | hnil) | hexecuted := h
    · exact .inl (.inl hpending)
    · cases hnil
    · exact .inr hexecuted

/-- The write event of the connection is waited for, or is dispatched. -/
def Waits (s : Driving) (n : Nat) : Prop :=
  n ∈ s.registered ∨ Queued s.queue (some (.connected n)) ∨ .connected n ∈ s.queue.executed

structure Inv (s : Driving) : Prop where
  looping : s.m_is_looping ↔ s.active ≠ none
  flag : s.queue.m_stop_flag = false
  calling : s.calling → s.active ≠ none ∧ ∃ tmp_tasks, s.queue.pc = .draining tmp_tasks
  waits : ∀ n, s.active = some n → s.Waits n

theorem flag_step {q q' : TaskQueue.State Task} {op : Op Task} (h : TaskQueue.Step q op q')
    (hop : op ≠ .stop) : q'.m_stop_flag = q.m_stop_flag := by
  cases h with
  | stop => exact absurd rfl hop
  | addTask | enter | swap | runTask | epoll_wait | post | again => rfl

theorem runTask_executed {q q' : TaskQueue.State Task} {task : Task}
    {tmp_tasks : List (Option Task)} (h : TaskQueue.Step q .runTask q')
    (hpc : q.pc = .draining (some task :: tmp_tasks)) : task ∈ q'.executed := by
  cases h with
  | runTask cb tmp_tasks' hpc' =>
    rw [hpc] at hpc'
    cases hpc'
    exact List.mem_append_right _ (List.mem_singleton_self _)

theorem Inv.connect {s : Driving} (h : s.Inv) : s.connect.Inv := by
  unfold Driving.connect
  split
  · refine ⟨h.looping, h.flag, h.calling, fun n hn => ?_⟩
    exact (h.waits n hn).imp_left (List.mem_append_left _)
  · rename_i hlooping
    refine ⟨by simp, h.flag, fun hcalling => ?_, fun n hn => ?_⟩
    · exact absurd (h.looping.mpr (h.calling hcalling).1) hlooping
    · obtain rfl := Option.some.inj hn
      exact .inl (List.mem_append_right _ (List.mem_singleton_self _))

theorem Inv.step {s t : Driving} (h : s.Inv) {e : Event} (hstep : Step s e t)
    (hproper : Proper e) : t.Inv := by
  cases hstep with
  | connect hfree => exact h.connect
  | stop hcalling => cases hproper
  | done hcalling =>
    refine ⟨h.looping, h.flag, fun hcalling => ?_, h.waits⟩
    cases hcalling
  | turn op q n hactive hcalling hturn hq =>
    refine ⟨h.looping, ?_, fun hc => ?_, fun n hn => ?_⟩
    · rw [flag_step hq (by rintro rfl; exact hturn)]
      exact h.flag
    · exact absurd hc (by simp [hcalling])
    · exact (h.waits n hn).imp_right (queued_step hq)
  | runTask cb tmp_tasks q n hactive hcalling hpc hq =>
    have hflag : q.m_stop_flag = false := by
      rw [flag_step hq (by simp)]
      exact h.flag
    have hpc' : ∃ tmp_tasks, q.pc = .draining tmp_tasks := by
      cases hq
      exact ⟨_, rfl⟩
    obtain _ | _ | m := cb
    · refine ⟨h.looping, hflag, fun hc => ⟨(h.calling hc).1, hpc'⟩, fun n hn => ?_⟩
      exact (h.waits n hn).imp_right (queued_step hq)
    · refine ⟨h.looping, hflag, fun hc => ⟨(h.calling hc).1, hpc'⟩, fun n hn => ?_⟩
      exact (h.waits n hn).imp_right (queued_step hq)
    · refine ⟨h.looping, hflag, fun _ => ⟨?_, hpc'⟩, fun n hn => ?_⟩
      · simp [run, hactive]
      · rcases h.waits n hn with hregistered | hqueued
        · by_cases hnm : n = m
          · subst hnm
            exact .inr (.inr (runTask_executed hq hpc))
          · exact .inl ((List.mem_erase_of_ne hnm).mpr hregistered)
        · exact .inr (queued_step hq hqueued)
  | epoll_wait callbacks q n hactive hcalling hreported hq =>
    refine ⟨h.looping, ?_, fun hc => ?_, fun n hn => ?_⟩
    · rw [flag_step hq (by simp)]
      exact h.flag
    · exact absurd hc (by simp [hcalling])
    · exact (h.waits n hn).imp_right (queued_step hq)
  | exit n hactive hcalling hpc hflag =>
    rw [h.flag] at hflag
    cases hflag

theorem inv_run {es : List Event} {s : Driving}
    (hrun : (system.restrict fun _ => Proper).Run es s) : s.Inv := by
  refine hrun.invariant ?_ fun s e t h hstep => h.step hstep.2 hstep.1
  rintro s rfl
  refine ⟨by simp, rfl, fun hcalling => ?_, fun n hn => ?_⟩
  · cases hcalling
  · cases hn

theorem Inv.drivable {s : Driving} (h : s.Inv) : s.Drivable := by
  have hlooping : s.active = none → s.m_is_looping = false := by
    intro hnone
    rw [← Bool.not_eq_true, h.looping, hnone]
    simp
  refine ⟨hlooping, fun t hnone ht => ?_, h.waits, fun n t _ ht => ?_⟩
  · cases ht
    unfold Driving.connect
    rw [if_neg (by simp [hlooping hnone])]
  · cases ht with
    | exit n hactive hcalling hpc hflag =>
      rw [h.flag] at hflag
      cases hflag

/-! ## The loop goes on -/

/-- The loop of the `n`-th `connect` is at a point of its turn. -/
structure At (s : Driving) (n : Nat) (pc : Pc Task) : Prop where
  active : s.active = some n
  calling : s.calling = false
  pc : s.queue.pc = pc

/-- Between two points no callback stops the loop. -/
structure Goes (s u : Driving) (es : List Event) : Prop where
  proper : ∀ e ∈ es, Proper e
  flag : u.queue.m_stop_flag = s.queue.m_stop_flag
  looping : u.m_is_looping = s.m_is_looping
  executed : ∀ task ∈ s.queue.executed, task ∈ u.queue.executed

theorem Goes.trans {s t u : Driving} {es es' : List Event} (h : Goes s t es)
    (h' : Goes t u es') : Goes s u (es ++ es') where
  proper := List.forall_mem_append.mpr ⟨h.proper, h'.proper⟩
  flag := h'.flag.trans h.flag
  looping := h'.looping.trans h.looping
  executed task htask := h'.executed task (h.executed task htask)

theorem runs_task {es : List Event} {s : Driving} (hrun : system.Run es s) {n : Nat}
    {cb : Option Task} {tmp_tasks : List (Option Task)}
    (h : s.At n (.draining (cb :: tmp_tasks))) :
    ∃ es' u, system.Run (es ++ es') u ∧ u.At n (.draining tmp_tasks) ∧ Goes s u es' ∧
      ∀ task, cb = some task → task ∈ u.queue.executed := by
  have h1 := hrun.step
    (.runTask cb tmp_tasks _ n h.active h.calling h.pc (.runTask _ cb tmp_tasks h.pc))
  have hexecuted : ∀ task, cb = some task → task ∈ s.queue.executed ++ cb.toList := by
    rintro task rfl
    exact List.mem_append_right _ (List.mem_singleton_self _)
  have hkept : ∀ task ∈ s.queue.executed, task ∈ s.queue.executed ++ cb.toList :=
    fun task htask => List.mem_append_left _ htask
  obtain _ | _ | m := cb
  · exact ⟨_, _, h1, ⟨h.active, h.calling, rfl⟩, ⟨by simp [Proper], rfl, rfl, hkept⟩, hexecuted⟩
  · exact ⟨_, _, h1, ⟨h.active, h.calling, rfl⟩, ⟨by simp [Proper], rfl, rfl, hkept⟩, hexecuted⟩
  · have h2 := h1.step (.done rfl)
    rw [List.append_assoc] at h2
    exact ⟨_, _, h2, ⟨h.active, rfl, rfl⟩, ⟨by simp [Proper], rfl, rfl, hkept⟩, hexecuted⟩

theorem drains {es : List Event} {s : Driving} (hrun : system.Run es s) {n : Nat}
    {tmp_tasks : List (Option Task)} (h : s.At n (.draining tmp_tasks)) :
    ∃ es' u, system.Run (es ++ es') u ∧ u.At n (.draining []) ∧ Goes s u es' ∧
      ∀ task, some task ∈ tmp_tasks → task ∈ u.queue.executed := by
  induction tmp_tasks generalizing es s with
  | nil =>
    refine ⟨[], s, by rwa [List.append_nil], h, ⟨by simp, rfl, rfl, fun _ => id⟩, ?_⟩
    intro task htask
    cases htask
  | cons cb tmp_tasks ih =>
    obtain ⟨es₁, t, hrun₁, hat, hgoes, hcb⟩ := runs_task hrun h
    obtain ⟨es₂, u, hrun₂, hat', hgoes', htasks⟩ := ih hrun₁ hat
    refine ⟨es₁ ++ es₂, u, by rwa [← List.append_assoc], hat', hgoes.trans hgoes', ?_⟩
    intro task htask
    rcases List.mem_cons.mp htask with hhead | htask
    · exact hgoes'.executed task (hcb task hhead.symm)
    · exact htasks task htask

theorem posts {es : List Event} {s : Driving} (hrun : system.Run es s) {n : Nat}
    {callbacks : List (Option Task)} (h : s.At n (.posting callbacks)) :
    ∃ es' u, system.Run (es ++ es') u ∧ u.At n .top ∧ Goes s u es' ∧
      u.queue.m_pending_tasks = s.queue.m_pending_tasks ++ callbacks := by
  induction callbacks generalizing es s with
  | nil =>
    have h1 := hrun.step (.turn .again _ n h.active h.calling trivial (.again _ h.pc))
    exact ⟨_, _, h1, ⟨h.active, h.calling, rfl⟩, ⟨by simp [Proper], rfl, rfl, fun _ => id⟩,
      (List.append_nil _).symm⟩
  | cons cb callbacks ih =>
    have h1 := hrun.step
      (.turn (.post cb) _ n h.active h.calling trivial (.post _ cb callbacks h.pc))
    obtain ⟨es', u, hrun', hat, hgoes, hpending⟩ := ih h1 ⟨h.active, h.calling, rfl⟩
    refine ⟨_ :: es', u, by rwa [List.append_cons], hat, ⟨?_, hgoes.flag, hgoes.looping,
      hgoes.executed⟩, ?_⟩
    · exact List.forall_mem_cons.mpr ⟨trivial, hgoes.proper⟩
    · rw [hpending]
      exact (List.append_cons _ _ _).symm

theorem turns {es : List Event} {s : Driving} (hrun : system.Run es s) {n : Nat}
    (h : s.At n .top) (hflag : s.queue.m_stop_flag = false) :
    ∃ es' u, system.Run (es ++ es') u ∧ u.At n (.draining []) ∧ Goes s u es' ∧
      ∀ task, some task ∈ s.queue.m_pending_tasks → task ∈ u.queue.executed := by
  have h1 := hrun.step (.turn .enter _ n h.active h.calling trivial (.enter _ h.pc hflag))
  have h2 := h1.step (.turn .swap _ n h.active h.calling trivial (.swap _ rfl))
  obtain ⟨es', u, hrun', hat, hgoes, htasks⟩ := drains h2 ⟨h.active, h.calling, rfl⟩
  refine ⟨_ :: _ :: es', u, by rwa [List.append_cons, List.append_cons], hat,
    ⟨?_, hgoes.flag, hgoes.looping, hgoes.executed⟩, htasks⟩
  exact List.forall_mem_cons.mpr ⟨trivial, List.forall_mem_cons.mpr ⟨trivial, hgoes.proper⟩⟩

theorem dispatched_of_waits {es : List Event} {s : Driving} (hrun : system.Run es s) {n : Nat}
    (h : s.At n (.draining [])) (hflag : s.queue.m_stop_flag = false) (hwaits : s.Waits n) :
    ∃ es' u, system.Run (es ++ es') u ∧ (∀ e ∈ es', Proper e) ∧ u.active = some n ∧
      .connected n ∈ u.queue.executed := by
  obtain ⟨callbacks, hreported, hqueued⟩ : ∃ callbacks : List (Option Task),
      (∀ cb ∈ callbacks, s.Reported cb) ∧
      (some (.connected n) ∈ s.queue.m_pending_tasks ++ callbacks ∨
        .connected n ∈ s.queue.executed) := by
    rcases hwaits with hregistered | hqueued | hexecuted
    · refine ⟨[some (.connected n)], ?_, .inl (List.mem_append_right _ (List.mem_singleton_self _))⟩
      intro cb hcb
      exact .inr ⟨n, hregistered, List.mem_singleton.mp hcb⟩
    · refine ⟨[], by simp, .inl ?_⟩
      unfold Queued at hqueued
      rw [h.pc] at hqueued
      rcases hqueued with hpending | hnil
      · exact List.mem_append_left _ hpending
      · cases hnil
    · exact ⟨[], by simp, .inr hexecuted⟩
  have h1 := hrun.step
    (.epoll_wait callbacks _ n h.active h.calling hreported (.epoll_wait _ callbacks h.pc))
  obtain ⟨es₁, t, hrun₁, hat, hgoes, hpending⟩ := posts h1 ⟨h.active, h.calling, rfl⟩
  obtain ⟨es₂, u, hrun₂, hat', hgoes', htasks⟩ := turns hrun₁ hat (hgoes.flag.trans hflag)
  refine ⟨_ :: (es₁ ++ es₂), u, by rwa [List.append_cons, ← List.append_assoc], ?_, hat'.active, ?_⟩
  · exact List.forall_mem_cons.mpr ⟨trivial, (hgoes.trans hgoes').proper⟩
  · rcases hqueued with hqueued | hexecuted
    · rw [← hpending] at hqueued
      exact htasks _ hqueued
    · exact hgoes'.executed _ (hgoes.executed _ hexecuted)

/-- From wherever it is, the loop comes to the end of a batch. -/
theorem comes_round {es : List Event} {s : Driving} (hrun : system.Run es s) (h : s.Inv)
    {n : Nat} (hactive : s.active = some n) :
    ∃ es' u, system.Run (es ++ es') u ∧ u.At n (.draining []) ∧ ∀ e ∈ es', Proper e := by
  by_cases hcalling : s.calling
  · obtain ⟨-, tmp_tasks, hpc⟩ := h.calling hcalling
    have h1 := hrun.step (.done hcalling)
    obtain ⟨es', u, hrun', hat, hgoes, -⟩ := drains h1 ⟨hactive, rfl, hpc⟩
    exact ⟨.done :: es', u, by rwa [List.append_cons], hat,
      List.forall_mem_cons.mpr ⟨trivial, hgoes.proper⟩⟩
  rw [Bool.not_eq_true] at hcalling
  cases hpc : s.queue.pc with
  | top =>
    obtain ⟨es', u, hrun', hat, hgoes, -⟩ := turns hrun ⟨hactive, hcalling, hpc⟩ h.flag
    exact ⟨es', u, hrun', hat, hgoes.proper⟩
  | entered =>
    have h1 := hrun.step (.turn .swap _ n hactive hcalling trivial (.swap _ hpc))
    obtain ⟨es', u, hrun', hat, hgoes, -⟩ := drains h1 ⟨hactive, hcalling, rfl⟩
    exact ⟨.loop .swap :: es', u, by rwa [List.append_cons], hat,
      List.forall_mem_cons.mpr ⟨trivial, hgoes.proper⟩⟩
  | draining tmp_tasks =>
    obtain ⟨es', u, hrun', hat, hgoes, -⟩ := drains hrun ⟨hactive, hcalling, hpc⟩
    exact ⟨es', u, hrun', hat, hgoes.proper⟩
  | posting callbacks =>
    obtain ⟨es₁, t, hrun₁, hat, hgoes, -⟩ := posts hrun ⟨hactive, hcalling, hpc⟩
    obtain ⟨es₂, u, hrun₂, hat', hgoes', -⟩ := turns hrun₁ hat (hgoes.flag.trans h.flag)
    exact ⟨es₁ ++ es₂, u, by rwa [← List.append_assoc], hat', (hgoes.trans hgoes').proper⟩

/-! ## With a stop -/

theorem runs_out {es : List Event} {s : Driving} (hrun : system.Run es s) {n : Nat}
    {tmp_tasks : List (Option Task)} (h : s.At n (.draining tmp_tasks))
    (hflag : s.queue.m_stop_flag) (hlooping : s.m_is_looping) :
    ∃ es' u, system.Run (es ++ es') u ∧ u.active = none ∧ u.m_is_looping := by
  obtain ⟨es', u, hrun', hat, hgoes, -⟩ := drains hrun h
  have h1 := hrun'.step (.epoll_wait [] _ n hat.active hat.calling (by simp)
    (.epoll_wait _ [] hat.pc))
  have h2 := h1.step (.turn .again _ n hat.active hat.calling trivial (.again _ rfl))
  have h3 := h2.step (.exit n hat.active hat.calling rfl (hgoes.flag.trans hflag))
  rw [List.append_assoc, List.append_assoc, List.append_assoc] at h3
  exact ⟨_, _, h3, rfl, hgoes.looping.trans hlooping⟩

theorem stop_loses {es : List Event} {s t : Driving} (hrun : system.Run es s) (h : s.Inv)
    (ht : Step s .stop t) : ∃ es' u, system.Run (es ++ .stop :: es') u ∧ ¬ u.Drivable := by
  have h1 := hrun.step ht
  cases ht with
  | stop hcalling =>
    obtain ⟨hactive, tmp_tasks, hpc⟩ := h.calling hcalling
    obtain ⟨n, hn⟩ := Option.ne_none_iff_exists'.mp hactive
    have hlooping := h.looping.mpr hactive
    have hstop : s.stop = { s with queue := { s.queue with m_stop_flag := true } } :=
      if_pos hlooping
    rw [hstop] at h1
    have h2 := h1.step (.done hcalling)
    obtain ⟨es', u, hrun', hnone, hlooping'⟩ := runs_out h2 ⟨hn, rfl, hpc⟩ rfl hlooping
    refine ⟨.done :: es', u, by simpa using hrun', fun hdrivable => ?_⟩
    rw [hdrivable.isLooping hnone] at hlooping'
    cases hlooping'

/-- As long as no callback stops the loop, it can be driven, and the write event of the
`connect` that runs it can be dispatched. After a stop the loop returns with
`m_is_looping` still set, and the next `connect` does not run it. -/
theorem drivable_without_stop (es : List Event) (s : Driving)
    (hrun : (system.restrict fun _ => Proper).Run es s) :
    s.Drivable ∧
    (∀ n, s.active = some n → ∃ es' u, system.Run (es ++ es') u ∧ (∀ e ∈ es', Proper e) ∧
      u.active = some n ∧ .connected n ∈ u.queue.executed) ∧
    ∀ e t, Step s e t → ¬ Proper e →
      ∃ es' u, system.Run (es ++ e :: es') u ∧ ¬ u.Drivable := by
  have h := inv_run hrun
  refine ⟨h.drivable, fun n hactive => ?_, fun e t ht hnot => ?_⟩
  · obtain ⟨es₁, t, hrun₁, hat, hproper⟩ := comes_round hrun.of_restrict h hactive
    have ht := inv_run (hrun.extend hrun₁ hproper)
    obtain ⟨es₂, u, hrun₂, hproper', hdispatched⟩ :=
      dispatched_of_waits hrun₁ hat ht.flag (ht.waits n hat.active)
    exact ⟨es₁ ++ es₂, u, by rwa [← List.append_assoc],
      List.forall_mem_append.mpr ⟨hproper, hproper'⟩, hdispatched⟩
  · cases e with
    | stop => exact stop_loses hrun.of_restrict h ht
    | connect | done | loop | exit => exact absurd trivial hnot

/-! ## Short runs -/

/-- The write event of the first connection, up to its call of `done`. -/
def firstDone : Driving where
  queue := { pc := .draining [], popped := [some (.connected 0)], executed := [.connected 0] }
  m_is_looping := true
  active := some 0
  calling := true
  connects := 1

def firstEvents : List Event :=
  [.connect, .loop .enter, .loop .swap, .loop (.epoll_wait [some (.connected 0)]),
    .loop (.post (some (.connected 0))), .loop .again, .loop .enter, .loop .swap,
    .loop .runTask]

theorem firstDone_run : system.Run firstEvents firstDone := by
  have h0 : system.Run [] {} := System.Run.start rfl
  have h1 := h0.step (.connect (.inl rfl))
  have h2 := h1.step (.turn .enter _ 0 rfl rfl trivial (.enter _ rfl rfl))
  have h3 := h2.step (.turn .swap _ 0 rfl rfl trivial (.swap _ rfl))
  have h4 := h3.step (.epoll_wait [some (.connected 0)] _ 0 rfl rfl
    (by simp [Reported, register, Driving.connect]) (.epoll_wait _ _ rfl))
  have h5 := h4.step (.turn (.post _) _ 0 rfl rfl trivial (.post _ _ [] rfl))
  have h6 := h5.step (.turn .again _ 0 rfl rfl trivial (.again _ rfl))
  have h7 := h6.step (.turn .enter _ 0 rfl rfl trivial (.enter _ rfl rfl))
  have h8 := h7.step (.turn .swap _ 0 rfl rfl trivial (.swap _ rfl))
  exact h8.step (.runTask (some (.connected 0)) [] _ 0 rfl rfl rfl (.runTask _ _ [] rfl))

theorem drivable_firstDone : firstDone.Drivable :=
  (drivable_without_stop firstEvents firstDone
    (firstDone_run.restrict (by simp [firstEvents, Proper]))).1

theorem stopped_not_driven : ∃ es s, system.Run es s ∧ s.active = none ∧
    .connected 0 ∈ s.queue.executed ∧ s.connect.active = none ∧ ¬ s.Drivable := by
  have h1 := firstDone_run.step (.stop rfl)
  have h2 := h1.step (.done rfl)
  have h3 := h2.step (.epoll_wait [] _ 0 rfl rfl (by simp) (.epoll_wait _ [] rfl))
  have h4 := h3.step (.turn .again _ 0 rfl rfl trivial (.again _ rfl))
  have h5 := h4.step (.exit 0 rfl rfl rfl rfl)
  refine ⟨_, _, h5, rfl, List.mem_singleton_self _, rfl, fun h => ?_⟩
  have hlooping := h.isLooping rfl
  cases hlooping

end Driving

end TinyRpc.EventLoop
