import Mathlib.Algebra.Group.Nat.Defs
import Mathlib.Logic.Function.Basic
import TinyRpc.EventLoop.Tasks

/-!
# Waking an event loop up

`addTask` with `is_wake_up`, `wakeup` and `initWakeUpFdEvent`. A thread first
adds its task and then writes to the eventfd. The callback that reads the
eventfd is a task of the queue like the others.
-/

namespace TinyRpc.WakeUp

open Function Lib

variable {τ ι : Type}

/-- What an entry of the queue calls, and the thread that wakes the loop up for it. -/
inductive Task (τ ι : Type) where
  /-- The callback of the eventfd. -/
  | wakeup
  | of (cb : τ) (waker : Option ι)

/-- A callback that `epoll_wait` has an event for. -/
inductive Fired (τ : Type) where
  | wakeup
  | other (cb : Option τ)

def Fired.task : Fired τ → Option (Task τ ι)
  | .wakeup => some .wakeup
  | .other cb => cb.map (.of · none)

structure State (τ ι : Type) where
  queue : TaskQueue.State (Task τ ι) := {}
  /-- The counter of the eventfd. The eventfd is readable as long as it is not 0. -/
  counter : Nat := 0
  /-- The threads that have changed something and not written to the eventfd yet. -/
  waking : ι → Bool := fun _ => false
  /-- How many tasks were in the queue, and whether the flag was set, when the
  eventfd was last emptied in this turn of the loop. -/
  late : Nat := 0
  lateStop : Bool := false

/-- The eight bytes of `{'a'}` are the number 97. A write that would take the
counter past its last value fails. -/
def write (counter : Nat) : Nat :=
  if counter + 97 ≤ 2 ^ 64 - 2 then counter + 97 else counter

theorem write_pos (counter : Nat) : 0 < write counter := by
  unfold write
  split <;> omega

/-- A `read()` of the eventfd that finds something takes all of it. -/
def State.read (s : State τ ι) : State τ ι :=
  { s with
    counter := 0
    late := if 0 < s.counter then s.queue.m_pending_tasks.length else s.late
    lateStop := if 0 < s.counter then s.queue.m_stop_flag else s.lateStop }

/-- The callbacks that the loop has still to add. -/
def callbacks : TaskQueue.Pc (Task τ ι) → List (Option (Task τ ι))
  | .posting callbacks => callbacks
  | _ => []

/-- The thread that wakes the loop up for this entry. -/
def waker : Option (Task τ ι) → Option ι
  | some (.of _ waker) => waker
  | _ => none

theorem waker_fired (f : Fired τ) : waker (f.task : Option (Task τ ι)) = none := by
  cases f with
  | wakeup => rfl
  | other cb => cases cb <;> rfl

theorem waker_of (cb : Option τ) (waker' : Option ι) {i : ι}
    (h : waker (cb.map (.of · waker')) = some i) : waker' = some i := by
  cases cb with
  | none => simp [waker] at h
  | some cb => exact h

inductive Op (τ ι : Type) where
  | addTask (cb : Option τ) (waker : Option ι)
  | stop (i : ι)
  | wakeup (i : ι)
  | enter
  | swap
  | runTask
  /-- A `read()` of the callback after which it reads once more. -/
  | readMore
  | readLast
  | epoll_wait (fired : List (Fired τ))
  | post (cb : Option (Task τ ι))
  | again

/-- Somebody will write to the eventfd for `i`, or it can be read now. -/
def State.Due (s : State τ ι) (i : ι) : Prop := s.waking i = true ∨ 0 < s.counter

/-- For what was added since the eventfd was last emptied, the loop is woken up. -/
structure Woken (s : State τ ι) : Prop where
  fired : ∀ cb ∈ callbacks s.queue.pc, waker cb = none
  tasks : ∀ k cb i, s.late ≤ k → s.queue.m_pending_tasks[k]? = some cb → waker cb = some i →
    s.Due i

theorem Woken.push {s : State τ ι} (h : Woken s) (cb : Option (Task τ ι)) {k : Nat}
    {cb' : Option (Task τ ι)} {i : ι} (hk : s.late ≤ k)
    (hget : (s.queue.m_pending_tasks ++ [cb])[k]? = some cb') (hi : waker cb' = some i) :
    s.Due i ∨ waker cb = some i := by
  rw [List.getElem?_append] at hget
  split at hget
  · exact Or.inl (h.tasks k cb' i hk hget hi)
  · rw [List.getElem?_singleton] at hget
    split at hget
    · obtain rfl := Option.some.inj hget
      exact Or.inr hi
    · simp at hget

theorem Woken.read {s : State τ ι} (h : Woken s) : Woken s.read := by
  refine ⟨h.fired, fun k cb i hk hget hi => ?_⟩
  simp only [State.read] at hk hget
  by_cases hcounter : 0 < s.counter
  · rw [if_pos hcounter] at hk
    rw [List.getElem?_eq_none hk] at hget
    simp at hget
  · rw [if_neg hcounter] at hk
    apply (h.tasks k cb i hk hget hi).imp_right
    intro hpos
    exact absurd hpos hcounter

/-- The same for the flag. The loop tests it before it swaps. -/
structure StopWoken (s : State τ ι) : Prop where
  stop : s.queue.m_stop_flag = true → s.lateStop = false → ∃ i, s.Due i
  lateStop : s.lateStop = true → s.queue.m_stop_flag = true
  entered : s.queue.pc = .entered → s.lateStop = false

theorem StopWoken.read {s : State τ ι} (h : StopWoken s) (hpc : s.queue.pc ≠ .entered) :
    StopWoken s.read := by
  by_cases hcounter : 0 < s.counter
  · refine ⟨?_, ?_, fun hentered => absurd hentered hpc⟩
    · simp only [State.read, if_pos hcounter]
      intro hflag hlate
      simp [hflag] at hlate
    · simp [State.read, if_pos hcounter]
  · refine ⟨?_, ?_, fun hentered => absurd hentered hpc⟩
    · simp only [State.read, if_neg hcounter]
      intro hflag hlate
      obtain ⟨i, hdue⟩ := h.stop hflag hlate
      exact ⟨i, hdue.imp_right fun hpos => absurd hpos hcounter⟩
    · simpa [State.read, if_neg hcounter] using h.lateStop

theorem not_entered {s : State τ ι} {cb : Option (Task τ ι)}
    (h : s.queue.pc.tmp_tasks.head? = some cb) : s.queue.pc ≠ .entered := by
  intro hpc
  simp [hpc, TaskQueue.Pc.tmp_tasks] at h

variable [DecidableEq ι]

def State.wake (s : State τ ι) (waker : Option ι) : ι → Bool :=
  match waker with
  | none => s.waking
  | some i => update s.waking i true

/-- The steps of the queue, with what they do to the eventfd. -/
inductive Step : State τ ι → Op τ ι → State τ ι → Prop
  | addTask {s : State τ ι} {t} (cb : Option τ) (waker : Option ι)
    (hidle : ∀ i ∈ waker, s.waking i = false)
    (h : TaskQueue.Step s.queue (.addTask (cb.map (.of · waker))) t) :
    Step s (.addTask cb waker) { s with queue := t, waking := s.wake waker }
  | stop {s : State τ ι} {t} (i : ι) (hidle : s.waking i = false)
    (h : TaskQueue.Step s.queue .stop t) :
    Step s (.stop i) { s with queue := t, waking := s.wake (some i) }
  | wakeup {s : State τ ι} (i : ι) (hwaking : s.waking i = true) :
    Step s (.wakeup i) { s with counter := write s.counter, waking := update s.waking i false }
  | enter {s : State τ ι} {t} (h : TaskQueue.Step s.queue .enter t) :
    Step s .enter { s with queue := t }
  | swap {s : State τ ι} {t} (h : TaskQueue.Step s.queue .swap t) :
    Step s .swap { s with queue := t, late := 0, lateStop := false }
  | runTask {s : State τ ι} {t} (hother : s.queue.pc.tmp_tasks.head? ≠ some (some .wakeup))
    (h : TaskQueue.Step s.queue .runTask t) : Step s .runTask { s with queue := t }
  /-- The `read()` succeeds, and `errno` is not an old `EAGAIN`. -/
  | readMore {s : State τ ι} (hcallback : s.queue.pc.tmp_tasks.head? = some (some .wakeup))
    (hcounter : 0 < s.counter) : Step s .readMore s.read
  | readLast {s : State τ ι} {t} (hcallback : s.queue.pc.tmp_tasks.head? = some (some .wakeup))
    (h : TaskQueue.Step s.queue .runTask t) : Step s .readLast { s.read with queue := t }
  | epoll_wait {s : State τ ι} {t} (fired : List (Fired τ))
    (hready : Fired.wakeup ∈ fired → 0 < s.counter)
    (h : TaskQueue.Step s.queue (.epoll_wait (fired.map Fired.task)) t) :
    Step s (.epoll_wait fired) { s with queue := t }
  | post {s : State τ ι} {t} (cb : Option (Task τ ι)) (h : TaskQueue.Step s.queue (.post cb) t) :
    Step s (.post cb) { s with queue := t }
  | again {s : State τ ι} {t} (h : TaskQueue.Step s.queue .again t) :
    Step s .again { s with queue := t }

def system : System (State τ ι) (Op τ ι) where
  start s := s = {}
  step := Step

/-! ## The queue below -/

/-- What an operation is for the queue. -/
def view : Op τ ι → Option (TaskQueue.Op (Task τ ι))
  | .addTask cb waker => some (.addTask (cb.map (.of · waker)))
  | .stop _ => some .stop
  | .wakeup _ => none
  | .enter => some .enter
  | .swap => some .swap
  | .runTask => some .runTask
  | .readMore => none
  | .readLast => some .runTask
  | .epoll_wait fired => some (.epoll_wait (fired.map Fired.task))
  | .post cb => some (.post cb)
  | .again => some .again

theorem Step.queue {s t : State τ ι} {e : Op τ ι} (hstep : Step s e t) :
    (view e = none ∧ t.queue = s.queue) ∨
      ∃ f, view e = some f ∧ TaskQueue.Step s.queue f t.queue := by
  cases hstep with
  | wakeup | readMore => exact Or.inl ⟨rfl, rfl⟩
  | addTask _ _ _ h | stop _ _ h | enter h | swap h | runTask _ h | readLast _ h
  | epoll_wait _ _ h | post _ h | again h => exact Or.inr ⟨_, rfl, h⟩

theorem simulates :
    System.Simulates (system : System (State τ ι) (Op τ ι)) TaskQueue.system view
      (fun s q => s.queue = q) where
  start s hs := ⟨{}, rfl, by rw [hs]⟩
  silent s q e t hq hstep hview := by
    obtain ⟨-, hqueue⟩ | ⟨f, hf, -⟩ := Step.queue hstep
    · rw [hqueue, hq]
    · rw [hview] at hf
      simp at hf
  step s q e t f hq hstep hview := by
    obtain ⟨hnone, -⟩ | ⟨g, hg, hqueue⟩ := Step.queue hstep
    · rw [hview] at hnone
      simp at hnone
    · rw [hview] at hg
      obtain rfl := Option.some.inj hg
      rw [hq] at hqueue
      exact ⟨_, hqueue, rfl⟩

/-! ## Tasks are noticed -/

theorem State.Due.wake {s : State τ ι} {i : ι} (h : s.Due i) (waker : Option ι) :
    s.wake waker i = true ∨ 0 < s.counter := by
  unfold State.Due at h
  unfold State.wake
  cases waker with
  | none => exact h
  | some j =>
    by_cases hij : i = j
    · simp [hij]
    · simpa [update_of_ne hij] using h

theorem State.Due.wakeup {s : State τ ι} (i j : ι) :
    update s.waking j false i = true ∨ 0 < write s.counter := Or.inr (write_pos s.counter)

theorem Step.woken {s t : State τ ι} {e : Op τ ι} (hstep : Step s e t) (h : Woken s) : Woken t := by
  cases hstep with
  | addTask cb waker' hidle hq =>
    obtain ⟨⟩ := hq
    refine ⟨h.fired, fun k cb' i hk hget hi => ?_⟩
    obtain hdue | hnew := h.push _ hk hget hi
    · exact hdue.wake waker'
    · rw [waker_of cb waker' hnew]
      simp [State.Due, State.wake]
  | stop i hidle hq =>
    obtain ⟨⟩ := hq
    exact ⟨h.fired, fun k cb j hk hget hj => (h.tasks k cb j hk hget hj).wake (some i)⟩
  | wakeup i hwaking => exact ⟨h.fired, fun k cb j _ _ _ => State.Due.wakeup j i⟩
  | enter hq =>
    obtain ⟨⟩ := hq
    exact ⟨by simp [callbacks], h.tasks⟩
  | swap hq =>
    obtain ⟨⟩ := hq
    exact ⟨by simp [callbacks], by simp⟩
  | runTask hother hq =>
    obtain ⟨⟩ := hq
    exact ⟨by simp [callbacks], h.tasks⟩
  | readMore hcallback hcounter => exact h.read
  | readLast hcallback hq =>
    obtain ⟨⟩ := hq
    exact ⟨by simp [callbacks], h.read.tasks⟩
  | epoll_wait fired hready hq =>
    obtain ⟨⟩ := hq
    refine ⟨?_, h.tasks⟩
    simp [callbacks, waker_fired]
  | post cb hq =>
    cases hq with | post _ rest hpc =>
    have hfired := h.fired
    simp only [hpc, callbacks, List.forall_mem_cons] at hfired
    refine ⟨hfired.2, fun k cb' i hk hget hi => ?_⟩
    obtain hdue | hnew := h.push cb hk hget hi
    · exact hdue
    · rw [hfired.1] at hnew
      simp at hnew
  | again hq =>
    obtain ⟨⟩ := hq
    exact ⟨by simp [callbacks], h.tasks⟩

/-! ## A stop is noticed -/

theorem Step.stopWoken {s t : State τ ι} {e : Op τ ι} (hstep : Step s e t) (h : StopWoken s) :
    StopWoken t := by
  cases hstep with
  | addTask cb waker' hidle hq =>
    obtain ⟨⟩ := hq
    refine ⟨fun hflag hlate => ?_, h.lateStop, h.entered⟩
    obtain ⟨i, hdue⟩ := h.stop hflag hlate
    exact ⟨i, hdue.wake waker'⟩
  | stop i hidle hq =>
    obtain ⟨⟩ := hq
    refine ⟨fun _ _ => ⟨i, ?_⟩, fun _ => rfl, h.entered⟩
    simp [State.Due, State.wake]
  | wakeup i hwaking =>
    exact ⟨fun _ _ => ⟨i, State.Due.wakeup i i⟩, h.lateStop, h.entered⟩
  | enter hq =>
    cases hq with | enter hpc hflag =>
    refine ⟨h.stop, h.lateStop, fun _ => ?_⟩
    rw [Bool.eq_false_iff]
    intro hlate
    simp [h.lateStop hlate] at hflag
  | swap hq =>
    cases hq with | swap hpc =>
    exact ⟨fun hflag _ => h.stop hflag (h.entered hpc), by simp, by simp⟩
  | runTask hother hq =>
    obtain ⟨⟩ := hq
    exact ⟨h.stop, h.lateStop, by simp⟩
  | readMore hcallback hcounter => exact h.read (not_entered hcallback)
  | readLast hcallback hq =>
    have hread := h.read (not_entered hcallback)
    obtain ⟨⟩ := hq
    exact ⟨hread.stop, hread.lateStop, by simp⟩
  | epoll_wait fired hready hq =>
    obtain ⟨⟩ := hq
    exact ⟨h.stop, h.lateStop, by simp⟩
  | post cb hq =>
    obtain ⟨⟩ := hq
    exact ⟨h.stop, h.lateStop, by simp⟩
  | again hq =>
    obtain ⟨⟩ := hq
    exact ⟨h.stop, h.lateStop, by simp⟩

/-! ## Sleep -/

theorem run_woken {es : List (Op τ ι)} {s : State τ ι} (hrun : system.Run es s) :
    Woken s ∧ StopWoken s := by
  apply hrun.invariant
  · rintro s rfl
    exact ⟨⟨by simp [callbacks], by simp⟩, ⟨by simp, by simp, by simp⟩⟩
  · intro s e t h hstep
    exact ⟨hstep.woken h.1, hstep.stopWoken h.2⟩

/-- When nothing wakes the loop, every task whose thread has written to the
eventfd was in the queue, behind the batch, before the callback of this turn
emptied the eventfd, and so was a stop. -/
theorem asleep_only_late {es : List (Op τ ι)} {s : State τ ι} (hrun : system.Run es s)
    (hcounter : s.counter = 0) :
    (∀ k cb i, s.queue.m_pending_tasks[k]? = some cb → waker cb = some i →
      s.waking i = true ∨ k < s.late) ∧
    (s.queue.m_stop_flag = true → (∃ i, s.waking i = true) ∨ s.lateStop = true) := by
  obtain ⟨htasks, hstop⟩ := run_woken hrun
  have hpos (i : ι) (hdue : s.Due i) : s.waking i = true := by
    apply hdue.resolve_right
    simp [hcounter]
  constructor
  · intro k cb i hget hi
    obtain hlate | hk := Nat.lt_or_ge k s.late
    · exact Or.inr hlate
    · exact Or.inl (hpos i (htasks.tasks k cb i hk hget hi))
  · intro hflag
    cases hlate : s.lateStop with
    | true => exact Or.inr rfl
    | false =>
      obtain ⟨i, hdue⟩ := hstop.stop hflag hlate
      exact Or.inl ⟨i, hpos i hdue⟩

/-- A task that is added, with its write, while the batch with the callback runs. -/
def sleeping : State Nat Nat where
  queue :=
    { pc := .draining []
      m_pending_tasks := [some (.of 2 (some 0))]
      popped := [some (.of 1 (some 0)), some .wakeup]
      executed := [.of 1 (some 0), .wakeup] }
  waking := update (update (update (update (fun _ => false) 0 true) 0 false) 0 true) 0 false
  late := 1

theorem asleep_only_late_sleeping : sleeping.counter = 0 ∧
    ((∀ k cb i, sleeping.queue.m_pending_tasks[k]? = some cb → waker cb = some i →
      sleeping.waking i = true ∨ k < sleeping.late) ∧
    (sleeping.queue.m_stop_flag = true →
      (∃ i, sleeping.waking i = true) ∨ sleeping.lateStop = true)) := by
  have h0 : system.Run [] ({} : State Nat Nat) := System.Run.start rfl
  have h1 := h0.step (Step.enter (.enter _ rfl rfl))
  have h2 := h1.step (Step.swap (.swap _ rfl))
  have h3 := h2.step (Step.addTask (some 1) (some 0) (by simp) (.addTask _ _))
  have h4 := h3.step (Step.wakeup 0 (by simp [State.wake]))
  have h5 := h4.step (Step.epoll_wait [.wakeup] (fun _ => write_pos 0) (.epoll_wait _ _ rfl))
  have h6 := h5.step (Step.post (some .wakeup) (.post _ _ [] rfl))
  have h7 := h6.step (Step.again (.again _ rfl))
  have h8 := h7.step (Step.enter (.enter _ rfl rfl))
  have h9 := h8.step (Step.swap (.swap _ rfl))
  have h10 := h9.step (Step.runTask (by simp [TaskQueue.Pc.tmp_tasks, TaskQueue.addTask])
    (.runTask _ (some (.of 1 (some 0))) [some .wakeup] rfl))
  have h11 := h10.step (Step.addTask (some 2) (some 0) (by simp) (.addTask _ _))
  have h12 := h11.step (Step.wakeup 0 (by simp [State.wake]))
  have h13 := h12.step (Step.readLast rfl (.runTask _ (some .wakeup) [] rfl))
  exact ⟨rfl, asleep_only_late (s := sleeping) h13 rfl⟩

/-! ## One turn of the loop -/

theorem turn_batch {σ : Type} {es₁ es₂ : List (TaskQueue.Op σ)} {s : TaskQueue.State σ}
    (hrun : TaskQueue.system.Run (es₁ ++ .swap :: es₂) s) (hturn : .swap ∉ es₂) :
    s.popped ++ s.pc.tmp_tasks = es₁.flatMap TaskQueue.added := by
  induction es₂ using List.reverseRecOn generalizing s with
  | nil =>
    obtain ⟨t, ht, hstep⟩ := hrun.of_snoc
    obtain ⟨-, hflat⟩ := TaskQueue.conserves.run ht
    cases hstep with | swap hpc =>
    simpa [TaskQueue.stages, hpc, TaskQueue.Pc.tmp_tasks] using hflat
  | append_singleton es e ih =>
    rw [List.mem_append, not_or] at hturn
    rw [← List.cons_append, ← List.append_assoc] at hrun
    obtain ⟨t, ht, hstep⟩ := hrun.of_snoc
    have hbatch := ih ht hturn.1
    cases hstep with
    | addTask | stop => exact hbatch
    | enter hpc | epoll_wait _ hpc | again hpc =>
      simpa [hpc, TaskQueue.Pc.tmp_tasks] using hbatch
    | runTask _ _ hpc => simpa [hpc, TaskQueue.Pc.tmp_tasks] using hbatch
    | post _ _ hpc => simpa [hpc, TaskQueue.Pc.tmp_tasks, TaskQueue.addTask] using hbatch
    | swap => simp at hturn

/-- A task waits through one `epoll_wait` at the most: when the loop has run
its batch, it has run all that was added before the swap, and nothing else. -/
theorem turn_runs_all {es₁ es₂ : List (Op τ ι)} {s : State τ ι}
    (hrun : system.Run (es₁ ++ .swap :: es₂) s) (hturn : .swap ∉ es₂)
    (hend : s.queue.pc = .draining []) :
    s.queue.popped = (es₁.filterMap view).flatMap TaskQueue.added := by
  obtain ⟨q, hq, rfl⟩ := simulates.run hrun
  have hswap : view (.swap : Op τ ι) = some .swap := rfl
  rw [List.filterMap_append, List.filterMap_cons_some hswap] at hq
  have hnone : TaskQueue.Op.swap ∉ es₂.filterMap view := by
    rw [List.mem_filterMap]
    rintro ⟨e, he, hview⟩
    cases e with
    | swap => exact hturn he
    | addTask | stop | wakeup | enter | runTask | readMore | readLast | epoll_wait | post | again =>
      simp [view] at hview
  have hbatch := turn_batch hq hnone
  rw [hend] at hbatch
  simpa [TaskQueue.Pc.tmp_tasks] using hbatch

theorem turn_runs_all_one : ∃ s : State Nat Nat, s.queue.m_pending_tasks = [some (.of 2 none)] ∧
    s.queue.popped = [some (.of 1 none)] := by
  have h0 : system.Run [] ({} : State Nat Nat) := System.Run.start rfl
  have h1 := h0.step (Step.addTask (some 1) none (by simp) (.addTask _ _))
  have h2 := h1.step (Step.enter (.enter _ rfl rfl))
  have h3 := h2.step (Step.swap (.swap _ rfl))
  have h4 := h3.step (Step.addTask (some 2) none (by simp) (.addTask _ _))
  have h5 := h4.step (Step.runTask (by simp [TaskQueue.Pc.tmp_tasks, TaskQueue.addTask])
    (.runTask _ (some (.of 1 none)) [] rfl))
  have hrun : system.Run
      ([.addTask (some 1) none, .enter] ++ .swap :: [.addTask (some 2) none, .runTask]) _ := h5
  exact ⟨_, rfl, turn_runs_all hrun (by simp) rfl⟩

end TinyRpc.WakeUp
