import Mathlib.Data.List.ReduceOption
import TinyRpc.Lib.Pipeline

/-!
# The task queue of an event loop

`EventLoop::loop` and `EventLoop::addTask`. Any thread may add a task at any
time, and so may a task that runs. A `std::function` may be empty.
-/

namespace TinyRpc.TaskQueue

open Lib

variable {τ : Type}

/-- Where the thread of the loop is. `none` is an empty function. -/
inductive Pc (τ : Type) where
  | top
  /-- Past the test of `m_stop_flag`. -/
  | entered
  /-- In the inner loop, with the tasks that were swapped out. -/
  | draining (tmp_tasks : List (Option τ))
  /-- After `epoll_wait`, with the callbacks of the events that are still to be added. -/
  | posting (callbacks : List (Option τ))

def Pc.tmp_tasks : Pc τ → List (Option τ)
  | .draining tmp_tasks => tmp_tasks
  | _ => []

structure State (τ : Type) where
  pc : Pc τ := .top
  m_stop_flag : Bool := false
  m_pending_tasks : List (Option τ) := []
  /-- What was popped so far, and what was run. -/
  popped : List (Option τ) := []
  executed : List τ := []

inductive Op (τ : Type) where
  | addTask (cb : Option τ)
  | stop
  | enter
  | swap
  | runTask
  | epoll_wait (callbacks : List (Option τ))
  /-- `addTask` by the loop, for its next event. -/
  | post (cb : Option τ)
  | again

def addTask (s : State τ) (cb : Option τ) : State τ :=
  { s with m_pending_tasks := s.m_pending_tasks ++ [cb] }

/-- Each critical section is one step. -/
inductive Step : State τ → Op τ → State τ → Prop
  | addTask (s : State τ) (cb : Option τ) : Step s (.addTask cb) (addTask s cb)
  | stop (s : State τ) : Step s .stop { s with m_stop_flag := true }
  | enter (s : State τ) (hpc : s.pc = .top) (hflag : s.m_stop_flag = false) :
    Step s .enter { s with pc := .entered }
  | swap (s : State τ) (hpc : s.pc = .entered) :
    Step s .swap { s with pc := .draining s.m_pending_tasks, m_pending_tasks := [] }
  | runTask (s : State τ) (cb : Option τ) (tmp_tasks : List (Option τ))
    (hpc : s.pc = .draining (cb :: tmp_tasks)) :
    Step s .runTask { s with
      pc := .draining tmp_tasks
      popped := s.popped ++ [cb]
      executed := s.executed ++ cb.toList }
  | epoll_wait (s : State τ) (callbacks : List (Option τ)) (hpc : s.pc = .draining []) :
    Step s (.epoll_wait callbacks) { s with pc := .posting callbacks }
  | post (s : State τ) (cb : Option τ) (callbacks : List (Option τ))
    (hpc : s.pc = .posting (cb :: callbacks)) :
    Step s (.post cb) { addTask s cb with pc := .posting callbacks }
  | again (s : State τ) (hpc : s.pc = .posting []) : Step s .again { s with pc := .top }

def system : System (State τ) (Op τ) where
  start s := s = {}
  step := Step

/-! ## The queue keeps its tasks -/

/-- What an event adds. -/
def added : Op τ → List (Option τ)
  | .addTask cb => [cb]
  | .post cb => [cb]
  | _ => []

def stages (s : State τ) : List (List (Option τ)) :=
  [s.popped, s.pc.tmp_tasks, s.m_pending_tasks]

def SkipsEmpty (s : State τ) : Prop := s.executed = s.popped.reduceOption

theorem Step.skipsEmpty {s t : State τ} {e : Op τ} (hstep : Step s e t) (h : SkipsEmpty s) :
    SkipsEmpty t := by
  cases hstep with
  | runTask cb tmp_tasks hpc =>
    unfold SkipsEmpty at h ⊢
    simp only [h, List.reduceOption_append, List.reduceOption_singleton]
  | addTask | stop | enter | swap | epoll_wait | post | again => exact h

theorem Step.stages_eq {s t : State τ} {e : Op τ} (hstep : Step s e t) :
    (stages t).flatten = (stages s).flatten ++ added e := by
  cases hstep with
  | addTask cb => simp [stages, TaskQueue.addTask, added]
  | stop => simp [stages, added]
  | enter hpc _ => simp [stages, added, hpc, Pc.tmp_tasks]
  | swap hpc => simp [stages, added, hpc, Pc.tmp_tasks]
  | runTask cb tmp_tasks hpc => simp [stages, added, hpc, Pc.tmp_tasks]
  | epoll_wait callbacks hpc => simp [stages, added, hpc, Pc.tmp_tasks]
  | post cb callbacks hpc => simp [stages, TaskQueue.addTask, added, hpc, Pc.tmp_tasks]
  | again hpc => simp [stages, added, hpc, Pc.tmp_tasks]

theorem conserves : (system : System (State τ) (Op τ)).Conserves SkipsEmpty stages added where
  start s hs := by
    obtain rfl : s = {} := hs
    exact ⟨rfl, rfl⟩
  step _ _ _ h hstep := ⟨hstep.skipsEmpty h, hstep.stages_eq⟩

/-- Whatever threads and tasks add, the loop takes it in the order in which it
was added: what it has popped, the rest of its batch and the queue are what
was added. It runs what it has popped, but for the empty functions. -/
theorem tasks_in_order (es : List (Op τ)) (s : State τ) (hrun : system.Run es s) :
    s.popped ++ s.pc.tmp_tasks ++ s.m_pending_tasks = es.flatMap added ∧
      s.executed = s.popped.reduceOption := by
  obtain ⟨hskips, hflat⟩ := conserves.run hrun
  constructor
  · simpa [stages] using hflat
  · exact hskips

theorem tasks_in_order_addTask : ∃ s : State Nat, s.executed = [1] ∧
    s.popped ++ s.pc.tmp_tasks ++ s.m_pending_tasks = [some 1, none, some 2] := by
  have h0 : system.Run [] ({} : State Nat) := System.Run.start rfl
  have h1 := h0.step (Step.addTask _ (some 1))
  have h2 := h1.step (Step.addTask _ none)
  have h3 := h2.step (Step.enter _ rfl rfl)
  have h4 := h3.step (Step.swap _ rfl)
  have h5 := h4.step (Step.runTask _ (some 1) [none] rfl)
  have h6 := h5.step (Step.addTask _ (some 2))
  exact ⟨_, rfl, (tasks_in_order _ _ h6).1⟩

end TinyRpc.TaskQueue
