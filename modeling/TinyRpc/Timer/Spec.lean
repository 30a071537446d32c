import Mathlib.Data.Int.Order.Basic
import Mathlib.Logic.Function.Basic
import TinyRpc.Lib.Multimap

/-!
# Timers

`timer.cc` and `timer_event.cc`. Events are shared, so a timer holds names of
events, and a function from names to events says what they are. A reading of
the clock is an argument.
-/

namespace TinyRpc

open Lib

/-- An empty `std::function` is a task that does nothing. -/
structure TimerEvent (τ : Type) where
  m_arrive_time : Int
  m_interval : Int
  m_is_repeated : Bool := false
  m_is_cancled : Bool := false
  m_task : τ
  deriving DecidableEq

namespace TimerEvent

variable {τ : Type}

def resetArriveTime (e : TimerEvent τ) (now : Int) : TimerEvent τ :=
  { e with m_arrive_time := now + e.m_interval }

def new (interval : Int) (is_repeated : Bool) (cb : τ) (now : Int) : TimerEvent τ :=
  resetArriveTime
    { m_arrive_time := 0, m_interval := interval, m_is_repeated := is_repeated, m_task := cb } now

def setCancle (e : TimerEvent τ) (value : Bool) : TimerEvent τ := { e with m_is_cancled := value }

end TimerEvent

structure Timer (ι : Type) where
  m_pending_events : Multimap Int ι := Multimap.empty
  /-- When the timer descriptor becomes readable, if it is armed. -/
  m_fd : Option Int := none

namespace Timer

variable {ι τ : Type}

/-- What the names of events stand for. -/
abbrev Events (ι τ : Type) := ι → TimerEvent τ

section Events

variable [DecidableEq ι]

def setCancle (events : Events ι τ) (e : ι) (value : Bool) : Events ι τ :=
  Function.update events e ((events e).setCancle value)

def resetEvent (events : Events ι τ) (e : ι) (now : Int) : Events ι τ :=
  Function.update events e ((events e).resetArriveTime now)

@[simp] theorem setCancle_self (events : Events ι τ) (e : ι) (value : Bool) :
    setCancle events e value e = (events e).setCancle value :=
  Function.update_self e _ events

theorem setCancle_of_ne (events : Events ι τ) {e x : ι} (value : Bool) (h : x ≠ e) :
    setCancle events e value x = events x :=
  Function.update_of_ne h _ events

@[simp] theorem resetEvent_self (events : Events ι τ) (e : ι) (now : Int) :
    resetEvent events e now e = (events e).resetArriveTime now :=
  Function.update_self e _ events

theorem resetEvent_of_ne (events : Events ι τ) {e x : ι} (now : Int) (h : x ≠ e) :
    resetEvent events e now x = events x :=
  Function.update_of_ne h _ events

@[simp] theorem setCancle_arrive_time (events : Events ι τ) (e x : ι) (value : Bool) :
    (setCancle events e value x).m_arrive_time = (events x).m_arrive_time := by
  rcases eq_or_ne x e with rfl | h
  · rw [setCancle_self]; rfl
  · rw [setCancle_of_ne events value h]

@[simp] theorem setCancle_repeated (events : Events ι τ) (e x : ι) (value : Bool) :
    (setCancle events e value x).m_is_repeated = (events x).m_is_repeated := by
  rcases eq_or_ne x e with rfl | h
  · rw [setCancle_self]; rfl
  · rw [setCancle_of_ne events value h]

@[simp] theorem resetEvent_repeated (events : Events ι τ) (e x : ι) (now : Int) :
    (resetEvent events e now x).m_is_repeated = (events x).m_is_repeated := by
  rcases eq_or_ne x e with rfl | h
  · rw [resetEvent_self]; rfl
  · rw [resetEvent_of_ne events now h]

@[simp] theorem resetEvent_cancled (events : Events ι τ) (e x : ι) (now : Int) :
    (resetEvent events e now x).m_is_cancled = (events x).m_is_cancled := by
  rcases eq_or_ne x e with rfl | h
  · rw [resetEvent_self]; rfl
  · rw [resetEvent_of_ne events now h]

end Events

def resetArriveTime (t : Timer ι) (events : Events ι τ) (now : Int) : Timer ι :=
  match t.m_pending_events.entries with
  | [] => t
  | (_, first) :: _ =>
    let arrive_time := (events first).m_arrive_time
    let interval := if arrive_time > now then arrive_time - now else 100
    { t with m_fd := some (now + interval) }

def isFirst (t : Timer ι) (events : Events ι τ) (e : ι) : Bool :=
  match t.m_pending_events.entries with
  | [] => true
  | (_, first) :: _ => (events first).m_arrive_time > (events e).m_arrive_time

def addTimerEvent (t : Timer ι) (events : Events ι τ) (e : ι) (now : Int) : Timer ι :=
  let is_reset_timerfd := t.isFirst events e
  let t := { t with m_pending_events := t.m_pending_events.emplace (events e).m_arrive_time e }
  if is_reset_timerfd then t.resetArriveTime events now else t

/-- The event is cancelled in `events` before this. -/
def deleteTimerEvent [DecidableEq ι] (t : Timer ι) (events : Events ι τ) (e : ι) : Timer ι :=
  { t with m_pending_events := t.m_pending_events.eraseEntry (events e).m_arrive_time e }

/-- The first loop of `onTimer`: the events that it collects, and the number of
entries in front of the iterator when it stops. -/
def sweep (events : Events ι τ) (now : Int) : List (Int × ι) → List ι × Nat
  | [] => ([], 0)
  | (arrive_time, e) :: rest =>
    if arrive_time ≤ now then
      if (events e).m_is_cancled then ([], 0)
      else
        let r := sweep events now rest
        (e :: r.1, r.2 + 1)
    else
      -- The loop does not stop at an event that is not due.
      let r := sweep events now rest
      (r.1, r.2 + 1)

/-- The second loop: repeated events are added again. Each one takes two
readings of the clock, the second one for the descriptor. -/
def rearm [DecidableEq ι] : List ι → List (Int × Int) → Events ι τ → Timer ι →
    Events ι τ × Timer ι
  | [], _, events, t => (events, t)
  | e :: tmps, readings, events, t =>
    if (events e).m_is_repeated then
      let now := readings.headD (0, 0)
      let events := resetEvent events e now.1
      rearm tmps readings.tail events (t.addTimerEvent events e now.2)
    else rearm tmps readings events t

/-- What `onTimer` leaves, and the events whose tasks it runs, with the arrive
times that they had. -/
structure OnTimer (ι τ : Type) where
  events : Events ι τ
  timer : Timer ι
  tasks : List (ι × Int)

/-- `now` is the first reading of the clock, and `last` is the reading that the
descriptor is armed with. -/
def onTimer [DecidableEq ι] (t : Timer ι) (events : Events ι τ) (now : Int)
    (readings : List (Int × Int)) (last : Int) : OnTimer ι τ :=
  let tmps := sweep events now t.m_pending_events.entries
  let tasks := tmps.1.map fun e => (e, (events e).m_arrive_time)
  let left := { t with m_pending_events := t.m_pending_events.eraseFront tmps.2 }
  let r := rearm tmps.1 readings events left
  { events := r.1, timer := r.2.resetArriveTime r.1 last, tasks := tasks }

/-! ## What the functions leave pending -/

theorem sweep_length_le (events : Events ι τ) (now : Int) (l : List (Int × ι)) :
    (sweep events now l).1.length ≤ l.length := by
  induction l with
  | nil => exact Nat.le_refl _
  | cons p l ih =>
    unfold sweep
    rw [List.length_cons]
    split
    · split
      · exact Nat.zero_le _
      · exact Nat.succ_le_succ ih
    · exact Nat.le_succ_of_le ih

@[simp] theorem resetArriveTime_pending (t : Timer ι) (events : Events ι τ) (now : Int) :
    (t.resetArriveTime events now).m_pending_events = t.m_pending_events := by
  unfold resetArriveTime
  split <;> rfl

@[simp] theorem addTimerEvent_pending (t : Timer ι) (events : Events ι τ) (e : ι) (now : Int) :
    (t.addTimerEvent events e now).m_pending_events =
      t.m_pending_events.emplace (events e).m_arrive_time e := by
  unfold addTimerEvent
  simp only
  split
  · exact resetArriveTime_pending _ _ _
  · rfl

end Timer

end TinyRpc
