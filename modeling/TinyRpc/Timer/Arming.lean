import Mathlib.Logic.Relation
import TinyRpc.Lib.Runs
import TinyRpc.Timer.Spec

/-!
# Threads that arm one timer

`addTimerEvent` on any threads and `onTimer` on the loop thread, in their atomic
steps: a section under the mutex, a reading of the clock, a `timerfd_settime`.
`resetArriveTime` copies what is pending under the mutex, and arms the
descriptor after it.
-/

namespace TinyRpc

open Lib

/-! ## The steps -/

/-- What a call of `resetArriveTime` does next: its copy, its reading of the
clock, or its `timerfd_settime`. -/
inductive Reset (ι : Type) where
  | copy
  | read (first : ι)
  | settime (arrive_time now : Int)

/-- What `onTimer` does next. Its last `resetArriveTime` ends it: the tasks that
it runs then are calls of their own. -/
inductive OnTimerPhase (ι : Type) where
  | idle
  | drained
  | collect (now : Int)
  | rearm (tmps : List ι)
  | add (e : ι) (tmps : List ι)
  | reset (r : Reset ι) (tmps : List ι)
  | last (r : Reset ι)

/-- What the threads share. The descriptor of the timer is readable from its
deadline on. -/
structure SharedTimer (ι τ : Type) where
  clock : Int
  timer : Timer ι := {}
  events : Timer.Events ι τ
  /-- The time of the last `timerfd_settime`. -/
  armed_at : Int := 0

/-- The calls of `addTimerEvent` that are in progress are in their `resetArriveTime`. -/
structure Arming (ι τ θ : Type) extends SharedTimer ι τ where
  adding : θ → Option (Reset ι) := fun _ => none
  loop : OnTimerPhase ι := .idle

namespace SharedTimer

variable {ι τ : Type}

def settime (s : SharedTimer ι τ) (arrive_time now : Int) : SharedTimer ι τ :=
  let interval := if arrive_time > now then arrive_time - now else 100
  { s with timer := { s.timer with m_fd := some (s.clock + interval) }, armed_at := s.clock }

/-- One step of `resetArriveTime`, and what it does next. -/
def reset (s : SharedTimer ι τ) : Reset ι → SharedTimer ι τ × Option (Reset ι)
  | .copy =>
    match s.timer.m_pending_events.entries with
    | [] => (s, none)
    | (_, first) :: _ => (s, some (.read first))
  | .read first => (s, some (.settime (s.events first).m_arrive_time s.clock))
  | .settime arrive_time now => (s.settime arrive_time now, none)

/-- `addTimerEvent` up to the end of its section. -/
def add (s : SharedTimer ι τ) (e : ι) : SharedTimer ι τ × Option (Reset ι) :=
  let is_reset_timerfd := s.timer.isFirst s.events e
  let m_pending_events := s.timer.m_pending_events.emplace (s.events e).m_arrive_time e
  ({ s with timer := { s.timer with m_pending_events } },
    if is_reset_timerfd then some .copy else none)

/-- The `read()` calls of `onTimer` disarm a descriptor that is readable. -/
def drain (s : SharedTimer ι τ) : SharedTimer ι τ :=
  { s with timer := { s.timer with m_fd := s.timer.m_fd.filter fun deadline => deadline > s.clock } }

end SharedTimer

namespace Arming

variable {ι τ θ : Type}

inductive Step (ι θ : Type) where
  | tick (n : Nat)
  | addTimerEvent (t : θ) (e : ι)
  /-- The next step of the `addTimerEvent` of a thread. -/
  | resume (t : θ)
  | onTimer
  | setCancle (e : ι) (value : Bool)
  /-- The section of `deleteTimerEvent`. -/
  | erase (e : ι)

def share (s : Arming ι τ θ) (shared : SharedTimer ι τ) : Arming ι τ θ :=
  { s with toSharedTimer := shared }

def setLoop (s : Arming ι τ θ) (r : SharedTimer ι τ × Option (Reset ι)) (ended : OnTimerPhase ι)
    (goes_on : Reset ι → OnTimerPhase ι) : Arming ι τ θ :=
  { s.share r.1 with loop := r.2.elim ended goes_on }

section Next

variable [DecidableEq ι]

def onTimer (s : Arming ι τ θ) : Arming ι τ θ :=
  match s.loop with
  | .idle => { s.share s.drain with loop := .drained }
  | .drained => { s with loop := .collect s.clock }
  | .collect now =>
    let tmps := Timer.sweep s.events now s.timer.m_pending_events.entries
    let m_pending_events := s.timer.m_pending_events.eraseFront tmps.2
    { s with timer := { s.timer with m_pending_events }, loop := .rearm tmps.1 }
  | .rearm [] => { s with loop := .last .copy }
  | .rearm (e :: tmps) =>
    if (s.events e).m_is_repeated then
      { s with events := Timer.resetEvent s.events e s.clock, loop := .add e tmps }
    else { s with loop := .rearm tmps }
  | .add e tmps => s.setLoop (s.toSharedTimer.add e) (.rearm tmps) fun r => .reset r tmps
  | .reset r tmps => s.setLoop (s.toSharedTimer.reset r) (.rearm tmps) fun r => .reset r tmps
  | .last r => s.setLoop (s.toSharedTimer.reset r) .idle .last

variable [DecidableEq θ]

def setAdding (s : Arming ι τ θ) (t : θ) (r : SharedTimer ι τ × Option (Reset ι)) :
    Arming ι τ θ :=
  { s.share r.1 with adding := Function.update s.adding t r.2 }

def next (s : Arming ι τ θ) : Step ι θ → Option (Arming ι τ θ)
  | .tick n => some { s with clock := s.clock + n }
  | .addTimerEvent t e =>
    if (s.adding t).isSome then none else some (s.setAdding t (s.toSharedTimer.add e))
  | .resume t => (s.adding t).map fun r => s.setAdding t (s.toSharedTimer.reset r)
  | .onTimer => some s.onTimer
  | .setCancle e value => some { s with events := Timer.setCancle s.events e value }
  | .erase e =>
    let m_pending_events := s.timer.m_pending_events.eraseEntry (s.events e).m_arrive_time e
    some { s with timer := { s.timer with m_pending_events } }

def system : System (Arming ι τ θ) (Step ι θ) where
  start s := ∃ clock events, s = { clock, events }
  step s e t := s.next e = some t

end Next

end Arming

/-! ## Calls that nothing interrupts -/

namespace SharedTimer

variable {ι τ : Type} (s : SharedTimer ι τ)

def resetArriveTime : SharedTimer ι τ :=
  match s.timer.m_pending_events.entries with
  | [] => s
  | (_, first) :: _ => s.settime (s.events first).m_arrive_time s.clock

def addTimerEvent (e : ι) : SharedTimer ι τ :=
  if s.timer.isFirst s.events e then (s.add e).1.resetArriveTime else (s.add e).1

theorem resetArriveTime_eq : s.resetArriveTime.timer = s.timer.resetArriveTime s.events s.clock ∧
    s.resetArriveTime.events = s.events ∧ s.resetArriveTime.clock = s.clock := by
  unfold resetArriveTime Timer.resetArriveTime
  cases s.timer.m_pending_events.entries with
  | nil => exact ⟨rfl, rfl, rfl⟩
  | cons p rest => exact ⟨rfl, rfl, rfl⟩

theorem addTimerEvent_eq (e : ι) :
    (s.addTimerEvent e).timer = s.timer.addTimerEvent s.events e s.clock ∧
      (s.addTimerEvent e).events = s.events ∧ (s.addTimerEvent e).clock = s.clock := by
  unfold addTimerEvent Timer.addTimerEvent
  split
  · rename_i hfirst
    simp only [hfirst, if_true]
    exact (s.add e).1.resetArriveTime_eq
  · rename_i hfirst
    simp only [hfirst]
    exact ⟨rfl, rfl, rfl⟩

theorem reset_chain : s.reset .copy = (s.resetArriveTime, none) ∨
    ∃ first arrive_time, s.reset .copy = (s, some (.read first)) ∧
      s.reset (.read first) = (s, some (.settime arrive_time s.clock)) ∧
      s.reset (.settime arrive_time s.clock) = (s.resetArriveTime, none) := by
  unfold resetArriveTime
  simp only [reset]
  cases s.timer.m_pending_events.entries with
  | nil => exact Or.inl rfl
  | cons p rest => exact Or.inr ⟨_, _, rfl, rfl, rfl⟩

end SharedTimer

namespace Arming

variable {ι τ θ : Type} [DecidableEq ι]

/-- The loop thread runs on while no other thread takes a step. -/
def Runs : Arming ι τ θ → Arming ι τ θ → Prop := Relation.ReflTransGen fun s t => s.onTimer = t

theorem Runs.step {s t u : Arming ι τ θ} (h : s.onTimer = t) (hruns : Runs t u) : Runs s u :=
  Relation.ReflTransGen.head h hruns

theorem Runs.single {s t : Arming ι τ θ} (h : s.onTimer = t) : Runs s t :=
  Relation.ReflTransGen.single h

theorem runs_reset {s : Arming ι τ θ} {ended : OnTimerPhase ι} {goes_on : Reset ι → OnTimerPhase ι}
    (hphase : ∀ (s : Arming ι τ θ) r, s.loop = goes_on r →
      s.onTimer = s.setLoop (s.toSharedTimer.reset r) ended goes_on) (h : s.loop = goes_on .copy) :
    Runs s (s.setLoop (s.resetArriveTime, none) ended goes_on) := by
  have h1 := hphase s .copy h
  rcases s.reset_chain with hempty | ⟨first, arrive_time, hcopy, hread, hsettime⟩
  · rw [hempty] at h1
    exact Runs.single h1
  · have hnext (r : Reset ι) :
        (s.setLoop (s.toSharedTimer, some r) ended goes_on).onTimer =
          s.setLoop (s.toSharedTimer.reset r) ended goes_on := hphase _ r rfl
    have h2 := hnext (.read first)
    have h3 := hnext (.settime arrive_time s.clock)
    rw [hcopy] at h1
    rw [hread] at h2
    rw [hsettime] at h3
    exact Runs.step h1 (Runs.step h2 (Runs.single h3))

theorem runs_add {s : Arming ι τ θ} {e : ι} {tmps : List ι} (h : s.loop = .add e tmps) :
    Runs s { s.share (s.addTimerEvent e) with loop := .rearm tmps } := by
  have h1 : s.onTimer = s.setLoop (s.toSharedTimer.add e) (.rearm tmps) fun r => .reset r tmps := by
    unfold onTimer
    rw [h]
  have hphase (s : Arming ι τ θ) (r : Reset ι) (h : s.loop = .reset r tmps) :
      s.onTimer = s.setLoop (s.toSharedTimer.reset r) (.rearm tmps) fun r => .reset r tmps := by
    unfold onTimer
    rw [h]
  unfold SharedTimer.addTimerEvent
  split
  · rename_i hfirst
    simp only [SharedTimer.add, hfirst, if_true] at h1
    exact Runs.step h1 (runs_reset hphase rfl)
  · rename_i hfirst
    simp only [SharedTimer.add, hfirst] at h1
    exact Runs.single h1

theorem runs_rearm (tmps : List ι) {readings : List (Int × Int)} {s : Arming ι τ θ}
    (hreadings : ∀ r ∈ readings, r = (s.clock, s.clock)) (hlen : tmps.length ≤ readings.length)
    (h : s.loop = .rearm tmps) :
    ∃ shared : SharedTimer ι τ, Runs s { s.share shared with loop := .last .copy } ∧
      (shared.events, shared.timer) = Timer.rearm tmps readings s.events s.timer ∧
        shared.clock = s.clock := by
  induction tmps generalizing s readings with
  | nil =>
    refine ⟨s.toSharedTimer, Runs.single ?_, rfl, rfl⟩
    unfold onTimer
    rw [h]
    rfl
  | cons e tmps ih =>
    unfold Timer.rearm
    split
    · rename_i hrep
      obtain ⟨reading, rest, rfl⟩ := List.exists_cons_of_length_pos (l := readings)
        (by rw [List.length_cons] at hlen; omega)
      obtain ⟨rfl, hrest⟩ := List.forall_mem_cons.mp hreadings
      have h1 : s.onTimer =
          { s with events := Timer.resetEvent s.events e s.clock, loop := .add e tmps } := by
        unfold onTimer
        rw [h]
        simp only [hrep]
        rfl
      generalize hs1 : ({ s with
        events := Timer.resetEvent s.events e s.clock, loop := .add e tmps } :
          Arming ι τ θ) = s1 at h1
      have hadd : Runs s1 { s1.share (s1.addTimerEvent e) with loop := .rearm tmps } :=
        runs_add (by rw [← hs1])
      obtain ⟨htimer, hevents, hclock⟩ := s1.addTimerEvent_eq e
      have hlen' : tmps.length ≤ rest.length := by
        rw [List.length_cons, List.length_cons] at hlen
        omega
      have hclock' : (s1.addTimerEvent e).clock = s.clock := hclock.trans (by rw [← hs1])
      have hrest' : ∀ r ∈ rest, r = ((s1.addTimerEvent e).clock, (s1.addTimerEvent e).clock) := by
        rw [hclock']
        exact hrest
      obtain ⟨shared, hruns, hshared, hsame⟩ :=
        ih (s := { s1.share (s1.addTimerEvent e) with loop := .rearm tmps }) hrest' hlen' rfl
      have hrearm : (shared.events, shared.timer) =
        Timer.rearm tmps rest (s1.addTimerEvent e).events (s1.addTimerEvent e).timer := hshared
      rw [hevents, htimer] at hrearm
      subst hs1
      exact ⟨shared, Runs.step h1 (hadd.trans hruns), hrearm, hsame.trans hclock⟩
    · rename_i hrep
      have h1 : s.onTimer = { s with loop := .rearm tmps } := by
        unfold onTimer
        rw [h]
        simp only [hrep]
        rfl
      obtain ⟨shared, hruns, hshared⟩ := ih (s := { s with loop := .rearm tmps }) hreadings
        (by rw [List.length_cons] at hlen; omega) rfl
      exact ⟨shared, Runs.step h1 hruns, hshared⟩

/-- Without interruption, `onTimer` is what it is on one thread. -/
theorem onTimer_alone (s : Arming ι τ θ) (h : s.loop = .idle) {readings : List (Int × Int)}
    (hreadings : ∀ r ∈ readings, r = (s.clock, s.clock))
    (hlen : s.timer.m_pending_events.entries.length ≤ readings.length) :
    let r := s.drain.timer.onTimer s.events s.clock readings s.clock
    ∃ shared : SharedTimer ι τ, Runs s { s.share shared with loop := .idle } ∧
      shared.events = r.events ∧ shared.timer = r.timer := by
  let tmps := Timer.sweep s.events s.clock s.timer.m_pending_events.entries
  let m_pending_events := s.timer.m_pending_events.eraseFront tmps.2
  let collected : SharedTimer ι τ :=
    { s.drain with timer := { s.drain.timer with m_pending_events } }
  have hcollect : Runs s { s.share collected with loop := .rearm tmps.1 } := by
    have h1 : s.onTimer = { s.share s.drain with loop := .drained } := by
      unfold onTimer
      rw [h]
    exact Runs.step h1 (Runs.step rfl (Runs.single rfl))
  have hle : tmps.1.length ≤ readings.length := Nat.le_trans (Timer.sweep_length_le _ _ _) hlen
  obtain ⟨shared, hruns, hshared, hclock⟩ :=
    runs_rearm tmps.1 (s := { s.share collected with loop := .rearm tmps.1 }) hreadings hle rfl
  have hphase (s : Arming ι τ θ) (r : Reset ι) (h : s.loop = .last r) :
      s.onTimer = s.setLoop (s.toSharedTimer.reset r) .idle .last := by
    unfold onTimer
    rw [h]
  have hlast := runs_reset (s := { s.share shared with loop := .last .copy }) hphase rfl
  obtain ⟨htimer, hevents, -⟩ := shared.resetArriveTime_eq
  refine ⟨shared.resetArriveTime, (hcollect.trans hruns).trans hlast, ?_, ?_⟩
  · rw [hevents]
    exact congrArg Prod.fst hshared
  · have hsevents := congrArg Prod.fst hshared
    have hstimer := congrArg Prod.snd hshared
    simp only at hsevents hstimer
    rw [htimer, hsevents, hstimer, hclock]
    rfl

variable [DecidableEq θ]

theorem resume_setAdding (s : Arming ι τ θ) (t : θ) (shared : SharedTimer ι τ) (r : Reset ι) :
    (s.setAdding t (shared, some r)).next (.resume t) = some (s.setAdding t (shared.reset r)) := by
  simp only [next, setAdding, share, Function.update_self, Function.update_idem, Option.map_some]

theorem addTimerEvent_alone (s : Arming ι τ θ) {t : θ} (h : s.adding t = none) (e : ι) :
    ∃ n, (Step.addTimerEvent t e :: List.replicate n (.resume t)).foldlM next s =
      some (s.setAdding t (s.addTimerEvent e, none)) := by
  have hadd : s.next (.addTimerEvent t e) = some (s.setAdding t (s.toSharedTimer.add e)) := by
    simp only [next, h]
    rfl
  unfold SharedTimer.addTimerEvent
  split
  · rename_i hfirst
    have hcopy : s.toSharedTimer.add e = ((s.toSharedTimer.add e).1, some .copy) := by
      simp only [SharedTimer.add, hfirst, if_true]
    generalize (s.toSharedTimer.add e).1 = shared at hcopy
    rw [hcopy] at hadd
    have hresume := s.resume_setAdding t shared
    rcases shared.reset_chain with hempty | ⟨first, arrive_time, hcopy, hread, hsettime⟩
    · refine ⟨1, ?_⟩
      simp [hadd, hresume, hempty]
    · refine ⟨3, ?_⟩
      simp [List.replicate, hadd, hresume, hcopy, hread, hsettime]
  · rename_i hfirst
    refine ⟨0, ?_⟩
    simp only [SharedTimer.add, hfirst] at hadd ⊢
    simp [hadd]

end Arming

end TinyRpc
