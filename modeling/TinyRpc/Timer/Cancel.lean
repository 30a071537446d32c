import TinyRpc.Timer.Pending

/-!
# Events that are cancelled by a callback

`onTimer` takes the callbacks of all events that are due, and then runs one
after the other. A callback may cancel an event whose callback waits behind it.
-/

namespace TinyRpc.Timer

open Lib

variable {ι τ : Type}

/-! ## Calls of `onTimer` that go on -/

/-- A timer whose callbacks may use it. -/
structure Nested (ι τ : Type) where
  events : Events ι τ
  timer : Timer ι
  /-- What each call of `onTimer` has still to run, the innermost call first. -/
  tasks : List (List ι) := []
  /-- The events whose callbacks were started, and whether they were cancelled then. -/
  started : List (ι × Bool) := []

/-- What a callback, or the code around the timer, may do. -/
inductive Nested.Op (ι : Type) where
  | addTimerEvent (e : ι) (now : Int)
  | deleteTimerEvent (e : ι)
  | setCancle (e : ι) (value : Bool)
  | onTimer (now : Int) (readings : List (Int × Int)) (last : Int)
  | run

namespace Nested

def waiting (s : Nested ι τ) : List ι := s.tasks.flatten

/-- The innermost call starts its next callback, or returns when it has none. -/
def runNext (s : Nested ι τ) : Option (Nested ι τ) :=
  match s.tasks with
  | [] => none
  | [] :: tasks => some { s with tasks }
  | (e :: rest) :: tasks =>
    some { s with
      tasks := rest :: tasks
      started := s.started ++ [(e, (s.events e).m_is_cancled)] }

theorem runNext_cases {s t : Nested ι τ} (h : s.runNext = some t) :
    t.events = s.events ∧
      ((t.waiting = s.waiting ∧ t.started = s.started) ∨
        ∃ e, s.waiting = e :: t.waiting ∧
          t.started = s.started ++ [(e, (s.events e).m_is_cancled)]) := by
  unfold runNext at h
  unfold waiting
  cases htasks : s.tasks with
  | nil =>
    rw [htasks] at h
    cases h
  | cons batch tasks =>
    rw [htasks] at h
    cases batch with
    | nil =>
      cases h
      exact ⟨rfl, Or.inl ⟨rfl, rfl⟩⟩
    | cons e rest =>
      cases h
      exact ⟨rfl, Or.inr ⟨e, rfl, rfl⟩⟩

theorem runNext_some {s : Nested ι τ} (h : s.waiting ≠ []) :
    ∃ t, s.runNext = some t ∧
      t.tasks.length + t.waiting.length < s.tasks.length + s.waiting.length := by
  unfold waiting at h ⊢
  unfold runNext
  cases htasks : s.tasks with
  | nil =>
    rw [htasks] at h
    exact absurd rfl h
  | cons batch tasks =>
    cases batch with
    | nil => exact ⟨_, rfl, by simp⟩
    | cons e rest => exact ⟨_, rfl, by simp⟩

/-- No callback was started while its event was cancelled. -/
def TakesEffect (s : Nested ι τ) : Prop := ∀ p ∈ s.started, p.2 = false

/-- What carries `TakesEffect` from step to step. -/
structure Live (s : Nested ι τ) : Prop where
  started : TakesEffect s
  waiting : ∀ e ∈ s.waiting, (s.events e).m_is_cancled = false

theorem Live.runNext {s t : Nested ι τ} (h : s.Live) (ht : s.runNext = some t) : t.Live := by
  obtain ⟨hevents, ⟨hwaiting, hstarted⟩ | ⟨e, hwaiting, hstarted⟩⟩ := runNext_cases ht
  · refine ⟨?_, ?_⟩
    · unfold TakesEffect
      rw [hstarted]
      exact h.started
    · rw [hwaiting, hevents]
      exact h.waiting
  · have hlive := h.waiting
    rw [hwaiting, List.forall_mem_cons] at hlive
    constructor
    · unfold TakesEffect
      rw [hstarted, List.forall_mem_append, List.forall_mem_singleton]
      exact ⟨h.started, hlive.1⟩
    · rw [hevents]
      exact hlive.2

variable [DecidableEq ι]

def next (s : Nested ι τ) : Op ι → Option (Nested ι τ)
  | .addTimerEvent e now => some { s with timer := s.timer.addTimerEvent s.events e now }
  | .deleteTimerEvent e =>
    let events := Timer.setCancle s.events e true
    some { s with events, timer := s.timer.deleteTimerEvent events e }
  | .setCancle e value => some { s with events := Timer.setCancle s.events e value }
  | .onTimer now readings last =>
    let r := s.timer.onTimer s.events now readings last
    some { s with events := r.events, timer := r.timer, tasks := r.tasks.map Prod.fst :: s.tasks }
  | .run => s.runNext

def system : System (Nested ι τ) (Op ι) where
  start s := s.tasks = [] ∧ s.started = []
  step s op t := next s op = some t

/-- An event is cancelled only while none of its callbacks waits. -/
def Calm (s : Nested ι τ) : Op ι → Prop
  | .deleteTimerEvent e => e ∉ s.waiting
  | .setCancle e value => value = true → e ∉ s.waiting
  | _ => True

/-! ## Runs that cancel no waiting event -/

theorem setCancle_live {events : Events ι τ} {e x : ι} {value : Bool}
    (h : value = true → x ≠ e) (hx : (events x).m_is_cancled = false) :
    (Timer.setCancle events e value x).m_is_cancled = false := by
  rcases eq_or_ne x e with rfl | hne
  · rw [setCancle_self]
    exact Bool.eq_false_iff.mpr fun hv => h hv rfl
  · rw [setCancle_of_ne events value hne, hx]

theorem Live.setCancle {s : Nested ι τ} (h : s.Live) {e : ι} {value : Bool} {timer : Timer ι}
    (hcalm : value = true → e ∉ s.waiting) :
    Live { s with events := Timer.setCancle s.events e value, timer } := by
  refine ⟨h.started, fun x hx => setCancle_live (fun hv => ?_) (h.waiting x hx)⟩
  rintro rfl
  exact hcalm hv hx

theorem Live.onTimer {s : Nested ι τ} (h : s.Live) (now : Int) (readings : List (Int × Int))
    (last : Int) {t : Nested ι τ} (ht : next s (.onTimer now readings last) = some t) :
    t.Live := by
  cases ht
  refine ⟨h.started, fun e he => ?_⟩
  have hwaiting : e ∈ (s.timer.onTimer s.events now readings last).tasks.map Prod.fst ++
    s.waiting := he
  rw [onTimer_tasks, List.mem_append] at hwaiting
  simp only
  rw [(onTimer_flags s.timer s.events now readings last e).2]
  rcases hwaiting with hmem | hmem
  · exact sweep_not_cancled hmem
  · exact h.waiting e hmem

theorem Live.next {s t : Nested ι τ} (h : s.Live) {op : Op ι} (hcalm : s.Calm op)
    (ht : next s op = some t) : t.Live := by
  cases op with
  | addTimerEvent e now =>
    cases ht
    exact ⟨h.started, h.waiting⟩
  | deleteTimerEvent e =>
    cases ht
    exact h.setCancle fun _ => hcalm
  | setCancle e value =>
    cases ht
    exact h.setCancle hcalm
  | onTimer now readings last => exact h.onTimer now readings last ht
  | run => exact h.runNext ht

theorem live_run {es : List (Op ι)} {s : Nested ι τ} (hrun : (system.restrict Calm).Run es s) :
    s.Live := by
  refine hrun.invariant ?_ fun s op t h hstep => h.next hstep.1 hstep.2
  rintro s ⟨htasks, hstarted⟩
  constructor
  · unfold TakesEffect
    rw [hstarted]
    intro p hp
    cases hp
  · unfold waiting
    rw [htasks]
    intro e he
    cases he

theorem onTimer_adds_no_cancled (t : Timer ι) {events : Events ι τ} {e : ι}
    (h : (events e).m_is_cancled = true) (now : Int) (readings : List (Int × Int)) (last : Int) :
    (t.onTimer events now readings last).timer.m_pending_events.countValue e ≤
      t.m_pending_events.countValue e := by
  have hcount := onTimer_count_le t events now readings last e
  have hnot : e ∉ (t.onTimer events now readings last).tasks.map Prod.fst := by
    rw [onTimer_tasks]
    intro hmem
    rw [sweep_not_cancled hmem] at h
    cases h
  have hrepeats : (repeats events ((t.onTimer events now readings last).tasks.map
      Prod.fst)).count e = 0 :=
    List.count_eq_zero_of_not_mem fun hmem => hnot (List.mem_filter.mp hmem).1
  omega

/-! ## A waiting event that is cancelled -/

theorem started_at_last {es : List (Op ι)} {s : Nested ι τ} (hrun : system.Run es s) {e : ι}
    (he : e ∈ s.waiting) (hcancled : (s.events e).m_is_cancled = true) :
    ∃ es', ∃ t : Nested ι τ, system.Run (es ++ es') t ∧ ¬ t.TakesEffect := by
  induction hn : s.tasks.length + s.waiting.length using Nat.strong_induction_on
    generalizing es s with
  | _ n ih =>
    obtain ⟨t, ht, hless⟩ := runNext_some (List.ne_nil_of_mem he)
    have hnext : system.Run (es ++ [.run]) t := hrun.step ht
    have hmore (hwait : e ∈ t.waiting) (hevents : t.events = s.events) :
        ∃ es', ∃ t : Nested ι τ, system.Run (es ++ es') t ∧ ¬ t.TakesEffect := by
      obtain ⟨es', u, hu, hnot⟩ :=
        ih _ (hn ▸ hless) hnext hwait (by rw [hevents]; exact hcancled) rfl
      rw [List.append_assoc] at hu
      exact ⟨_, u, hu, hnot⟩
    obtain ⟨hevents, ⟨hwaiting, -⟩ | ⟨x, hwaiting, hstarted⟩⟩ := runNext_cases ht
    · exact hmore (hwaiting ▸ he) hevents
    · rw [hwaiting] at he
      rcases List.mem_cons.mp he with rfl | he
      · refine ⟨[.run], t, hnext, fun h => ?_⟩
        have hfalse := h (e, (s.events e).m_is_cancled) (by rw [hstarted]; simp)
        rw [hcancled] at hfalse
        cases hfalse
      · exact hmore he hevents

theorem not_calm_started {es : List (Op ι)} {s : Nested ι τ} (hrun : system.Run es s) {op : Op ι}
    (h : ¬ s.Calm op) :
    ∃ es', ∃ t : Nested ι τ, system.Run (es ++ op :: es') t ∧ ¬ t.TakesEffect := by
  have hafter {t : Nested ι τ} (ht : next s op = some t) {e : ι} (he : e ∈ t.waiting)
      (hcancled : (t.events e).m_is_cancled = true) :
      ∃ es', ∃ t : Nested ι τ, system.Run (es ++ op :: es') t ∧ ¬ t.TakesEffect := by
    obtain ⟨es', u, hu, hnot⟩ := started_at_last (hrun.step ht) he hcancled
    rw [List.append_assoc] at hu
    exact ⟨es', u, hu, hnot⟩
  cases op with
  | deleteTimerEvent e =>
    refine hafter rfl (Decidable.not_not.mp h) ?_
    simp only [setCancle_self]
    rfl
  | setCancle e value =>
    obtain ⟨rfl, he⟩ := Classical.not_imp.mp h
    refine hafter rfl (Decidable.not_not.mp he) ?_
    simp only [setCancle_self]
    rfl
  | addTimerEvent e now => exact absurd trivial h
  | onTimer now readings last => exact absurd trivial h
  | run => exact absurd trivial h

/-- In a run that cancels no event whose callback waits, cancelling takes
effect. Where a run cancels such an event, it can go on so that the callback
is started. -/
theorem cancel_takes_effect (es : List (Op ι)) (s : Nested ι τ)
    (hrun : (system.restrict Calm).Run es s) :
    s.TakesEffect ∧
    (∀ e, (s.events e).m_is_cancled = true → ∀ now readings last,
      (s.timer.onTimer s.events now readings last).timer.m_pending_events.countValue e ≤
        s.timer.m_pending_events.countValue e) ∧
    ∀ op, ¬ s.Calm op → ∃ es', ∃ t : Nested ι τ, system.Run (es ++ op :: es') t ∧ ¬ t.TakesEffect :=
  ⟨(live_run hrun).started, fun _ he _ _ _ => onTimer_adds_no_cancled s.timer he _ _ _,
    fun _ h => not_calm_started hrun.of_restrict h⟩

/-- Two events that become due at the same time. -/
def together : Nested Nat Unit where
  events _ := TimerEvent.new 10 false () 0
  timer := {}

theorem together_start : (system : System (Nested Nat Unit) (Op Nat)).start together := ⟨rfl, rfl⟩

theorem cancel_takes_effect_together : ∃ s : Nested Nat Unit,
    s.started = [(0, false)] ∧ (s.events 0).m_is_cancled = true ∧ s.TakesEffect := by
  have h0 : (system.restrict Calm).Run [] together := System.Run.start together_start
  have h1 : (system.restrict Calm).Run [.addTimerEvent 0 0] _ := h0.step ⟨trivial, rfl⟩
  have h2 : (system.restrict Calm).Run [.addTimerEvent 0 0, .onTimer 20 [] 20] _ :=
    h1.step ⟨trivial, rfl⟩
  have h3 : (system.restrict Calm).Run [.addTimerEvent 0 0, .onTimer 20 [] 20, .run] _ :=
    h2.step ⟨trivial, rfl⟩
  have h4 : (system.restrict Calm).Run
      [.addTimerEvent 0 0, .onTimer 20 [] 20, .run, .setCancle 0 true] _ :=
    h3.step ⟨fun _ => by decide, rfl⟩
  exact ⟨_, rfl, rfl, (cancel_takes_effect _ _ h4).1⟩

theorem deleted_is_started : ∃ s : Nested Nat Unit,
    system.Run [.addTimerEvent 0 0, .addTimerEvent 1 0, .onTimer 20 [] 20, .run,
      .deleteTimerEvent 1, .run] s ∧
    s.started = [(0, false), (1, true)] ∧ ¬ s.TakesEffect := by
  refine ⟨_, System.Run.of_next (fun _ _ _ h => h) together_start rfl, rfl, fun h => ?_⟩
  have hfalse := h (1, true) (List.mem_cons_of_mem _ List.mem_cons_self)
  cases hfalse

end Nested

end TinyRpc.Timer
