import TinyRpc.Lib.Runs
import TinyRpc.Timer.Collect

/-!
# When, and in which order, timers fire

Each entry stands at the arrive time of its event, so what `onTimer` collects
is due. It collects the entries in their order, and puts the repeated events
back under their new arrive times.
-/

namespace TinyRpc.Timer.Order

open Lib

variable {ι τ : Type}

/-! ## What the first loop collects -/

theorem sweep_sublist (events : Events ι τ) (now : Int) (l : List (Int × ι)) :
    ∃ due : List (Int × ι), due.Sublist (l.take (sweep events now l).2) ∧
      (sweep events now l).1 = due.map Prod.snd ∧
      ∀ p ∈ due, p.1 ≤ now ∧ (events p.2).m_is_cancled = false := by
  induction l with
  | nil => exact ⟨[], List.Sublist.refl _, rfl, by simp⟩
  | cons p l ih =>
    obtain ⟨due, hsub, htmps, hdue⟩ := ih
    unfold sweep
    split
    · rename_i hle
      split
      · exact ⟨[], List.Sublist.refl _, rfl, by simp⟩
      · rename_i hcancled
        refine ⟨p :: due, hsub.cons_cons p, by simp only [htmps, List.map_cons], ?_⟩
        rw [List.forall_mem_cons]
        exact ⟨⟨hle, Bool.eq_false_iff.mpr hcancled⟩, hdue⟩
    · exact ⟨due, hsub.cons p, htmps, hdue⟩

variable [DecidableEq ι]

/-! ## The entries and their events -/

/-- Each entry stands at the arrive time of its event. Each event has one entry
at most, and entries with the same time are in the order of the insertions. -/
structure Timely (events : Events ι τ) (t : Timer ι) (insertions : List ι) : Prop where
  key : ∀ p ∈ t.m_pending_events.entries, p.1 = (events p.2).m_arrive_time
  ordered : t.m_pending_events.Ordered insertions

def NotPending (t : Timer ι) (e : ι) : Prop := ∀ p ∈ t.m_pending_events.entries, e ≠ p.2

theorem Timely.addTimerEvent {events : Events ι τ} {t : Timer ι} {insertions : List ι}
    (h : Timely events t insertions) {e : ι} (hne : NotPending t e) (now : Int) :
    Timely events (t.addTimerEvent events e now) (e :: insertions) := by
  constructor
  · intro p hp
    rw [addTimerEvent_pending, Multimap.mem_emplace] at hp
    rcases hp with rfl | hp
    · rfl
    · exact h.key p hp
  · rw [addTimerEvent_pending]
    exact h.ordered.emplace _ hne

theorem Timely.resetEvent {events : Events ι τ} {t : Timer ι} {insertions : List ι}
    (h : Timely events t insertions) {e : ι} (hne : NotPending t e) (now : Int) :
    Timely (resetEvent events e now) t insertions := by
  refine ⟨?_, h.ordered⟩
  intro p hp
  rw [resetEvent_of_ne events now (hne p hp).symm]
  exact h.key p hp

theorem Timely.sublist {events : Events ι τ} {t t' : Timer ι} {insertions : List ι}
    (h : Timely events t insertions)
    (hsub : t'.m_pending_events.entries.Sublist t.m_pending_events.entries) :
    Timely events t' insertions :=
  ⟨fun p hp => h.key p (hsub.subset hp), h.ordered.sublist hsub⟩

theorem Timely.setCancle {events : Events ι τ} {t : Timer ι} {insertions : List ι}
    (h : Timely events t insertions) (e : ι) (value : Bool) :
    Timely (setCancle events e value) t insertions := by
  refine ⟨?_, h.ordered⟩
  intro p hp
  rw [setCancle_arrive_time]
  exact h.key p hp

theorem rearm_timely {tmps : List ι} (hnodup : tmps.Nodup) (readings : List (Int × Int))
    {events : Events ι τ} {t : Timer ι} {insertions : List ι} (h : Timely events t insertions)
    (hne : ∀ e ∈ tmps, NotPending t e) :
    Timely (rearm tmps readings events t).1 (rearm tmps readings events t).2
      ((repeats events tmps).reverse ++ insertions) := by
  induction tmps generalizing readings events t insertions with
  | nil => exact h
  | cons e tmps ih =>
    obtain ⟨hmem, hnodup⟩ := List.nodup_cons.mp hnodup
    obtain ⟨he, hne⟩ := List.forall_mem_cons.mp hne
    unfold rearm
    rw [repeats_cons]
    split
    · have h1 := (h.resetEvent he (readings.headD (0, 0)).1).addTimerEvent he
        (readings.headD (0, 0)).2
      have h2 := ih hnodup readings.tail h1 ?_
      · rw [repeats_resetEvent] at h2
        rwa [List.reverse_cons, List.append_assoc, List.singleton_append]
      · intro x hx p hp
        rw [addTimerEvent_pending, Multimap.mem_emplace] at hp
        rcases hp with rfl | hp
        · rintro rfl
          exact hmem hx
        · exact hne x hx p hp
    · exact ih hnodup readings h hne

theorem rearm_events {tmps : List ι} (hnodup : tmps.Nodup) (readings : List (Int × Int))
    (events : Events ι τ) (t : Timer ι) (e : ι) :
    (e ∈ repeats events tmps → ∃ now, (rearm tmps readings events t).1 e =
      (events e).resetArriveTime now) ∧
    (e ∉ repeats events tmps → (rearm tmps readings events t).1 e = events e) := by
  induction tmps generalizing readings events t with
  | nil => simp [repeats, rearm]
  | cons x tmps ih =>
    obtain ⟨hmem, hnodup⟩ := List.nodup_cons.mp hnodup
    unfold rearm
    rw [repeats_cons]
    split
    · have h := ih hnodup readings.tail (resetEvent events x (readings.headD (0, 0)).1)
        (t.addTimerEvent (resetEvent events x (readings.headD (0, 0)).1) x
          (readings.headD (0, 0)).2)
      rw [repeats_resetEvent] at h
      rcases eq_or_ne e x with rfl | hne
      · have hnot : e ∉ repeats events tmps := fun he => hmem (List.mem_of_mem_filter he)
        constructor
        · intro _
          exact ⟨_, by rw [h.2 hnot, resetEvent_self]⟩
        · intro he
          exact absurd List.mem_cons_self he
      · rw [resetEvent_of_ne events _ hne] at h
        simpa [hne] using h
    · exact ih hnodup readings events t

/-! ## One call of `onTimer` -/

/-- The batch of a call, as entries. -/
structure Batch (t : Timer ι) (events : Events ι τ) (now : Int) (r : OnTimer ι τ)
    (due : List (Int × ι)) : Prop where
  pending : due.Sublist t.m_pending_events.entries
  tasks : r.tasks = due.map fun p => (p.2, p.1)
  due : ∀ p ∈ due, p.1 ≤ now ∧ p.1 = (events p.2).m_arrive_time ∧
    (events p.2).m_is_cancled = false

theorem onTimer_batch {t : Timer ι} {events : Events ι τ} {insertions : List ι}
    (h : Timely events t insertions) (now : Int) (readings : List (Int × Int)) (last : Int) :
    ∃ due, Batch t events now (t.onTimer events now readings last) due := by
  obtain ⟨due, hsub, htmps, hdue⟩ := sweep_sublist events now t.m_pending_events.entries
  have hpending := hsub.trans (List.take_sublist _ _)
  refine ⟨due, hpending, ?_, ?_⟩
  · unfold onTimer
    simp only [htmps, List.map_map]
    apply List.map_congr_left
    intro p hp
    simp only [Function.comp_apply, h.key p (hpending.subset hp)]
  · intro p hp
    exact ⟨(hdue p hp).1, h.key p (hpending.subset hp), (hdue p hp).2⟩

/-- What is collected is no longer pending when the repeated events are put back. -/
theorem sweep_notPending {t : Timer ι} {events : Events ι τ} {insertions : List ι}
    (h : Timely events t insertions) (now : Int) :
    (sweep events now t.m_pending_events.entries).1.Nodup ∧
      ∀ e ∈ (sweep events now t.m_pending_events.entries).1, ∀ p ∈
        t.m_pending_events.entries.drop (sweep events now t.m_pending_events.entries).2,
        e ≠ p.2 := by
  obtain ⟨due, hsub, htmps, -⟩ := sweep_sublist events now t.m_pending_events.entries
  have honce := h.ordered.once
  rw [← List.take_append_drop (sweep events now t.m_pending_events.entries).2
    t.m_pending_events.entries, List.map_append, List.nodup_append] at honce
  obtain ⟨htake, -, hdisjoint⟩ := honce
  rw [htmps]
  constructor
  · exact htake.sublist (hsub.map Prod.snd)
  · intro e he p hp
    exact hdisjoint e ((hsub.map Prod.snd).subset he) p.2 (List.mem_map_of_mem hp)

theorem onTimer_timely {t : Timer ι} {events : Events ι τ} {insertions : List ι}
    (h : Timely events t insertions) (now : Int) (readings : List (Int × Int)) (last : Int) :
    Timely (t.onTimer events now readings last).events (t.onTimer events now readings last).timer
      ((repeats events ((t.onTimer events now readings last).tasks.map Prod.fst)).reverse ++
        insertions) := by
  obtain ⟨hnodup, hne⟩ := sweep_notPending h now
  rw [onTimer_tasks]
  have hleft : Timely events
      { t with
        m_pending_events :=
          t.m_pending_events.eraseFront (sweep events now t.m_pending_events.entries).2 }
      insertions := h.sublist (List.drop_sublist _ _)
  have h1 := rearm_timely hnodup readings hleft hne
  unfold onTimer
  constructor
  · simp only [resetArriveTime_pending]
    exact h1.key
  · simp only [resetArriveTime_pending]
    exact h1.ordered

theorem onTimer_events {t : Timer ι} {events : Events ι τ} {insertions : List ι}
    (h : Timely events t insertions) (now : Int) (readings : List (Int × Int)) (last : Int)
    {e : ι} (he : e ∈ (t.onTimer events now readings last).tasks.map Prod.fst)
    (hrep : (events e).m_is_repeated = true) :
    ∃ now', (t.onTimer events now readings last).events e = (events e).resetArriveTime now' := by
  rw [onTimer_tasks] at he
  have hmem : e ∈ repeats events (sweep events now t.m_pending_events.entries).1 :=
    List.mem_filter.mpr ⟨he, hrep⟩
  exact (rearm_events (sweep_notPending h now).1 readings events _ e).1 hmem

/-! ## Runs -/

/-- A timer and its events, the calls of `addTimerEvent`, all insertions (the
last one first), and the events whose tasks were run. -/
structure State (ι τ : Type) where
  events : Events ι τ
  timer : Timer ι := {}
  added : List ι := []
  insertions : List ι := []
  ran : List ι := []

inductive Op (ι : Type) where
  | addTimerEvent (e : ι) (now : Int)
  | deleteTimerEvent (e : ι)
  | setCancle (e : ι) (value : Bool)
  | onTimer (now : Int) (readings : List (Int × Int)) (last : Int)

def next (s : State ι τ) : Op ι → State ι τ
  | .addTimerEvent e now =>
    { s with
      timer := s.timer.addTimerEvent s.events e now
      added := e :: s.added
      insertions := e :: s.insertions }
  | .deleteTimerEvent e =>
    let events := Timer.setCancle s.events e true
    { s with events, timer := s.timer.deleteTimerEvent events e }
  | .setCancle e value => { s with events := Timer.setCancle s.events e value }
  | .onTimer now readings last =>
    let r := s.timer.onTimer s.events now readings last
    let tmps := r.tasks.map Prod.fst
    { s with
      events := r.events
      timer := r.timer
      insertions := (repeats s.events tmps).reverse ++ s.insertions
      ran := s.ran ++ tmps }

def system : System (State ι τ) (Op ι) where
  start s := s = { events := s.events }
  step s op t := t = next s op

/-- No event is added while it is pending. -/
def AddsOnce (s : State ι τ) : Op ι → Prop
  | .addTimerEvent e _ => NotPending s.timer e
  | _ => True

structure Inv (s : State ι τ) : Prop where
  timely : Timely s.events s.timer s.insertions
  count : ∀ e, s.ran.count e + s.timer.m_pending_events.countValue e ≤ s.insertions.count e
  one_shot : ∀ e, (s.events e).m_is_repeated = false → s.insertions.count e = s.added.count e

theorem Inv.addTimerEvent {s : State ι τ} (h : Inv s) {e : ι} (hne : NotPending s.timer e)
    (now : Int) : Inv (next s (.addTimerEvent e now)) := by
  constructor
  · exact h.timely.addTimerEvent hne now
  · intro x
    have hcount := h.count x
    simp only [next, addTimerEvent_pending]
    rcases eq_or_ne e x with rfl | hx
    · rw [Multimap.countValue_emplace_self, List.count_cons_self]
      omega
    · rwa [Multimap.countValue_emplace_of_ne _ _ hx, List.count_cons_of_ne hx]
  · intro x hrep
    simp only [next, List.count_cons, h.one_shot x hrep]

theorem Inv.deleteTimerEvent {s : State ι τ} (h : Inv s) (e : ι) :
    Inv (next s (.deleteTimerEvent e)) := by
  constructor
  · exact (h.timely.setCancle e true).sublist List.erase_sublist
  · intro x
    have hle := s.timer.m_pending_events.countValue_eraseEntry_le
      (Timer.setCancle s.events e true e).m_arrive_time e x
    exact Nat.le_trans (Nat.add_le_add_left hle _) (h.count x)
  · intro x hrep
    simp only [next, setCancle_repeated] at hrep
    exact h.one_shot x hrep

theorem Inv.setCancle {s : State ι τ} (h : Inv s) (e : ι) (value : Bool) :
    Inv (next s (.setCancle e value)) := by
  refine ⟨h.timely.setCancle e value, h.count, ?_⟩
  intro x hrep
  simp only [next, setCancle_repeated] at hrep
  exact h.one_shot x hrep

theorem Inv.onTimer {s : State ι τ} (h : Inv s) (now : Int) (readings : List (Int × Int))
    (last : Int) : Inv (next s (.onTimer now readings last)) := by
  constructor
  · exact onTimer_timely h.timely now readings last
  · intro e
    have hcount := h.count e
    have hle := onTimer_count_le s.timer s.events now readings last e
    simp only [next, List.count_append, List.count_reverse]
    omega
  · intro e hrep
    simp only [next, (onTimer_flags s.timer s.events now readings last e).1] at hrep
    simp only [next, List.count_append, List.count_reverse, count_repeats hrep, Nat.zero_add]
    exact h.one_shot e hrep

theorem inv_run {es : List (Op ι)} {s : State ι τ} (hrun : (system.restrict AddsOnce).Run es s) :
    Inv s := by
  apply hrun.invariant
  · intro s hs
    rw [show s = { events := s.events } from hs]
    constructor
    · constructor
      · intro p hp
        cases hp
      · exact Multimap.empty_ordered
    · intro e
      exact Nat.le_refl _
    · intro e _
      rfl
  · rintro s op t h ⟨honce, rfl⟩
    cases op with
    | addTimerEvent e now => exact h.addTimerEvent honce now
    | deleteTimerEvent e => exact h.deleteTimerEvent e
    | setCancle e value => exact h.setCancle e value
    | onTimer now readings last => exact h.onTimer now readings last

/-- What a call of `onTimer` runs: each task with the arrive time of its event. -/
structure Fires (s : State ι τ) (now : Int) (r : OnTimer ι τ) : Prop where
  due : ∀ p ∈ r.tasks, (p.2, p.1) ∈ s.timer.m_pending_events.entries ∧
    p.2 = (s.events p.1).m_arrive_time ∧ p.2 ≤ now ∧ (s.events p.1).m_is_cancled = false
  in_order : r.tasks.Pairwise fun p q =>
    p.2 < q.2 ∨ p.2 = q.2 ∧ s.insertions.idxOf q.1 < s.insertions.idxOf p.1
  again : ∀ p ∈ r.tasks, (s.events p.1).m_is_repeated = true →
    (∃ now', r.events p.1 = (s.events p.1).resetArriveTime now') ∧
      ((r.events p.1).m_arrive_time, p.1) ∈ r.timer.m_pending_events.entries

theorem onTimer_again {t : Timer ι} {events : Events ι τ} {insertions : List ι}
    (h : Timely events t insertions) (now : Int) (readings : List (Int × Int)) (last : Int)
    {e : ι} (he : e ∈ (t.onTimer events now readings last).tasks.map Prod.fst)
    (hrep : (events e).m_is_repeated = true) :
    (((t.onTimer events now readings last).events e).m_arrive_time, e) ∈
      (t.onTimer events now readings last).timer.m_pending_events.entries := by
  have hkey := (onTimer_timely h now readings last).key
  rw [onTimer_tasks] at he
  obtain ⟨k, hk⟩ := (rearm_spec _ readings events
    { t with
      m_pending_events :=
        t.m_pending_events.eraseFront (sweep events now t.m_pending_events.entries).2 }).adds
    e he hrep
  have hmem : (k, e) ∈ (t.onTimer events now readings last).timer.m_pending_events.entries := by
    unfold onTimer
    simp only [resetArriveTime_pending]
    exact hk
  rwa [← hkey _ hmem]

theorem Inv.fires {s : State ι τ} (h : Inv s) (now : Int) (readings : List (Int × Int))
    (last : Int) : Fires s now (s.timer.onTimer s.events now readings last) := by
  obtain ⟨due, hpending, htasks, hdue⟩ := onTimer_batch h.timely now readings last
  constructor
  · intro p hp
    rw [htasks] at hp
    obtain ⟨q, hq, rfl⟩ := List.mem_map.mp hp
    obtain ⟨hle, hkey, hcancled⟩ := hdue q hq
    exact ⟨hpending.subset hq, hkey, hle, hcancled⟩
  · rw [htasks, List.pairwise_map]
    exact h.timely.ordered.order.sublist hpending
  · intro p hp hrep
    have hmem := List.mem_map_of_mem (f := Prod.fst) hp
    exact ⟨onTimer_events h.timely now readings last hmem hrep,
      onTimer_again h.timely now readings last hmem hrep⟩

/-- No timer fires early, out of order, or more often than it was put in. -/
theorem fires_in_order (es : List (Op ι)) (s : State ι τ)
    (hrun : (system.restrict AddsOnce).Run es s) :
    (∀ now readings last, Fires s now (s.timer.onTimer s.events now readings last)) ∧
      ∀ e, s.ran.count e ≤ s.insertions.count e ∧
        ((s.events e).m_is_repeated = false → s.ran.count e ≤ s.added.count e) := by
  have h := inv_run hrun
  refine ⟨h.fires, ?_⟩
  intro e
  have hcount := h.count e
  constructor
  · omega
  · intro hrep
    have := h.one_shot e hrep
    omega

/-- Two events that are due at the same time. -/
def sameTime : State Nat Unit where
  events _ := TimerEvent.new 10 false () 0

theorem fires_in_order_sameTime :
    ((next (next sameTime (.addTimerEvent 1 0)) (.addTimerEvent 0 0)).timer.onTimer
      sameTime.events 10 [] 10).tasks = [(1, 10), (0, 10)] ∧
    Fires (next (next sameTime (.addTimerEvent 1 0)) (.addTimerEvent 0 0)) 10
      ((next (next sameTime (.addTimerEvent 1 0)) (.addTimerEvent 0 0)).timer.onTimer
        sameTime.events 10 [] 10) := by
  have h0 : (system.restrict AddsOnce).Run [] sameTime := System.Run.start rfl
  have h1 : (system.restrict AddsOnce).Run [.addTimerEvent 1 0] _ :=
    h0.step ⟨fun p hp => absurd hp List.not_mem_nil, rfl⟩
  have hne : NotPending (next sameTime (.addTimerEvent 1 0)).timer 0 := by
    intro p hp
    rw [List.mem_singleton.mp hp]
    decide
  have h2 : (system.restrict AddsOnce).Run [.addTimerEvent 1 0, .addTimerEvent 0 0] _ :=
    h1.step ⟨hne, rfl⟩
  exact ⟨rfl, (fires_in_order _ _ h2).1 10 [] 10⟩

end TinyRpc.Timer.Order
