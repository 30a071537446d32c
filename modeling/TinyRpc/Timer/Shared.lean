import TinyRpc.Timer.Blocked

/-!
# Events that several timers share

An entry stands at the arrive time that its event had when it was added.
`onTimer` gives a repeated event a new one, and adds it to one timer only.
-/

namespace TinyRpc.Timer.Shared

open Lib

variable {θ ι τ : Type}

/-! ## What a call adds again -/

/-- The events that the first loop collects. -/
def collected (events : Events ι τ) (now : Int) (l : List (Int × ι)) : List ι :=
  ((passed events now l).filter fun p => p.1 ≤ now).map Prod.snd

/-- The entries that it does not get to. -/
def leftOver (events : Events ι τ) (now : Int) (l : List (Int × ι)) : List (Int × ι) :=
  l.drop (passed events now l).length

/-- The events that are added again, with their new arrive times. -/
def resets (events : Events ι τ) : List ι → List (Int × Int) → List (ι × Int)
  | [], _ => []
  | e :: tmps, readings =>
    if (events e).m_is_repeated then
      (e, (readings.headD (0, 0)).1 + (events e).m_interval) :: resets events tmps readings.tail
    else resets events tmps readings

section Rearm

variable [DecidableEq ι]

theorem resets_resetEvent (events : Events ι τ) (e : ι) (now : Int) (tmps : List ι)
    (readings : List (Int × Int)) :
    resets (resetEvent events e now) tmps readings = resets events tmps readings := by
  induction tmps generalizing readings with
  | nil => rfl
  | cons x tmps ih =>
    have hinterval : (resetEvent events e now x).m_interval = (events x).m_interval := by
      rcases eq_or_ne x e with rfl | hne
      · rw [resetEvent_self]; rfl
      · rw [resetEvent_of_ne events now hne]
    unfold resets
    rw [resetEvent_repeated, hinterval, ih, ih]

theorem mem_rearm {tmps : List ι} {readings : List (Int × Int)} {events : Events ι τ}
    {t : Timer ι} {p : Int × ι} :
    p ∈ (rearm tmps readings events t).2.m_pending_events.entries ↔
      p ∈ t.m_pending_events.entries ∨ ∃ r ∈ resets events tmps readings, p = (r.2, r.1) := by
  induction tmps generalizing readings events t with
  | nil => simp [rearm, resets]
  | cons e tmps ih =>
    unfold rearm resets
    split
    · rw [ih, addTimerEvent_pending, Multimap.mem_emplace, resets_resetEvent, resetEvent_self,
        List.exists_mem_cons_iff, or_assoc, or_left_comm]
      rfl
    · exact ih

theorem rearm_arrive_time (tmps : List ι) (readings : List (Int × Int)) (events : Events ι τ)
    (t : Timer ι) (e : ι) :
    (e, ((rearm tmps readings events t).1 e).m_arrive_time) ∈ resets events tmps readings ∨
      (∀ r ∈ resets events tmps readings, r.1 ≠ e) ∧
        ((rearm tmps readings events t).1 e).m_arrive_time = (events e).m_arrive_time := by
  induction tmps generalizing readings events t with
  | nil => exact Or.inr ⟨by simp [resets], rfl⟩
  | cons x tmps ih =>
    unfold rearm resets
    split
    · have h := ih readings.tail (resetEvent events x (readings.headD (0, 0)).1)
        (t.addTimerEvent (resetEvent events x (readings.headD (0, 0)).1) x
          (readings.headD (0, 0)).2)
      rw [resets_resetEvent] at h
      rcases h with hmem | ⟨hnone, heq⟩
      · exact Or.inl (List.mem_cons_of_mem _ hmem)
      · rcases eq_or_ne e x with rfl | hne
        · rw [resetEvent_self] at heq
          exact Or.inl (by rw [heq]; exact List.mem_cons_self)
        · rw [resetEvent_of_ne events _ hne] at heq
          exact Or.inr ⟨List.forall_mem_cons.mpr ⟨hne.symm, hnone⟩, heq⟩
    · exact ih readings events t

end Rearm

/-! ## Several timers -/

structure State (θ ι τ : Type) where
  events : Events ι τ
  timers : θ → Timer ι

def State.entries (s : State θ ι τ) (t : θ) : List (Int × ι) :=
  (s.timers t).m_pending_events.entries

inductive Op (θ ι : Type) where
  | addTimerEvent (t : θ) (e : ι) (now : Int)
  | deleteTimerEvent (t : θ) (e : ι)
  | setCancle (e : ι) (value : Bool)
  | onTimer (t : θ) (now : Int) (readings : List (Int × Int)) (last : Int)

/-- The readings of the clock, in their order. -/
def Op.clock : Op θ ι → List Int
  | .addTimerEvent _ _ now => [now]
  | .onTimer _ now readings last => now :: readings.flatMap (fun r => [r.1, r.2]) ++ [last]
  | _ => []

section Run

variable [DecidableEq θ]

/-- What the timers hold when `onTimer` of `t` begins to add events again. -/
def held (s : State θ ι τ) (t : θ) (now : Int) (t' : θ) : List (Int × ι) :=
  if t' = t then leftOver s.events now (s.entries t) else s.entries t'

theorem held_subset {s : State θ ι τ} {t : θ} {now : Int} {t' : θ} {p : Int × ι}
    (h : p ∈ held s t now t') : p ∈ s.entries t' := by
  unfold held at h
  split at h
  · rename_i heq
    rw [heq]
    exact List.mem_of_mem_drop h
  · exact h

variable [DecidableEq ι]

def next (s : State θ ι τ) : Op θ ι → State θ ι τ
  | .addTimerEvent t e now =>
    { s with timers := Function.update s.timers t ((s.timers t).addTimerEvent s.events e now) }
  | .deleteTimerEvent t e =>
    let events := Timer.setCancle s.events e true
    { events
      timers := Function.update s.timers t ((s.timers t).deleteTimerEvent events e) }
  | .setCancle e value => { s with events := Timer.setCancle s.events e value }
  | .onTimer t now readings last =>
    let r := (s.timers t).onTimer s.events now readings last
    { events := r.events, timers := Function.update s.timers t r.timer }

def system : System (State θ ι τ) (Op θ ι) where
  start s := ∀ t, s.entries t = []
  step s op s' := s' = next s op

/-- Each entry of each timer stands at the arrive time of its event. -/
def Current (s : State θ ι τ) : Prop :=
  ∀ t, ∀ p ∈ s.entries t, p.1 = (s.events p.2).m_arrive_time

/-- An event that is added again is pending nowhere else, unless it stands
there at its new arrive time. -/
def Agrees (s : State θ ι τ) : Op θ ι → Prop
  | .onTimer t now readings _ =>
    let added := resets s.events (collected s.events now (s.entries t)) readings
    ∀ r ∈ added, (∀ r' ∈ added, r'.1 = r.1 → r'.2 = r.2) ∧
      ∀ t', ∀ p ∈ held s t now t', p.2 = r.1 → p.1 = r.2
  | _ => True

/-! ## One call -/

theorem next_onTimer_entries (s : State θ ι τ) (t : θ) (now : Int)
    (readings : List (Int × Int)) (last : Int) (t' : θ) (p : Int × ι) :
    p ∈ (next s (.onTimer t now readings last)).entries t' ↔
      p ∈ held s t now t' ∨ (t' = t ∧ ∃ r ∈
        resets s.events (collected s.events now (s.entries t)) readings, p = (r.2, r.1)) := by
  unfold next held State.entries
  rcases eq_or_ne t' t with rfl | hne
  · simp only [Function.update_self, if_true, true_and]
    unfold Timer.onTimer
    simp only [resetArriveTime_pending, sweep_eq, mem_rearm]
    rfl
  · simp only [Function.update_of_ne hne, hne, if_false, false_and, or_false]

theorem next_onTimer_arrive_time (s : State θ ι τ) (t : θ) (now : Int)
    (readings : List (Int × Int)) (last : Int) (e : ι) :
    let added := resets s.events (collected s.events now (s.entries t)) readings
    let s' := next s (.onTimer t now readings last)
    (e, (s'.events e).m_arrive_time) ∈ added ∨
      (∀ r ∈ added, r.1 ≠ e) ∧ (s'.events e).m_arrive_time = (s.events e).m_arrive_time := by
  unfold next State.entries
  simp only
  unfold Timer.onTimer
  simp only [sweep_eq]
  exact rearm_arrive_time _ readings s.events _ e

theorem current_onTimer_iff {s : State θ ι τ} (h : Current s) (t : θ) (now : Int)
    (readings : List (Int × Int)) (last : Int) :
    Current (next s (.onTimer t now readings last)) ↔
      Agrees s (.onTimer t now readings last) := by
  have htime := next_onTimer_arrive_time s t now readings last
  have hentries := next_onTimer_entries s t now readings last
  constructor
  · intro hcurrent r hr
    have hr' := hcurrent t (r.2, r.1) ((hentries t _).mpr (Or.inr ⟨rfl, r, hr, rfl⟩))
    simp only at hr'
    constructor
    · intro x hx hxr
      have hx' := hcurrent t (x.2, x.1) ((hentries t _).mpr (Or.inr ⟨rfl, x, hx, rfl⟩))
      simp only at hx'
      rw [hx', hr', hxr]
    · intro t' p hp hpr
      rw [hcurrent t' p ((hentries t' p).mpr (Or.inl hp)), hr', hpr]
  · intro hagrees
    -- The last new arrive time of an event is that of all its new entries.
    have hlast (r : ι × Int)
        (hr : r ∈ resets s.events (collected s.events now (s.entries t)) readings) :
        r.2 = ((next s (.onTimer t now readings last)).events r.1).m_arrive_time := by
      rcases htime r.1 with hmem | ⟨hnone, -⟩
      · exact ((hagrees r hr).1 _ hmem rfl).symm
      · exact absurd rfl (hnone r hr)
    intro t' p hp
    rcases (hentries t' p).mp hp with hp | ⟨-, r, hr, rfl⟩
    · rcases htime p.2 with hmem | ⟨-, heq⟩
      · exact (hagrees _ hmem).2 t' p hp rfl
      · rw [heq, h t' p (held_subset hp)]
    · exact hlast r hr

theorem current_iff {s : State θ ι τ} (h : Current s) (op : Op θ ι) :
    Current (next s op) ↔ Agrees s op := by
  cases op with
  | addTimerEvent t e now =>
    refine iff_of_true (fun t' p hp => ?_) trivial
    unfold next State.entries at hp
    rcases eq_or_ne t' t with rfl | hne
    · simp only [Function.update_self, addTimerEvent_pending, Multimap.mem_emplace] at hp
      rcases hp with rfl | hp
      · rfl
      · exact h t' p hp
    · simp only [Function.update_of_ne hne] at hp
      exact h t' p hp
  | deleteTimerEvent t e =>
    refine iff_of_true (fun t' p hp => ?_) trivial
    unfold next State.entries at hp
    unfold next
    simp only [setCancle_arrive_time]
    rcases eq_or_ne t' t with rfl | hne
    · simp only [Function.update_self] at hp
      exact h t' p (Multimap.mem_of_mem_eraseEntry hp)
    · simp only [Function.update_of_ne hne] at hp
      exact h t' p hp
  | setCancle e value =>
    refine iff_of_true (fun t' p hp => ?_) trivial
    unfold next
    simp only [setCancle_arrive_time]
    exact h t' p hp
  | onTimer t now readings last => exact current_onTimer_iff h t now readings last

/-! ## Runs -/

/-- One entry of `e` is taken from `t`, and nothing else from any timer. -/
def RemovesOne (s : State θ ι τ) (t : θ) (e : ι) : Prop :=
  (∃ k, (s.entries t).Perm ((k, e) :: (next s (.deleteTimerEvent t e)).entries t)) ∧
    ∀ t', t' ≠ t → (next s (.deleteTimerEvent t e)).entries t' = s.entries t'

theorem Current.removesOne {s : State θ ι τ} (h : Current s) {t : θ} {e : ι} {k : Int}
    (hpend : (k, e) ∈ s.entries t) : RemovesOne s t e := by
  unfold RemovesOne next State.entries
  constructor
  · refine ⟨k, ?_⟩
    have hkey := h t _ hpend
    simp only at hkey
    simp only [Function.update_self]
    unfold Timer.deleteTimerEvent Multimap.eraseEntry
    simp only [setCancle_arrive_time, ← hkey]
    exact List.perm_cons_erase hpend
  · intro t' hne
    simp only [Function.update_of_ne hne]

/-- In a run in which every event that is added again is pending nowhere else,
or stands there at its new arrive time, the keys are the arrive times, and
deletion works. The next call keeps this exactly when it does the same. -/
theorem keys_current (es : List (Op θ ι)) (s : State θ ι τ)
    (hrun : (system.restrict Agrees).Run es s) :
    Current s ∧ (∀ t e, (∃ k, (k, e) ∈ s.entries t) → RemovesOne s t e) ∧
      ∀ op, Current (next s op) ↔ Agrees s op := by
  have h : Current s := by
    refine hrun.invariant ?_ ?_
    · intro s hstart t p hp
      rw [hstart t] at hp
      cases hp
    · rintro s op _ h ⟨hagrees, rfl⟩
      exact (current_iff h op).mpr hagrees
  refine ⟨h, ?_, fun op => current_iff h op⟩
  rintro t e ⟨k, hpend⟩
  exact h.removesOne hpend

end Run

/-- Two timers, and an event that is repeated every second. -/
def twoTimers : State Bool Unit Unit where
  events _ := TimerEvent.new 1000 true () 0
  timers _ := {}

theorem twoTimers_start : (system : System (State Bool Unit Unit) (Op Bool Unit)).start twoTimers :=
  fun _ => rfl

theorem keys_current_twoTimers : ∃ s : State Bool Unit Unit,
    s.entries false = [(2001, ())] ∧ RemovesOne s false () := by
  have h0 : (system.restrict Agrees).Run [] twoTimers := System.Run.start twoTimers_start
  have h1 : (system.restrict Agrees).Run [.addTimerEvent false () 0] _ := h0.step ⟨trivial, rfl⟩
  have hagrees : Agrees (next twoTimers (.addTimerEvent false () 0))
      (.onTimer false 1000 [(1001, 1001)] 1001) := by
    unfold Agrees
    decide
  have h2 : (system.restrict Agrees).Run
      [.addTimerEvent false () 0, .onTimer false 1000 [(1001, 1001)] 1001] _ :=
    h1.step ⟨hagrees, rfl⟩
  exact ⟨_, rfl, (keys_current _ _ h2).2.1 false () ⟨2001, List.mem_singleton_self _⟩⟩

def sharedOps : List (Op Bool Unit) :=
  [.addTimerEvent false () 0, .addTimerEvent true () 0,
    .onTimer false 1000 [(1001, 1001)] 1001]

/-- The event in both timers, as `test_io_thread` adds it: the entry of the
second timer keeps the old arrive time, and deletion does not find it. -/
theorem shared_not_current : ∃ s : State Bool Unit Unit,
    system.Run sharedOps s ∧ (sharedOps.flatMap Op.clock).Pairwise (· ≤ ·) ∧
    ¬ Current s ∧ s.entries true = [(1000, ())] ∧
    (next s (.deleteTimerEvent true ())).entries true = [(1000, ())] := by
  have hnext : ∀ (s : State Bool Unit Unit) op t, some (next s op) = some t →
      system.step s op t := fun _ _ _ h => (Option.some.inj h).symm
  refine ⟨_, System.Run.of_next hnext twoTimers_start rfl, by decide, fun h => ?_, rfl, rfl⟩
  exact absurd (h true (1000, ()) (List.mem_singleton_self _)) (by decide)

end TinyRpc.Timer.Shared
